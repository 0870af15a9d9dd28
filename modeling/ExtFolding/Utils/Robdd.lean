import ExtFolding.Lib.Bdd
import ExtFolding.Utils.Cudd
import Mathlib.Data.List.GetD

/-!
# A BDD manager

The manager of `Cudd` on reduced ordered diagrams. Operations are given by their meaning;
paths are searched level by level along the current order, the low branch first.
-/

namespace ExtFolding.Robdd

open ExtFolding.Utils ExtFolding.Aig

theorem dependsOn_eval (f : Robdd) {n : ℕ} (h : f.bound ≤ n) : DependsOn f.eval { v | v < n } :=
  fun _ _ hxy => eval_congr fun v hv => hxy v (Nat.lt_of_lt_of_le hv h)

def bot : Robdd := ofFun 0 fun _ => false

theorem eval_bot (x : Assign) : bot.eval x = false := eval_ofFun (fun _ _ _ => rfl) x

theorem ne_bot_iff {f : Robdd} : f ≠ bot ↔ ∃ x, f.eval x = true := by
  constructor
  · intro h
    by_contra hno
    refine h (eval_inj fun x => ?_)
    rw [eval_bot]
    exact Bool.eq_false_iff.mpr fun hx => hno ⟨x, hx⟩
  · rintro ⟨x, hx⟩ rfl
    rw [eval_bot] at hx
    exact Bool.false_ne_true hx

/-! ## Cubes -/

/-- `f` with variable `v` set to `b`. -/
def restrict (f : Robdd) (v : ℕ) (b : Bool) : Robdd :=
  ofFun f.bound fun x => f.eval (Function.update x v b)

theorem eval_restrict (f : Robdd) (v : ℕ) (b : Bool) (x : Assign) :
    (f.restrict v b).eval x = f.eval (Function.update x v b) := by
  apply eval_ofFun
  intro x y hxy
  apply eval_congr
  intro w hw
  by_cases hwv : w = v
  · rw [hwv, Function.update_self, Function.update_self]
  · rw [Function.update_of_ne hwv, Function.update_of_ne hwv]
    exact hxy w hw

def cube (n : ℕ) (c : Cube) : Robdd :=
  ofFun n fun x => (List.range n).all fun m => c m = none ∨ c m = some (x m)

theorem eval_cube (n : ℕ) (c : Cube) (x : Assign) :
    (cube n c).eval x = true ↔ (c.keep (· < n)).Holds x := by
  unfold cube
  rw [eval_ofFun]
  · simp only [List.all_eq_true, List.mem_range, decide_eq_true_eq]
    constructor
    · intro h m b hb
      unfold Cube.keep at hb
      split at hb
      · next hm =>
          rcases h m hm with hc | hc
          · rw [hc] at hb
            cases hb
          · rw [hc] at hb
            exact Option.some.inj hb
      · cases hb
    · intro h m hm
      cases hc : c m with
      | none => exact Or.inl rfl
      | some b =>
          right
          rw [h m b (by unfold Cube.keep; rw [if_pos hm, hc])]
  · intro x y hxy
    rw [Bool.eq_iff_iff, List.all_eq_true, List.all_eq_true]
    exact forall₂_congr fun m hm => by rw [hxy m (List.mem_range.mp hm)]

/-- The literals of a cube: a variable has one when its other value falsifies the cube. -/
def litsOf (g : Robdd) : Cube := fun v =>
  if g.restrict v false = bot then some true
  else if g.restrict v true = bot then some false
  else none

theorem restrict_cube (n : ℕ) (c : Cube) (v : ℕ) (b : Bool) :
    (cube n c).restrict v b = bot ↔ (c.keep (· < n)) v = some !b := by
  constructor
  · intro h
    by_contra hne
    have hx : ((cube n c).restrict v b).eval ((c.keep (· < n)).put fun _ => b) = true := by
      rw [eval_restrict, eval_cube]
      intro m d hd
      by_cases hmv : m = v
      · subst hmv
        rw [Function.update_self]
        rw [hd] at hne
        cases b <;> cases d <;> simp at hne ⊢
      · rw [Function.update_of_ne hmv, Cube.put_of_some hd]
    rw [h, eval_bot] at hx
    exact Bool.false_ne_true hx
  · intro h
    refine eval_inj fun x => ?_
    rw [eval_restrict, eval_bot]
    by_contra hne
    have hx := (eval_cube n c _).mp (Bool.not_eq_false _ ▸ hne) v (!b) h
    rw [Function.update_self] at hx
    cases b <;> simp at hx

theorem litsOf_cube (n : ℕ) (c : Cube) : litsOf (cube n c) = c.keep (· < n) := by
  funext v
  unfold litsOf
  simp only [restrict_cube]
  cases h : (c.keep (· < n)) v with
  | none => simp
  | some b => cases b <;> simp

def cofactor (f g : Robdd) : Robdd := ofFun f.bound fun x => f.eval ((litsOf g).put x)

theorem eval_cofactor (f : Robdd) (n : ℕ) (c : Cube) (x : Assign) :
    (cofactor f (cube n c)).eval x = f.eval ((c.keep (· < n)).put x) := by
  unfold cofactor
  rw [eval_ofFun, litsOf_cube]
  intro x y hxy
  apply eval_congr
  intro v hv
  unfold Cube.put
  rw [hxy v hv]

/-! ## Support -/

def support (f : Robdd) : Finset ℕ :=
  (Finset.range f.bound).filter fun v => f.restrict v false ≠ f.restrict v true

theorem restrict_eq_iff {f : Robdd} {v : ℕ} : f.restrict v false = f.restrict v true ↔
    ∀ x b, f.eval (Function.update x v b) = f.eval x := by
  constructor
  · intro h x b
    have hx : ∀ d, f.eval (Function.update x v d) = f.eval (Function.update x v false) := by
      intro d
      cases d with
      | false => rfl
      | true => rw [← eval_restrict, ← eval_restrict, h]
    rw [hx b, ← hx (x v), Function.update_eq_self]
  · intro h
    refine eval_inj fun x => ?_
    rw [eval_restrict, eval_restrict, h, h]

theorem dependsOn_support (f : Robdd) : DependsOn f.eval (support f : Set ℕ) := by
  -- change the variables below `n` one after the other
  have key : ∀ n x y, (∀ v ∈ support f, x v = y v) → (∀ v, n ≤ v → x v = y v) →
      f.eval x = f.eval y := by
    intro n
    induction n with
    | zero =>
        intro x y _ hxy
        rw [funext fun v => hxy v (Nat.zero_le v)]
    | succ n ih =>
        intro x y hsup hxy
        by_cases hn : x n = y n
        · apply ih x y hsup
          intro v hv
          rcases Nat.eq_or_lt_of_le hv with rfl | hlt
          · exact hn
          · exact hxy v hlt
        · have hno : n ∉ support f := fun h => hn (hsup n h)
          have hupd : f.eval (Function.update y n (x n)) = f.eval y := by
            by_cases hb : n < f.bound
            · rw [support, Finset.mem_filter, Finset.mem_range] at hno
              exact restrict_eq_iff.mp (by_contra fun hne => hno ⟨hb, hne⟩) y (x n)
            · apply eval_congr
              intro v hv
              exact Function.update_of_ne (by omega) _ _
          rw [← hupd]
          apply ih
          · intro v hv
            rw [Function.update_of_ne (by rintro rfl; exact hno hv)]
            exact hsup v hv
          · intro v hv
            by_cases hvn : v = n
            · rw [hvn, Function.update_self]
            · rw [Function.update_of_ne hvn]
              exact hxy v (by omega)
  intro x y hxy
  have hsup : ∀ v ∈ support f, x v = y v := fun v hv => hxy v hv
  let y' : Assign := fun v => if v < f.bound then y v else x v
  have hy' : f.eval y' = f.eval y := eval_congr fun v hv => if_pos hv
  rw [← hy']
  apply key f.bound
  · intro v hv
    rw [hsup v hv]
    exact (if_pos (Finset.mem_range.mp (Finset.mem_filter.mp hv).1)).symm
  · intro v hv
    exact (if_neg (Nat.not_lt.mpr hv)).symm

theorem support_subset (f : Robdd) (S : Set ℕ) (h : DependsOn f.eval S) :
    (support f : Set ℕ) ⊆ S := by
  intro v hv
  by_contra hvS
  apply (Finset.mem_filter.mp hv).2
  rw [restrict_eq_iff]
  intro x b
  apply h
  intro w hw
  exact Function.update_of_ne (by rintro rfl; exact hvS hw) _ _

/-! ## The first path -/

/-- The variable at level `l`. -/
def varAt (order : List ℕ) (l : ℕ) : ℕ := order.getD l l

/-- The first path from level `l` on, low branch first. -/
def walk (order : List ℕ) : ℕ → ℕ → Robdd → Cube → Cube
  | 0, _, _, c => c
  | k + 1, l, g, c =>
      let v := varAt order l
      let g0 := g.restrict v false
      let g1 := g.restrict v true
      if g0 = g1 then walk order k (l + 1) g c
      else if g0 = bot then walk order k (l + 1) g1 (Function.update c v (some true))
      else walk order k (l + 1) g0 (Function.update c v (some false))

def firstCube (order : List ℕ) (f : Robdd) : Cube :=
  walk order (max order.length f.bound) 0 f fun _ => none

section Walk

variable {order : List ℕ} (hord : order.Perm (List.range order.length))
include hord

theorem cuddI_varAt (l : ℕ) : cuddI order (varAt order l) = l := by
  unfold varAt
  by_cases hl : l < order.length
  · have hnd : order.Nodup := hord.nodup_iff.mpr List.nodup_range
    have hlt : order[l] < order.length :=
      List.mem_range.mp (hord.mem_iff.mp (List.getElem_mem hl))
    rw [List.getD_eq_getElem _ _ hl, cuddI, if_pos hlt, hnd.idxOf_getElem]
  · rw [List.getD_eq_default _ _ (Nat.le_of_not_lt hl), cuddI_of_ge (Nat.le_of_not_lt hl)]

/-- Where the search stands at level `l`: `c` is the path so far and `g` what is left of `f`. -/
structure WalkInv (order : List ℕ) (f : Robdd) (l : ℕ) (g : Robdd) (c : Cube) : Prop where
  left : ∀ x, g.eval x = f.eval (c.put x)
  live : g ≠ bot
  low : DependsOn g.eval { m | l ≤ cuddI order m }
  free : ∀ m, l ≤ cuddI order m → c m = none
  none_iff : ∀ v, cuddI order v < l → (c v = none ↔ ∀ x b,
    f.eval (Function.update ((c.keep fun w => cuddI order w < cuddI order v).put x) v b) =
      f.eval ((c.keep fun w => cuddI order w < cuddI order v).put x))

omit hord in
theorem put_update_of_none {c : Cube} {v : ℕ} (hc : c v = none) (x : Assign) (b : Bool) :
    c.put (Function.update x v b) = Function.update (c.put x) v b := by
  funext w
  by_cases hwv : w = v
  · subst hwv
    rw [Cube.put_of_none hc, Function.update_self, Function.update_self]
  · rw [Function.update_of_ne hwv]
    unfold Cube.put
    rw [Function.update_of_ne hwv]

omit hord in
theorem put_update_some {c : Cube} {v : ℕ} (hc : c v = none) (x : Assign) (b : Bool) :
    Cube.put (Function.update c v (some b)) x = c.put (Function.update x v b) := by
  rw [put_update_of_none hc]
  funext w
  by_cases hwv : w = v
  · subst hwv
    rw [Cube.put_of_some (Function.update_self _ _ _), Function.update_self]
  · rw [Function.update_of_ne hwv]
    unfold Cube.put
    rw [Function.update_of_ne hwv]

variable {f g : Robdd} {l : ℕ} {c : Cube}

omit hord in
/-- Literals above level `l` are all there are. -/
theorem WalkInv.keep_eq (h : WalkInv order f l g c) {v : ℕ} (hv : cuddI order v = l) :
    (c.keep fun w => cuddI order w < cuddI order v) = c := by
  funext w
  unfold Cube.keep
  split
  · rfl
  · next hw => exact (h.free w (by omega)).symm

/-- A level that `g` does not test. -/
theorem WalkInv.skip (h : WalkInv order f l g c)
    (heq : g.restrict (varAt order l) false = g.restrict (varAt order l) true) :
    WalkInv order f (l + 1) g c := by
  have hl := cuddI_varAt hord l
  have hfree := restrict_eq_iff.mp heq
  refine ⟨h.left, h.live, fun x y hxy => ?_, fun m hm => h.free m (by omega), fun v hv => ?_⟩
  · rw [← hfree y (x (varAt order l))]
    apply h.low
    intro m hm
    by_cases hmv : m = varAt order l
    · rw [hmv, Function.update_self]
    · rw [Function.update_of_ne hmv]
      apply hxy
      apply Nat.lt_of_le_of_ne hm
      rintro rfl
      exact hmv (cuddI_injective hord hl.symm)
  · rcases Nat.eq_or_lt_of_le (Nat.le_of_lt_succ hv) with hvl | hlt
    · obtain rfl : v = varAt order l := cuddI_injective hord (hvl.trans hl.symm)
      refine ⟨fun hc x b => ?_, fun _ => h.free _ hvl.ge⟩
      rw [h.keep_eq hvl, ← put_update_of_none hc, ← h.left, ← h.left, hfree]
    · exact h.none_iff v hlt

/-- A level that `g` tests, with the branch that is taken. -/
theorem WalkInv.branch (h : WalkInv order f l g c)
    (hne : g.restrict (varAt order l) false ≠ g.restrict (varAt order l) true) {b : Bool}
    (hlive : g.restrict (varAt order l) b ≠ bot) :
    WalkInv order f (l + 1) (g.restrict (varAt order l) b)
      (Function.update c (varAt order l) (some b)) := by
  have hl := cuddI_varAt hord l
  have hnone := h.free _ hl.ge
  refine ⟨fun x => ?_, hlive, fun x y hxy => ?_, fun m hm => ?_, fun v hv => ?_⟩
  · rw [eval_restrict, h.left, put_update_some hnone]
  · rw [eval_restrict, eval_restrict]
    apply h.low
    intro m hm
    by_cases hmv : m = varAt order l
    · rw [hmv, Function.update_self, Function.update_self]
    · rw [Function.update_of_ne hmv, Function.update_of_ne hmv]
      apply hxy
      apply Nat.lt_of_le_of_ne hm
      rintro rfl
      exact hmv (cuddI_injective hord hl.symm)
  · rw [Function.update_of_ne (by rintro rfl; omega)]
    exact h.free m (by omega)
  · have hkeep : (Cube.keep (Function.update c (varAt order l) (some b))
        fun w => cuddI order w < cuddI order v) =
        c.keep fun w => cuddI order w < cuddI order v := by
      funext w
      unfold Cube.keep
      split
      · next hw =>
          have hwv : w ≠ varAt order l := by
            rintro rfl
            omega
          rw [Function.update_of_ne hwv]
      · rfl
    rw [hkeep]
    rcases Nat.eq_or_lt_of_le (Nat.le_of_lt_succ hv) with hvl | hlt
    · obtain rfl : v = varAt order l := cuddI_injective hord (hvl.trans hl.symm)
      rw [Function.update_self]
      refine ⟨fun hc => (Option.some_ne_none _ hc).elim, fun hall => ?_⟩
      refine (hne (restrict_eq_iff.mpr fun x d => ?_)).elim
      have := hall x d
      rwa [h.keep_eq hvl, ← put_update_of_none hnone, ← h.left, ← h.left] at this
    · rw [Function.update_of_ne (by rintro rfl; omega)]
      exact h.none_iff v hlt

theorem walk_path (k : ℕ) : ∀ {l g c}, WalkInv order f l g c →
    DependsOn f.eval { m | cuddI order m < l + k } →
    RootPath (cuddI order) f.eval (walk order k l g c) := by
  induction k with
  | zero =>
      intro l g c h hdep
      have hone : ∀ x, g.eval x = true := by
        obtain ⟨y, hy⟩ := ne_bot_iff.mp h.live
        intro x
        rw [← hy]
        -- `g` reads only levels from `l` on, and `f` only levels above `l`
        calc g.eval x = g.eval (glue (cuddI order) l y x) := h.low fun m hm => (glue_of_le hm).symm
          _ = g.eval y := by
            rw [h.left, h.left]
            apply hdep
            intro m hm
            unfold Cube.put
            rw [glue_of_lt (show cuddI order m < l from hm)]
      refine ⟨fun v => ?_, fun x => ?_⟩
      · by_cases hv : cuddI order v < l
        · exact h.none_iff v hv
        · refine ⟨fun _ x b => ?_, fun _ => h.free v (Nat.le_of_not_lt hv)⟩
          apply hdep
          intro m hm
          exact Function.update_of_ne (by rintro rfl; exact hv hm) _ _
      · show f.eval (c.put x) = true
        rw [← h.left, hone]
  | succ k ih =>
      intro l g c h hdep
      have hdep' : DependsOn f.eval { m | cuddI order m < l + 1 + k } := by
        rw [Nat.add_right_comm]
        exact hdep
      unfold walk
      simp only
      split
      · next heq => exact ih (h.skip hord heq) hdep'
      · next hne =>
          split
          · next h0 => exact ih (h.branch hord hne fun h1 => hne (h0.trans h1.symm)) hdep'
          · next h0 => exact ih (h.branch hord hne h0) hdep'

theorem firstCube_path (f : Robdd) (hf : f ≠ bot) :
    RootPath (cuddI order) f.eval (firstCube order f) := by
  apply walk_path hord
  · refine ⟨fun x => rfl, hf, fun x y hxy => ?_, fun _ _ => rfl, fun v hv =>
      absurd hv (Nat.not_lt_zero _)⟩
    rw [funext fun m => hxy m (Nat.zero_le _)]
  · intro x y hxy
    apply eval_congr
    intro v hv
    apply hxy
    show cuddI order v < 0 + max order.length f.bound
    by_cases hlt : v < order.length
    · have := (cuddI_lt hord).mpr hlt
      omega
    · rw [cuddI_of_ge (Nat.le_of_not_lt hlt)]
      omega

end Walk

/-! ## The cut -/

/-- All assignments that are false from `n` on. -/
def assigns : ℕ → List Assign
  | 0 => [fun _ => false]
  | n + 1 => (assigns n).flatMap fun x => [x, Function.update x n true]

theorem exists_assigns (n : ℕ) (x : Assign) : ∃ a ∈ assigns n, ∀ v < n, a v = x v := by
  induction n with
  | zero => exact ⟨_, List.mem_singleton_self _, fun v hv => absurd hv (Nat.not_lt_zero v)⟩
  | succ n ih =>
      obtain ⟨a, ha, hax⟩ := ih
      have hfalse : ∀ m, ∀ b ∈ assigns m, ∀ v, m ≤ v → b v = false := by
        intro m
        induction m with
        | zero =>
            intro b hb v _
            rw [List.mem_singleton.mp hb]
        | succ m ihm =>
            intro b hb v hv
            obtain ⟨b', hb', hbb⟩ := List.mem_flatMap.mp hb
            rcases List.mem_cons.mp hbb with rfl | hbb
            · exact ihm b hb' v (by omega)
            · rw [List.mem_singleton.mp hbb, Function.update_of_ne (by omega)]
              exact ihm b' hb' v (by omega)
      cases hxn : x n with
      | false =>
          refine ⟨a, List.mem_flatMap.mpr ⟨a, ha, by simp⟩, fun v hv => ?_⟩
          rcases Nat.eq_or_lt_of_le (Nat.le_of_lt_succ hv) with rfl | hlt
          · rw [hxn, hfalse v a ha v le_rfl]
          · exact hax v hlt
      | true =>
          refine ⟨Function.update a n true, List.mem_flatMap.mpr ⟨a, ha, by simp⟩, fun v hv => ?_⟩
          rcases Nat.eq_or_lt_of_le (Nat.le_of_lt_succ hv) with rfl | hlt
          · rw [Function.update_self, hxn]
          · rw [Function.update_of_ne (by omega)]
            exact hax v hlt

/-- The cofactor of `f` below level `L` on the path of `x`. -/
def below (order : List ℕ) (f : Robdd) (L : ℕ) (x : Assign) : Robdd :=
  ofFun f.bound fun z => f.eval (glue (cuddI order) L x z)

def nodePaths (order : List ℕ) (f : Robdd) (L : ℕ) : List (Robdd × Robdd) :=
  (((assigns f.bound).map (below order f L)).dedup).map fun key =>
    (key, ofFun f.bound fun x => below order f L x = key)

theorem eval_below (order : List ℕ) (f : Robdd) (L : ℕ) (x z : Assign) :
    (below order f L x).eval z = f.eval (glue (cuddI order) L x z) := by
  apply eval_ofFun
  intro z z' hz
  apply eval_congr
  intro v hv
  unfold glue
  rw [hz v hv]

theorem below_congr {order : List ℕ} {f : Robdd} {L : ℕ} {x y : Assign}
    (h : ∀ v < f.bound, x v = y v) : below order f L x = below order f L y := by
  refine eval_inj fun z => ?_
  rw [eval_below, eval_below]
  apply eval_congr
  intro v hv
  unfold glue
  rw [h v hv]

theorem eval_path (order : List ℕ) (f : Robdd) (L : ℕ) (key : Robdd) (x : Assign) :
    (ofFun f.bound fun x => below order f L x = key).eval x = true ↔
      ∀ z, key.eval z = f.eval (glue (cuddI order) L x z) := by
  rw [eval_ofFun]
  · rw [decide_eq_true_eq]
    constructor
    · rintro rfl z
      rw [eval_below]
    · intro h
      refine eval_inj fun z => ?_
      rw [eval_below, h]
  · intro x y hxy
    show decide (below order f L x = key) = decide (below order f L y = key)
    rw [below_congr hxy]

theorem nodePaths_nodup (order : List ℕ) (f : Robdd) (L : ℕ) :
    ((nodePaths order f L).map Prod.fst).Nodup := by
  unfold nodePaths
  rw [List.map_map]
  exact (List.nodup_dedup _).map fun _ _ h => h

theorem nodePaths_exact {order : List ℕ} {f : Robdd} {L : ℕ} {e : Robdd × Robdd}
    (he : e ∈ nodePaths order f L) : (∃ x, e.2.eval x = true) ∧
      ∀ x, e.2.eval x = true ↔ ∀ z, e.1.eval z = f.eval (glue (cuddI order) L x z) := by
  obtain ⟨key, hkey, rfl⟩ := List.mem_map.mp he
  obtain ⟨x, -, rfl⟩ := List.mem_map.mp (List.mem_dedup.mp hkey)
  exact ⟨⟨x, (eval_path order f L _ x).mpr fun z => eval_below order f L x z⟩,
    eval_path order f L _⟩

theorem nodePaths_exists (order : List ℕ) (f : Robdd) (L : ℕ) (x : Assign) :
    ∃ e ∈ nodePaths order f L, e.2.eval x = true := by
  obtain ⟨a, ha, hax⟩ := exists_assigns f.bound x
  refine ⟨_, List.mem_map.mpr ⟨below order f L a,
    List.mem_dedup.mpr (List.mem_map.mpr ⟨a, ha, rfl⟩), rfl⟩, ?_⟩
  show (ofFun f.bound fun x => below order f L x = below order f L a).eval x = true
  rw [eval_path, below_congr hax]
  exact eval_below order f L x

/-! ## Encoding -/

/-- The bits of `i` on the variables `vars`. -/
def codeOf (vars : List ℕ) (i : ℕ) : Assign := fun v => i.testBit (vars.idxOf v)

def encoding (funcs : List Robdd) (vars : List ℕ) : Robdd :=
  ofFun (max ((funcs.map bound).foldr max 0) ((vars.map (· + 1)).foldr max 0)) fun x =>
    funcs.zipIdx.any fun p => p.1.eval x && vars.all fun v => x v = codeOf vars p.2 v

theorem le_foldr_max {l : List ℕ} {a : ℕ} (h : a ∈ l) : a ≤ l.foldr max 0 := by
  induction l with
  | nil => exact absurd h List.not_mem_nil
  | cons b l ih =>
      rcases List.mem_cons.mp h with rfl | h
      · exact le_max_left _ _
      · exact (ih h).trans (le_max_right _ _)

theorem eval_encoding (funcs : List Robdd) (vars : List ℕ) (x : Assign) :
    (encoding funcs vars).eval x = true ↔
      ∃ i f, funcs[i]? = some f ∧ f.eval x = true ∧ ∀ v ∈ vars, x v = codeOf vars i v := by
  unfold encoding
  rw [eval_ofFun]
  · simp only [List.any_eq_true, Bool.and_eq_true, List.all_eq_true, decide_eq_true_eq, Prod.exists,
      List.mk_mem_zipIdx_iff_getElem?]
    exact ⟨fun ⟨f, i, hi, h⟩ => ⟨i, f, hi, h⟩, fun ⟨i, f, hi, h⟩ => ⟨f, i, hi, h⟩⟩
  · intro x y hxy
    rw [Bool.eq_iff_iff, List.any_eq_true, List.any_eq_true]
    refine exists_congr fun p => and_congr_right fun hp => ?_
    have hf : p.1.eval x = p.1.eval y := by
      apply eval_congr
      intro v hv
      apply hxy
      have hmem : p.1 ∈ funcs := List.mem_of_getElem? (List.mem_zipIdx_iff_getElem?.mp hp)
      have := le_foldr_max (List.mem_map_of_mem (f := bound) hmem)
      exact lt_max_of_lt_left (Nat.lt_of_lt_of_le hv this)
    have hv : ∀ v ∈ vars, x v = y v := by
      intro v hv
      apply hxy
      have := le_foldr_max (List.mem_map_of_mem (f := (· + 1)) hv)
      exact lt_max_of_lt_right (Nat.lt_of_lt_of_le (Nat.lt_succ_self v) this)
    rw [hf, Bool.and_eq_true, Bool.and_eq_true, List.all_eq_true, List.all_eq_true]
    exact and_congr_right fun _ => forall₂_congr fun v hvv => by rw [hv v hvv]

theorem codeOf_inj {vars : List ℕ} (hnd : vars.Nodup) {n i j : ℕ} (hn : n ≤ 2 ^ vars.length)
    (hi : i < n) (hj : j < n) (h : ∀ v ∈ vars, codeOf vars i v = codeOf vars j v) : i = j := by
  apply Nat.eq_of_testBit_eq
  intro m
  by_cases hm : m < vars.length
  · have := h vars[m] (List.getElem_mem hm)
    unfold codeOf at this
    rwa [hnd.idxOf_getElem] at this
  · have hle : 2 ^ vars.length ≤ 2 ^ m := Nat.pow_le_pow_right (by decide) (by omega)
    rw [Nat.testBit_lt_two_pow (by omega), Nat.testBit_lt_two_pow (by omega)]

/-! ## The manager -/

/-- `Cudd` on reduced ordered diagrams. -/
def cudd : Cudd where
  Node := Robdd
  decEq := inferInstance
  eval := eval
  eval_inj := eval_inj
  b0 := bot
  b1 := ofFun 0 fun _ => true
  cuddNot f := ofFun f.bound fun x => !f.eval x
  bddAnd f g := ofFun (max f.bound g.bound) fun x => f.eval x && g.eval x
  bddOr f g := ofFun (max f.bound g.bound) fun x => f.eval x || g.eval x
  ithVar v := ofFun (v + 1) fun x => x v
  eval_b0 := eval_bot
  eval_b1 := eval_ofFun fun _ _ _ => rfl
  eval_not f := eval_ofFun fun _ _ h => congrArg _ (dependsOn_eval f le_rfl h)
  eval_and f g := eval_ofFun fun _ _ h =>
    congrArg₂ _ (dependsOn_eval f (le_max_left _ _) h) (dependsOn_eval g (le_max_right _ _) h)
  eval_or f g := eval_ofFun fun _ _ h =>
    congrArg₂ _ (dependsOn_eval f (le_max_left _ _) h) (dependsOn_eval g (le_max_right _ _) h)
  eval_ithVar v := eval_ofFun fun _ _ h => h v (Nat.lt_succ_self v)
  cubeArrayToBdd := cube
  eval_cube := eval_cube
  cofactor := cofactor
  eval_cofactor := eval_cofactor
  support := support
  dependsOn_support := dependsOn_support
  support_subset := support_subset
  firstCube := firstCube
  firstCube_path _ f hord hf := firstCube_path hord f hf
  nodePathsUnderCut := nodePaths
  paths_nodup order f L _ _ := nodePaths_nodup order f L
  paths_exact _ _ _ _ _ _ he := nodePaths_exact he
  paths_exists order f L _ _ := nodePaths_exists order f L
  encodingBinary := encoding
  encoding_spec funcs vars hnd hlen :=
    ⟨codeOf vars, fun _ hi _ hj => codeOf_inj hnd hlen hi hj, eval_encoding funcs vars⟩

/-- The outputs of a network, built from their functions. -/
def globalBdds (C : Ntk) : List Robdd :=
  (List.range C.pos.length).map fun o => ofFun C.nPi fun x => C.fn x o

theorem eval_globalBdds {C : Ntk} (hC : C.Ok) (hl : C.latches = []) {o : ℕ} {f : Robdd}
    (hf : (globalBdds C)[o]? = some f) (x : Assign) : f.eval x = C.fn x o := by
  unfold globalBdds at hf
  rw [List.getElem?_map, Option.map_eq_some_iff] at hf
  obtain ⟨o', ho', rfl⟩ := hf
  obtain ⟨-, rfl⟩ := List.getElem?_eq_some_iff.mp ho'
  rw [List.getElem_range]
  exact eval_ofFun (fun _ _ h => hC.fn_congr hl (fun i hi => h i hi) o) x

def abcBdd : AbcBdd where
  toCudd := cudd
  globalBdds := globalBdds
  globalBdds_length C := by
    show (globalBdds C).length = C.pos.length
    simp [globalBdds]
  eval_globalBdds _ hC hl _ _ hf := eval_globalBdds hC hl hf

end ExtFolding.Robdd
