import ExtFolding.Utils.BddUtils
import ExtFolding.Utils.Stg

/-!
# `timeFold::buildTrans`: the transitions of one frame

A state of frame `i` is a class of input prefixes, given by its characteristic function.
One prefix of the class, the first cube of that function, stands for the whole class: the
outputs of the frame and the state entered next are read off after it.
-/

namespace ExtFolding.TimeFold

open ExtFolding.Utils

/-- `st__table`: keys and values in the order of traversal. -/
abbrev Table (dd : Cudd) := List (dd.Node × dd.Node)

section Model

variable (dd : Cudd) (order : List ℕ) (size : ℕ)

/-- The output functions of frame `i` after the inputs in `bCube`. -/
def stateFuncs (pNodeVec : List (Option dd.Node)) (nPo i : ℕ) (bCube : dd.Node) :
    List (Option dd.Node) :=
  (List.range nPo).map fun k =>
    (pNodeVec.getD (i * nPo + k) none).map fun f => dd.cofactor f bCube

/-- The encoding of the off-sets and the on-sets; the vector is negated twice. -/
def encodeOutputs (B : List dd.Node) (nPo : ℕ) (oFuncs : List (Option dd.Node)) :
    List (Option dd.Node) × dd.Node :=
  if oFuncs.any Option.isSome then
    (List.range 2).foldl (fun s k =>
      let oFuncs := bddNotVec dd s.1
      (oFuncs, dd.bddOr s.2 (bddDot dd oFuncs (B.drop (k * nPo))))) (oFuncs, dd.b0)
  else (oFuncs, dd.b1)

/-- The body of the loop over the current states. -/
def stateTrans (pNodeVec : List (Option dd.Node)) (B : List dd.Node) (nPo i : ℕ)
    (nsts : Table dd) (stg : STG) (c : (dd.Node × dd.Node) × ℕ) : Option STG :=
  let cVNode := c.1.2
  let bCube := dd.cubeArrayToBdd size (dd.firstCube order cVNode)
  let (oFuncs, F) := encodeOutputs dd B nPo (stateFuncs dd pNodeVec nPo i bCube)
  nsts.zipIdx.foldlM (fun stg n =>
    let nVNode := n.1.2
    if dd.bddAnd cVNode nVNode ≠ dd.b0 then
      let path := dd.cofactor nVNode bCube
      stg.addOneTrans dd order size (dd.bddAnd F path) oFuncs i c.2 n.2
    else some stg) stg

/-- `buildTrans` -/
def buildTrans (pNodeVec : List (Option dd.Node)) (B : List dd.Node) (nPo i : ℕ)
    (csts nsts : Table dd) (stg : STG) : Option STG :=
  csts.zipIdx.foldlM (stateTrans dd order size pNodeVec B nPo i nsts) stg

end Model

/-! ## States as classes of input prefixes -/

section Classes

variable (dd : Cudd) (order : List ℕ)

/-- The values of a table partition the assignments by their inputs above level `L`. -/
structure TableOk (L : ℕ) (table : Table dd) : Prop where
  dep : ∀ e ∈ table, DependsOn (dd.eval e.2) { m | cuddI order m < L }
  nonzero : ∀ e ∈ table, e.2 ≠ dd.b0
  cover : ∀ x, ∃ (c : ℕ) (e : dd.Node × dd.Node), table[c]? = some e ∧ dd.eval e.2 x = true
  unique : ∀ {x : Assign} {c c' : ℕ} {e e' : dd.Node × dd.Node}, table[c]? = some e →
    table[c']? = some e' →
    dd.eval e.2 x = true → dd.eval e'.2 x = true → c = c'

/-- Prefixes of one class have the same future: outputs and classes of the next frame. -/
structure SameFuture (pNodeVec : List (Option dd.Node)) (nPo i vStart : ℕ)
    (nsts : Table dd) (cV : dd.Node) : Prop where
  outs : ∀ {x y}, dd.eval cV x = true → dd.eval cV y = true →
    (∀ m, vStart ≤ cuddI order m → x m = y m) →
    ∀ k < nPo, ∀ f, pNodeVec.getD (i * nPo + k) none = some f → dd.eval f x = dd.eval f y
  next : ∀ {x y}, dd.eval cV x = true → dd.eval cV y = true →
    (∀ m, vStart ≤ cuddI order m → x m = y m) → ∀ e ∈ nsts, dd.eval e.2 x = dd.eval e.2 y

end Classes

/-! ## The representative prefix -/

section Rep

variable {dd : Cudd} {order : List ℕ} (size : ℕ) {L : ℕ} {cV : dd.Node}

/-- `x` behind the representative prefix of the class. -/
def rep (dd : Cudd) (order : List ℕ) (size : ℕ) (cV : dd.Node) (x : Assign) : Assign :=
  ((dd.firstCube order cV).keep (· < size)).put x

variable (hord : order.Perm (List.range order.length)) (hL : L ≤ order.length)
  (hsize : order.length ≤ size) (hdep : DependsOn (dd.eval cV) { m | cuddI order m < L })
  (hne : cV ≠ dd.b0)
include hord hdep hne

theorem rep_below {m : ℕ} (x : Assign) (hm : L ≤ cuddI order m) :
    rep dd order size cV x m = x m := by
  apply Cube.put_of_none
  unfold Cube.keep
  rw [(dd.firstCube_path order cV hord hne).none_of_dependsOn hdep (Nat.not_lt.mpr hm), ite_self]

include hL hsize

theorem eval_rep (x : Assign) : dd.eval cV (rep dd order size cV x) = true := by
  rw [← (dd.firstCube_path order cV hord hne).one x]
  apply hdep
  intro m hm
  have hlt : m < size := ((cuddI_lt hord).mp (hm.trans_le hL)).trans_le hsize
  unfold rep Cube.put Cube.keep
  rw [if_pos hlt]

end Rep

/-! ## The encoded outputs -/

section Encode

variable {dd : Cudd} {order : List ℕ} {vStart vEnd nB nPo : ℕ} {B : List dd.Node}
  {oFuncs : List (Option dd.Node)}

/-- Distinct codes over variables from level `L` on: each can hold, and no two hold together. -/
structure Codes (dd : Cudd) (order : List ℕ) (L : ℕ) (B : List dd.Node) : Prop where
  below : ∀ g ∈ B, DependsOn (dd.eval g) { m | L ≤ cuddI order m }
  nonzero : ∀ g ∈ B, ∃ z, dd.eval g z = true
  distinct : ∀ {j j' : ℕ} {g g' : dd.Node} {z : Assign}, B[j]? = some g → B[j']? = some g' →
    dd.eval g z = true →
    dd.eval g' z = true → j = j'

/-- The signatures stand below all inputs. -/
theorem codes_of_isSign (hB : IsSign dd order.length nB B) (hvEnd : vEnd ≤ order.length) :
    Codes dd order vEnd B := by
  refine ⟨fun g hg x y hxy => ?_, fun g hg => ?_, fun hj hj' hz hz' => ?_⟩
  · obtain ⟨j, hj⟩ := List.mem_iff_getElem?.mp hg
    rw [Bool.eq_iff_iff, hB.eval j g hj, hB.eval j g hj]
    refine forall₂_congr fun m _ => ?_
    rw [hxy (order.length + m) (by
      show vEnd ≤ cuddI order (order.length + m)
      rw [cuddI_of_ge (Nat.le_add_right _ _)]
      omega)]
  · obtain ⟨j, hj⟩ := List.mem_iff_getElem?.mp hg
    exact ⟨_, (hB.eval j g hj _).mpr (holds_bitCube.mp
      (Cube.holds_put (bitCube order.length nB j) fun _ => false))⟩
  · have hlt : ∀ {k g}, B[k]? = some g → k < 2 ^ nB := fun hk =>
      (List.getElem?_eq_some_iff.mp hk).1.trans_le hB.le
    exact ((hB.eval _ _ hj _).mp hz).eq (hlt hj) (hlt hj') ((hB.eval _ _ hj' _).mp hz')

/-- Negating twice gives the vector back. -/
theorem encodeOutputs_fst (B : List dd.Node) (nPo : ℕ) (oFuncs : List (Option dd.Node)) :
    (encodeOutputs dd B nPo oFuncs).1 = oFuncs := by
  unfold encodeOutputs
  split
  · show bddNotVec dd (bddNotVec dd oFuncs) = oFuncs
    unfold bddNotVec
    rw [List.map_map]
    conv_rhs => rw [← List.map_id oFuncs]
    apply List.map_congr_left
    intro o _
    cases o with
    | none => rfl
    | some f => exact congrArg some (dd.not_not f)
  · rfl

/-- Code `k` goes with the off-set of output `k`, code `nPo + k` with its on-set. -/
theorem eval_encodeOutputs (hany : oFuncs.any Option.isSome = true) (x : Assign) :
    dd.eval (encodeOutputs dd B nPo oFuncs).2 x = true ↔
      ∃ k f g, oFuncs[k]? = some (some f) ∧
        B[if dd.eval f x then nPo + k else k]? = some g ∧ dd.eval g x = true := by
  unfold encodeOutputs
  rw [if_pos hany]
  show dd.eval (dd.bddOr (dd.bddOr dd.b0 (bddDot dd (bddNotVec dd oFuncs) (B.drop (0 * nPo))))
    (bddDot dd (bddNotVec dd (bddNotVec dd oFuncs)) (B.drop (1 * nPo)))) x = true ↔ _
  have hnot : ∀ (v : List (Option dd.Node)) (k : ℕ) (g : dd.Node),
      (bddNotVec dd v)[k]? = some (some g) ↔ ∃ f, v[k]? = some (some f) ∧ g = dd.cuddNot f := by
    intro v k g
    unfold bddNotVec
    rw [List.getElem?_map, Option.map_eq_some_iff]
    constructor
    · rintro ⟨o, ho, hg⟩
      obtain ⟨f, rfl, rfl⟩ := Option.map_eq_some_iff.mp hg
      exact ⟨f, ho, rfl⟩
    · rintro ⟨f, hf, rfl⟩
      exact ⟨some f, hf, rfl⟩
  simp only [dd.eval_or, dd.eval_b0, Bool.or_eq_true, Bool.false_eq_true, false_or, eval_bddDot,
    List.getElem?_drop, hnot, Nat.zero_mul, Nat.zero_add, Nat.one_mul]
  constructor
  · rintro (⟨k, _, g, ⟨f, hf, rfl⟩, hg, hfx, hgx⟩ | ⟨k, _, g, ⟨_, ⟨f, hf, rfl⟩, rfl⟩, hg, hfx, hgx⟩)
    · rw [dd.eval_not, Bool.not_eq_true'] at hfx
      exact ⟨k, f, g, hf, by rw [hfx]; exact hg, hgx⟩
    · rw [dd.not_not] at hfx
      exact ⟨k, f, g, hf, by rw [hfx]; exact hg, hgx⟩
  · rintro ⟨k, f, g, hf, hg, hgx⟩
    cases hfx : dd.eval f x with
    | false =>
        rw [hfx] at hg
        exact Or.inl ⟨k, _, g, ⟨f, hf, rfl⟩, hg, by rw [dd.eval_not, hfx]; rfl, hgx⟩
    | true =>
        rw [hfx] at hg
        exact Or.inr ⟨k, _, g, ⟨_, ⟨f, hf, rfl⟩, rfl⟩, hg, by rw [dd.not_not, hfx], hgx⟩

section Transition

theorem glue_frame {f : dd.Node} (hf : DependsOn (dd.eval f) { m | InFrame order vStart vEnd m })
    (x z : Assign) : dd.eval f (glue (cuddI order) vEnd x z) = dd.eval f x :=
  hf fun _ hm => glue_of_lt hm.2

variable (hB : Codes dd order vEnd B) (hlen : B.length = nPo * 2) (ho : oFuncs.length = nPo)
  (hdep : ∀ f, some f ∈ oFuncs → DependsOn (dd.eval f) { m | InFrame order vStart vEnd m })
include hB hlen ho hdep

omit hlen ho in
/-- Below the frame, the encoded outputs are the codes of the values. -/
theorem eval_encode_glue (hany : oFuncs.any Option.isSome = true) (x z : Assign) :
    dd.eval (encodeOutputs dd B nPo oFuncs).2 (glue (cuddI order) vEnd x z) = true ↔
      ∃ k f g, oFuncs[k]? = some (some f) ∧
        B[if dd.eval f x then nPo + k else k]? = some g ∧ dd.eval g z = true := by
  rw [eval_encodeOutputs hany]
  refine exists_congr fun k => exists_congr fun f => exists_congr fun g =>
    and_congr_right fun hf => ?_
  rw [glue_frame (hdep f (List.mem_of_getElem? hf))]
  refine and_congr_right fun hg => ?_
  rw [hB.below g (List.mem_of_getElem? hg) fun m hm => glue_of_le hm]

omit hB hdep in
/-- A valid output has a code for each of its values. -/
theorem exists_code {k : ℕ} {f : dd.Node} (hk : oFuncs[k]? = some (some f)) (v : Bool) :
    ∃ g, B[if v then nPo + k else k]? = some g := by
  have hlt : k < nPo := ho ▸ (List.getElem?_eq_some_iff.mp hk).1
  refine ⟨_, List.getElem?_eq_getElem ?_⟩
  cases v <;> simp <;> omega

/-- The encoded outputs are never empty, so a transition is active where its path is. -/
theorem active_iff {path : dd.Node}
    (hpath : DependsOn (dd.eval path) { m | InFrame order vStart vEnd m }) (x : Assign) :
    Active dd order vEnd (dd.bddAnd (encodeOutputs dd B nPo oFuncs).2 path) x ↔
      dd.eval path x = true := by
  constructor
  · rintro ⟨z, hz⟩
    rw [dd.eval_and, Bool.and_eq_true, glue_frame hpath] at hz
    exact hz.2
  · intro hx
    cases hany : oFuncs.any Option.isSome with
    | false =>
        refine ⟨x, ?_⟩
        unfold encodeOutputs
        rw [hany, dd.eval_and, glue_frame hpath, hx, Bool.and_true]
        exact dd.eval_b1 _
    | true =>
        obtain ⟨o, ho', hsome⟩ := List.any_eq_true.mp hany
        obtain ⟨f, rfl⟩ := Option.isSome_iff_exists.mp hsome
        obtain ⟨k, hk⟩ := List.mem_iff_getElem?.mp ho'
        obtain ⟨g, hg⟩ := exists_code hlen ho hk (dd.eval f x)
        obtain ⟨z, hz⟩ := hB.nonzero g (List.mem_of_getElem? hg)
        refine ⟨z, ?_⟩
        rw [dd.eval_and, glue_frame hpath, hx, Bool.and_true,
          eval_encode_glue hB hdep hany]
        exact ⟨k, f, g, hk, hg, hz⟩

theorem transOk_encode (hle : vStart ≤ vEnd) {path : dd.Node}
    (hpath : DependsOn (dd.eval path) { m | InFrame order vStart vEnd m }) :
    TransOk dd order vStart vEnd (dd.bddAnd (encodeOutputs dd B nPo oFuncs).2 path) oFuncs := by
  refine ⟨fun x y hxy => ?_, hdep, fun x y hxy hact f hf => ?_⟩
  · have hframe : ∀ {f : dd.Node}, DependsOn (dd.eval f) { m | InFrame order vStart vEnd m } →
        dd.eval f x = dd.eval f y := fun hf => hf fun m hm => hxy m hm.1
    have hF : dd.eval (encodeOutputs dd B nPo oFuncs).2 x =
        dd.eval (encodeOutputs dd B nPo oFuncs).2 y := by
      cases hany : oFuncs.any Option.isSome with
      | false =>
          unfold encodeOutputs
          rw [hany]
          exact (dd.eval_b1 x).trans (dd.eval_b1 y).symm
      | true =>
          rw [Bool.eq_iff_iff, eval_encodeOutputs hany, eval_encodeOutputs hany]
          refine exists_congr fun k => exists_congr fun f => exists_congr fun g =>
            and_congr_right fun hf => ?_
          rw [hframe (hdep f (List.mem_of_getElem? hf))]
          refine and_congr_right fun hg => ?_
          rw [hB.below g (List.mem_of_getElem? hg) fun m hm => hxy m (hle.trans hm)]
    rw [dd.eval_and, dd.eval_and, hF, hframe hpath]
  · -- the code of the value of `f` on `x` shows that value on `y`
    have hany : oFuncs.any Option.isSome = true :=
      List.any_eq_true.mpr ⟨some f, hf, rfl⟩
    have hx := (active_iff hB hlen ho hdep hpath x).mp hact
    obtain ⟨k, hk⟩ := List.mem_iff_getElem?.mp hf
    obtain ⟨g, hg⟩ := exists_code hlen ho hk (dd.eval f x)
    obtain ⟨z, hz⟩ := hB.nonzero g (List.mem_of_getElem? hg)
    have hG := hxy z
    rw [dd.eval_and, dd.eval_and, glue_frame hpath, hx, Bool.and_true,
      (eval_encode_glue hB hdep hany x z).mpr ⟨k, f, g, hk, hg, hz⟩] at hG
    have hGy := (Bool.and_eq_true _ _).mp hG.symm
    obtain ⟨k', f', g', hk', hg', hz'⟩ := (eval_encode_glue hB hdep hany y z).mp hGy.1
    have hlt : k < nPo := ho ▸ (List.getElem?_eq_some_iff.mp hk).1
    have hlt' : k' < nPo := ho ▸ (List.getElem?_eq_some_iff.mp hk').1
    have heq := hB.distinct hg hg' hz hz'
    cases hfx : dd.eval f x <;> cases hfy : dd.eval f' y <;> rw [hfx, hfy] at heq <;> simp at heq
    · subst heq
      rw [hk] at hk'
      cases hk'
      exact hfy.symm
    · omega
    · omega
    · subst heq
      rw [hk] at hk'
      cases hk'
      exact hfy.symm

end Transition

end Encode

/-! ## The rows of a state -/

/-- The inputs of frame `i` are on the levels from `vStart` to `vEnd`, and the two tables are
the states before and after the frame. -/
structure FrameClasses (dd : Cudd) (order : List ℕ) (size : ℕ) (pNodeVec : List (Option dd.Node))
    (B : List dd.Node) (nB nPo i vStart vEnd : ℕ) (csts nsts : Table dd) : Prop where
  perm : order.Perm (List.range order.length)
  le_size : order.length ≤ size
  le : vStart ≤ vEnd
  inside : vEnd ≤ order.length
  sign : IsSign dd order.length nB B
  length : B.length = nPo * 2
  cur : TableOk dd order vStart csts
  nxt : TableOk dd order vEnd nsts
  future : ∀ e ∈ csts, SameFuture dd order pNodeVec nPo i vStart nsts e.2

/-- What `buildTrans` relies on in frame `i`. -/
structure FrameOk (dd : Cudd) (order : List ℕ) (size : ℕ) (pNodeVec : List (Option dd.Node))
    (B : List dd.Node) (nB nPo i vStart vEnd : ℕ) (csts nsts : Table dd) : Prop
    extends FrameClasses dd order size pNodeVec B nB nPo i vStart vEnd csts nsts where
  causal : ∀ k < nPo, ∀ f, pNodeVec.getD (i * nPo + k) none = some f →
    DependsOn (dd.eval f) { m | cuddI order m < vEnd }

/-- The output characters of frame `i` on `x`. -/
def frameChars (dd : Cudd) (pNodeVec : List (Option dd.Node)) (nPo i : ℕ) (x : Assign) :
    List Char :=
  (List.range nPo).map fun k => match pNodeVec.getD (i * nPo + k) none with
    | some f => bitChar (dd.eval f x)
    | none => '-'

section State

variable {dd : Cudd} {order : List ℕ} {size nB nPo i vStart vEnd : ℕ}
  {pNodeVec : List (Option dd.Node)} {B : List dd.Node} {csts nsts : Table dd}
  {e n : dd.Node × dd.Node} {x y : Assign}

theorem mem_stateFuncs {bCube g : dd.Node} :
    some g ∈ stateFuncs dd pNodeVec nPo i bCube ↔
      ∃ k < nPo, ∃ f, pNodeVec.getD (i * nPo + k) none = some f ∧ dd.cofactor f bCube = g := by
  unfold stateFuncs
  simp only [List.mem_map, List.mem_range, Option.map_eq_some_iff]

section

variable (h : FrameClasses dd order size pNodeVec B nB nPo i vStart vEnd csts nsts) (he : e ∈ csts)
include h he

theorem FrameClasses.rep_below (x : Assign) {m : ℕ} (hm : vStart ≤ cuddI order m) :
    rep dd order size e.2 x m = x m :=
  TimeFold.rep_below size h.perm (h.cur.dep e he) (h.cur.nonzero e he) x hm

theorem FrameClasses.eval_rep (x : Assign) : dd.eval e.2 (rep dd order size e.2 x) = true :=
  TimeFold.eval_rep size h.perm (h.le.trans h.inside) h.le_size (h.cur.dep e he)
    (h.cur.nonzero e he) x

/-- What is read off behind the representative prefix holds for the whole class. -/
theorem FrameClasses.rep_out (hx : dd.eval e.2 x = true) {k : ℕ} (hk : k < nPo) {f : dd.Node}
    (hf : pNodeVec.getD (i * nPo + k) none = some f) :
    dd.eval f (rep dd order size e.2 x) = dd.eval f x :=
  (h.future e he).outs (h.eval_rep he x) hx (fun _ hm => h.rep_below he x hm) k hk f hf

theorem FrameClasses.rep_next (hx : dd.eval e.2 x = true) (hn : n ∈ nsts) :
    dd.eval n.2 (rep dd order size e.2 x) = dd.eval n.2 x :=
  (h.future e he).next (h.eval_rep he x) hx (fun _ hm => h.rep_below he x hm) n hn

/-- A function of the inputs up to `vEnd` that does not tell members of the class apart reads
only the inputs of the frame behind the representative prefix. -/
theorem FrameClasses.dependsOn_rep {f : dd.Node}
    (hdep : DependsOn (dd.eval f) { m | cuddI order m < vEnd })
    (hclass : ∀ {x y}, dd.eval e.2 x = true → dd.eval e.2 y = true →
      (∀ m, vStart ≤ cuddI order m → x m = y m) → dd.eval f x = dd.eval f y) :
    DependsOn (fun x => dd.eval f (rep dd order size e.2 x))
      { m | InFrame order vStart vEnd m } := by
  intro x y hxy
  calc dd.eval f (rep dd order size e.2 x)
      = dd.eval f (rep dd order size e.2 (glue (cuddI order) vEnd x y)) := by
        apply hdep
        intro m hm
        by_cases hs : vStart ≤ cuddI order m
        · rw [h.rep_below he _ hs, h.rep_below he _ hs, glue_of_lt hm]
        · unfold rep Cube.put
          rw [glue_of_lt hm]
    _ = dd.eval f (rep dd order size e.2 y) := by
        apply hclass (h.eval_rep he _) (h.eval_rep he _)
        intro m hm
        rw [h.rep_below he _ hm, h.rep_below he _ hm]
        unfold glue
        split
        · next hlt => exact hxy m ⟨hm, hlt⟩
        · rfl

theorem FrameClasses.path_dep (hn : n ∈ nsts) :
    DependsOn (dd.eval (dd.cofactor n.2 (dd.cubeArrayToBdd size (dd.firstCube order e.2))))
      { m | InFrame order vStart vEnd m } := by
  have hdep := h.dependsOn_rep he (h.nxt.dep n hn)
    fun hx hy hxy => (h.future e he).next hx hy hxy n hn
  intro x y hxy
  rw [dd.eval_cofactor, dd.eval_cofactor]
  exact hdep hxy

theorem FrameClasses.outChars_eq (hx : dd.eval e.2 x = true) :
    outChars dd (stateFuncs dd pNodeVec nPo i
      (dd.cubeArrayToBdd size (dd.firstCube order e.2))) x = frameChars dd pNodeVec nPo i x := by
  unfold outChars stateFuncs frameChars
  rw [List.map_map]
  apply List.map_congr_left
  intro k hk
  show (match Option.map _ (pNodeVec.getD (i * nPo + k) none) with
    | some f => bitChar (dd.eval f x)
    | none => '-') = _
  cases hf : pNodeVec.getD (i * nPo + k) none with
  | none => rfl
  | some f =>
      show bitChar (dd.eval (dd.cofactor f _) x) = bitChar (dd.eval f x)
      rw [dd.eval_cofactor]
      exact congrArg bitChar (h.rep_out he hx (List.mem_range.mp hk) hf)

end

theorem FrameOk.stateFuncs_dep
    (h : FrameOk dd order size pNodeVec B nB nPo i vStart vEnd csts nsts) (he : e ∈ csts)
      (g : dd.Node)
    (hg : some g ∈ stateFuncs dd pNodeVec nPo i
      (dd.cubeArrayToBdd size (dd.firstCube order e.2))) :
    DependsOn (dd.eval g) { m | InFrame order vStart vEnd m } := by
  obtain ⟨k, hk, f, hf, rfl⟩ := mem_stateFuncs.mp hg
  have hdep := h.dependsOn_rep he (h.causal k hk f hf)
    fun hx hy hxy => (h.future e he).outs hx hy hxy k hk f hf
  intro x y hxy
  rw [dd.eval_cofactor, dd.eval_cofactor]
  exact hdep hxy

end State

section Loops

variable {dd : Cudd} {order : List ℕ} {size nB nPo i : ℕ} {pNodeVec : List (Option dd.Node)}
  {B : List dd.Node} {csts nsts : Table dd} {stg : STG}

/-- The rows of state `c` towards the next states in `pre`. -/
structure StateRows (dd : Cudd) (order : List ℕ) (pNodeVec : List (Option dd.Node)) (nPo i : ℕ)
    (stg : STG) (e : dd.Node × dd.Node) (c : ℕ) (pre : List ((dd.Node × dd.Node) × ℕ))
    (rows : List TransRow) : Prop where
  names : ∀ r ∈ rows, r.cst = stName i c ∧ ∃ n ∈ pre, r.nst = nstName stg.nTimeFrame i n.2
  columns : ∀ r ∈ rows, Column stg.nPi r.input ∧ Column nPo r.output
  hit : ∀ {x v}, Slice order (i * stg.nPi) ((i + 1) * stg.nPi) x v → dd.eval e.2 x = true →
    ∀ n ∈ pre, dd.eval n.1.2 x = true →
      ∃ r, rows.filter (fun r => accepts r.input v) = [r] ∧
        r.nst = nstName stg.nTimeFrame i n.2 ∧ r.output = frameChars dd pNodeVec nPo i x
  miss : ∀ {x v}, Slice order (i * stg.nPi) ((i + 1) * stg.nPi) x v → dd.eval e.2 x = true →
    (∀ n ∈ pre, dd.eval n.1.2 x = false) → rows.filter (fun r => accepts r.input v) = []

section Step

variable {e n : dd.Node × dd.Node} {c k : ℕ} {pre : List ((dd.Node × dd.Node) × ℕ)}
  {rows rows' : List TransRow}

/-- No transition leads to a next state without common inputs. -/
theorem StateRows.skip (h : StateRows dd order pNodeVec nPo i stg e c pre rows)
    (hno : ∀ {x}, dd.eval e.2 x = true → dd.eval n.2 x = false) :
    StateRows dd order pNodeVec nPo i stg e c (pre ++ [(n, k)]) rows := by
  refine ⟨fun r hr => ?_, h.columns, fun hv hx n' hn' hx' => ?_,
    fun hv hx hmiss => h.miss hv hx fun n' hn' => hmiss n' (List.mem_append_left _ hn')⟩
  · obtain ⟨hcst, n', hn', hnst⟩ := h.names r hr
    exact ⟨hcst, n', List.mem_append_left _ hn', hnst⟩
  · rcases List.mem_append.mp hn' with hn' | hn'
    · exact h.hit hv hx n' hn' hx'
    · obtain rfl : n' = (n, k) := by simpa using hn'
      rw [hno hx] at hx'
      exact absurd hx' Bool.false_ne_true

/-- The rows towards one more next state: one row for each of its inputs, none for the others. -/
structure NextRows (dd : Cudd) (order : List ℕ) (pNodeVec : List (Option dd.Node)) (nPo i : ℕ)
    (stg : STG) (e n : dd.Node × dd.Node) (c k : ℕ) (rows : List TransRow) : Prop where
  names : ∀ r ∈ rows, r.cst = stName i c ∧ r.nst = nstName stg.nTimeFrame i k
  columns : ∀ r ∈ rows, Column stg.nPi r.input ∧ Column nPo r.output
  active : ∀ {x v}, Slice order (i * stg.nPi) ((i + 1) * stg.nPi) x v → dd.eval e.2 x = true →
    dd.eval n.2 x = true → ∃ r, rows.filter (fun r => accepts r.input v) = [r] ∧
      r.output = frameChars dd pNodeVec nPo i x
  inactive : ∀ {x v}, Slice order (i * stg.nPi) ((i + 1) * stg.nPi) x v → dd.eval e.2 x = true →
    dd.eval n.2 x = false → rows.filter (fun r => accepts r.input v) = []

theorem StateRows.append (h : StateRows dd order pNodeVec nPo i stg e c pre rows)
    (h' : NextRows dd order pNodeVec nPo i stg e n c k rows')
    (hone : ∀ {x}, dd.eval n.2 x = true → ∀ n' ∈ pre, dd.eval n'.1.2 x = false) :
    StateRows dd order pNodeVec nPo i stg e c (pre ++ [(n, k)]) (rows ++ rows') := by
  refine ⟨fun r hr => ?_, fun r hr => ?_, fun hv hx n' hn' hx' => ?_, fun hv hx hmiss => ?_⟩
  · rcases List.mem_append.mp hr with hr | hr
    · obtain ⟨hcst, n', hn', hnst⟩ := h.names r hr
      exact ⟨hcst, n', List.mem_append_left _ hn', hnst⟩
    · obtain ⟨hcst, hnst⟩ := h'.names r hr
      exact ⟨hcst, (n, k), by simp, hnst⟩
  · exact (List.mem_append.mp hr).elim (h.columns r) (h'.columns r)
  · rw [List.filter_append]
    rcases List.mem_append.mp hn' with hn' | hn'
    · obtain ⟨r, hr, hnst, hout⟩ := h.hit hv hx n' hn' hx'
      refine ⟨r, ?_, hnst, hout⟩
      rw [hr, h'.inactive hv hx, List.append_nil]
      -- at most one of the next states contains the input
      by_contra hnx
      rw [hone (Bool.not_eq_false _ ▸ hnx) n' hn'] at hx'
      exact Bool.false_ne_true hx'
    · obtain rfl : n' = (n, k) := by simpa using hn'
      obtain ⟨r, hr, hout⟩ := h'.active hv hx hx'
      have hmem : r ∈ rows' := List.mem_of_mem_filter (hr ▸ List.mem_singleton_self r)
      refine ⟨r, ?_, (h'.names r hmem).2, hout⟩
      rw [h.miss hv hx (hone hx'), hr, List.nil_append]
  · rw [List.filter_append, h.miss hv hx fun n' hn' => hmiss n' (List.mem_append_left _ hn'),
      h'.inactive hv hx (hmiss (n, k) (by simp)), List.append_nil]

end Step

/-- The rows of `addOneTrans` for one state and one next state. -/
theorem FrameOk.nextRows
    (h : FrameOk dd order size pNodeVec B nB nPo i (i * stg.nPi) ((i + 1) * stg.nPi) csts nsts)
    {e n : dd.Node × dd.Node} (he : e ∈ csts) (hn : n ∈ nsts) (c k : ℕ) (transs : List TransRow) :
    ∃ rows, ({ stg with transs := transs } : STG).addOneTrans dd order size
        (dd.bddAnd (encodeOutputs dd B nPo (stateFuncs dd pNodeVec nPo i
          (dd.cubeArrayToBdd size (dd.firstCube order e.2)))).2
          (dd.cofactor n.2 (dd.cubeArrayToBdd size (dd.firstCube order e.2))))
        (stateFuncs dd pNodeVec nPo i (dd.cubeArrayToBdd size (dd.firstCube order e.2))) i c k =
        some { stg with transs := transs ++ rows } ∧
      NextRows dd order pNodeVec nPo i stg e n c k rows := by
  have hsize : ∀ m, InFrame order (i * stg.nPi) ((i + 1) * stg.nPi) m → m < size := by
    intro m hm
    exact ((cuddI_lt h.perm).mp (hm.2.trans_le h.inside)).trans_le h.le_size
  have hlen : (stateFuncs dd pNodeVec nPo i
      (dd.cubeArrayToBdd size (dd.firstCube order e.2))).length = nPo := by simp [stateFuncs]
  have hcodes := codes_of_isSign h.sign h.inside
  have hact : ∀ {x}, dd.eval e.2 x = true → (Active dd order ((i + 1) * stg.nPi)
      (dd.bddAnd (encodeOutputs dd B nPo (stateFuncs dd pNodeVec nPo i
        (dd.cubeArrayToBdd size (dd.firstCube order e.2)))).2
        (dd.cofactor n.2 (dd.cubeArrayToBdd size (dd.firstCube order e.2)))) x ↔
      dd.eval n.2 x = true) := by
    intro x hx
    rw [active_iff hcodes h.length hlen (h.stateFuncs_dep he) (h.path_dep he hn), dd.eval_cofactor]
    exact Bool.eq_iff_iff.mp (h.rep_next he hx hn)
  obtain ⟨rows, hrun, hrows⟩ := STG.addOneTrans_spec size h.perm { stg with transs := transs } hsize
    (transOk_encode hcodes h.length hlen (h.stateFuncs_dep he) h.le (h.path_dep he hn)) c k
  refine ⟨rows, hrun, hrows.names, fun r hr => ?_, fun {x v} hv hx hnx => ?_,
    fun {x v} hv hx hnx => ?_⟩
  · obtain ⟨hin, hout⟩ := hrows.columns r hr
    rw [← Nat.sub_mul, Nat.add_sub_cancel_left, Nat.one_mul] at hin
    rw [hlen] at hout
    exact ⟨hin, hout⟩
  · obtain ⟨r, hr, hout⟩ := hrows.active x v hv ((hact hx).mpr hnx)
    exact ⟨r, hr, hout.trans (h.outChars_eq he hx)⟩
  · refine hrows.inactive x v hv fun ha => ?_
    rw [(hact hx).mp ha] at hnx
    exact Bool.false_ne_true hnx.symm

/-- The transitions of one state: exactly one row for every input. -/
theorem stateTrans_spec
    (h : FrameOk dd order size pNodeVec B nB nPo i (i * stg.nPi) ((i + 1) * stg.nPi) csts nsts)
    {e : dd.Node × dd.Node} {c : ℕ} (he : e ∈ csts) (transs : List TransRow) :
    ∃ rows, stateTrans dd order size pNodeVec B nPo i nsts { stg with transs := transs } (e, c) =
        some { stg with transs := transs ++ rows } ∧
      StateRows dd order pNodeVec nPo i stg e c nsts.zipIdx rows := by
  obtain ⟨stg', hrun, rows, rfl, hrows⟩ := foldlM_some (l := nsts.zipIdx)
    (b := { stg with transs := transs })
    (f := fun (s : STG) n =>
      if dd.bddAnd e.2 n.1.2 ≠ dd.b0 then
        s.addOneTrans dd order size (dd.bddAnd (encodeOutputs dd B nPo (stateFuncs dd pNodeVec nPo i
          (dd.cubeArrayToBdd size (dd.firstCube order e.2)))).2
          (dd.cofactor n.1.2 (dd.cubeArrayToBdd size (dd.firstCube order e.2))))
          (stateFuncs dd pNodeVec nPo i (dd.cubeArrayToBdd size (dd.firstCube order e.2)))
          i c n.2
      else some s)
    (fun pre s => ∃ rows, s = { stg with transs := transs ++ rows } ∧
      StateRows dd order pNodeVec nPo i stg e c pre rows) (by
    rintro pre ⟨n, k⟩ post s hl ⟨rows, rfl, hI⟩
    obtain ⟨hk, hpre⟩ := zipIdx_split hl
    by_cases hpath : dd.bddAnd e.2 n.2 = dd.b0
    · refine ⟨_, if_neg (not_not.mpr hpath), rows, rfl, hI.skip fun {x} hx => ?_⟩
      have := dd.eval_and e.2 n.2 x
      rw [hpath, dd.eval_b0, hx, Bool.true_and] at this
      exact this.symm
    · obtain ⟨rows', hrun, hrows'⟩ :=
        h.nextRows he (List.mem_of_getElem? hk) c k (transs ++ rows)
      refine ⟨_, (if_pos hpath).trans hrun, rows ++ rows', by rw [List.append_assoc],
        hI.append hrows' ?_⟩
      rintro x hx ⟨n', k'⟩ hn'
      by_contra hne
      obtain ⟨hlt, hk'⟩ := hpre n' k' hn'
      exact hlt.ne (h.nxt.unique hk' hk (Bool.not_eq_false _ ▸ hne) hx))
    ⟨[], by rw [List.append_nil], fun _ hr => absurd hr List.not_mem_nil,
      fun _ hr => absurd hr List.not_mem_nil, fun _ _ n hn => absurd hn List.not_mem_nil,
      fun _ _ _ => rfl⟩
  refine ⟨rows, ?_, hrows⟩
  unfold stateTrans
  simp only [encodeOutputs_fst]
  exact hrun

/-- The rows of frame `i`: for every input, the state it is in has exactly one matching row,
which leads to the state of the input in the next frame. -/
structure FrameRows (dd : Cudd) (order : List ℕ) (pNodeVec : List (Option dd.Node)) (nPo i : ℕ)
    (csts nsts : Table dd) (stg : STG) (rows : List TransRow) : Prop where
  names : ∀ r ∈ rows, ∃ c < csts.length, ∃ n < nsts.length,
    r.cst = stName i c ∧ r.nst = nstName stg.nTimeFrame i n
  columns : ∀ r ∈ rows, Column stg.nPi r.input ∧ Column nPo r.output
  step : ∀ {x v}, Slice order (i * stg.nPi) ((i + 1) * stg.nPi) x v → ∀ c e, csts[c]? = some e →
    dd.eval e.2 x = true → ∃ (n : ℕ) (e' : dd.Node × dd.Node) (r : TransRow),
      nsts[n]? = some e' ∧ dd.eval e'.2 x = true ∧
      rows.filter (fun r => r.cst = stName i c ∧ accepts r.input v) = [r] ∧
      r.nst = nstName stg.nTimeFrame i n ∧ r.output = frameChars dd pNodeVec nPo i x

/-- The rows are about the shape of the graph only. -/
theorem FrameRows.congr {stg' : STG} {rows : List TransRow}
    (h : FrameRows dd order pNodeVec nPo i csts nsts stg rows) (hPi : stg'.nPi = stg.nPi)
    (hT : stg'.nTimeFrame = stg.nTimeFrame) :
    FrameRows dd order pNodeVec nPo i csts nsts stg' rows := by
  obtain ⟨hnames, hcols, hstep⟩ := h
  rw [← hPi, ← hT] at hstep
  rw [← hT] at hnames
  rw [← hPi] at hcols
  exact ⟨hnames, hcols, hstep⟩

theorem filter_state {rows : List TransRow} {s : List Char} {v : ℕ → Bool}
    (h : ∀ r ∈ rows, r.cst = s) :
    rows.filter (fun r => r.cst = s ∧ accepts r.input v) =
      rows.filter fun r => accepts r.input v := by
  apply List.filter_congr
  intro r hr
  simp [h r hr]

theorem filter_other {rows : List TransRow} {s : List Char} {v : ℕ → Bool}
    (h : ∀ r ∈ rows, r.cst ≠ s) :
    rows.filter (fun r => r.cst = s ∧ accepts r.input v) = [] := by
  rw [List.filter_eq_nil_iff]
  intro r hr
  simp [h r hr]

theorem buildTrans_spec
    (h : FrameOk dd order size pNodeVec B nB nPo i (i * stg.nPi) ((i + 1) * stg.nPi) csts nsts) :
    ∃ rows, buildTrans dd order size pNodeVec B nPo i csts nsts stg =
        some { stg with transs := stg.transs ++ rows } ∧
      FrameRows dd order pNodeVec nPo i csts nsts stg rows := by
  obtain ⟨stg', hrun, rows, rfl, hnames, hcols, hstep⟩ := foldlM_some (l := csts.zipIdx) (b := stg)
    (f := stateTrans dd order size pNodeVec B nPo i nsts)
    (fun pre s => ∃ rows, s = { stg with transs := stg.transs ++ rows } ∧
      (∀ r ∈ rows, ∃ e c, (e, c) ∈ pre ∧ r.cst = stName i c ∧
        ∃ n < nsts.length, r.nst = nstName stg.nTimeFrame i n) ∧
      (∀ r ∈ rows, Column stg.nPi r.input ∧ Column nPo r.output) ∧
      ∀ {x v}, Slice order (i * stg.nPi) ((i + 1) * stg.nPi) x v → ∀ e c, (e, c) ∈ pre →
        dd.eval e.2 x = true → ∃ (n : ℕ) (e' : dd.Node × dd.Node) (r : TransRow),
          nsts[n]? = some e' ∧ dd.eval e'.2 x = true ∧
          rows.filter (fun r => r.cst = stName i c ∧ accepts r.input v) = [r] ∧
          r.nst = nstName stg.nTimeFrame i n ∧ r.output = frameChars dd pNodeVec nPo i x) (by
    rintro pre ⟨e, c⟩ post s hl ⟨rows, rfl, hnames, hcols, hstep⟩
    obtain ⟨hc, hpre⟩ := zipIdx_split hl
    obtain ⟨rows', hrun, hrows'⟩ := stateTrans_spec h (c := c) (List.mem_of_getElem? hc)
      (stg.transs ++ rows)
    refine ⟨_, hrun, rows ++ rows', by rw [List.append_assoc], fun r hr => ?_,
      fun r hr => (List.mem_append.mp hr).elim (hcols r) (hrows'.columns r), ?_⟩
    · rcases List.mem_append.mp hr with hr | hr
      · obtain ⟨e', c', hmem, hrest⟩ := hnames r hr
        exact ⟨e', c', List.mem_append_left _ hmem, hrest⟩
      · obtain ⟨hcst, n, hn, hnst⟩ := hrows'.names r hr
        exact ⟨e, c, by simp, hcst, n.2, lt_length_of_zipIdx hn, hnst⟩
    · intro x v hv e' c' hmem hx
      rw [List.filter_append]
      rcases List.mem_append.mp hmem with hmem | hmem
      · obtain ⟨n, e'', r, hn, hx', hr, hrest⟩ := hstep hv e' c' hmem hx
        refine ⟨n, e'', r, hn, hx', ?_, hrest⟩
        rw [hr, filter_other fun r' hr' => ?_, List.append_nil]
        rw [(hrows'.names r' hr').1]
        intro heq
        have := (stName_inj heq).2
        have := (hpre e' c' hmem).1
        omega
      · obtain ⟨rfl, rfl⟩ : e' = e ∧ c' = c := by simpa using hmem
        obtain ⟨n, e'', hn, hx'⟩ := h.nxt.cover x
        have hzip : (e'', n) ∈ nsts.zipIdx := List.mk_mem_zipIdx_iff_getElem?.mpr hn
        obtain ⟨r, hr, hnst, hout⟩ := hrows'.hit hv hx (e'', n) hzip hx'
        refine ⟨n, e'', r, hn, hx', ?_, hnst, hout⟩
        rw [filter_other fun r' hr' => ?_, filter_state fun r' hr' => (hrows'.names r' hr').1,
          hr, List.nil_append]
        obtain ⟨e₁, c₁, hmem₁, hcst, -⟩ := hnames r' hr'
        rw [hcst]
        intro heq
        have := (stName_inj heq).2
        have := (hpre e₁ c₁ hmem₁).1
        omega)
    ⟨[], by rw [List.append_nil], fun _ hr => absurd hr List.not_mem_nil,
      fun _ hr => absurd hr List.not_mem_nil, fun _ _ _ hmem => absurd hmem List.not_mem_nil⟩
  refine ⟨rows, hrun, fun r hr => ?_, hcols, fun hv c e hc hx => ?_⟩
  · obtain ⟨e, c, hmem, hcst, n, hn, hnst⟩ := hnames r hr
    exact ⟨c, lt_length_of_zipIdx hmem, n, hn, hcst, hnst⟩
  · exact hstep hv e c (List.mk_mem_zipIdx_iff_getElem?.mpr hc) hx

end Loops

end ExtFolding.TimeFold
