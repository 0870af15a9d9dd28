import ExtFolding.Lib.Loop
import ExtFolding.Lib.Text
import ExtFolding.Utils.Cudd

/-!
# `utils/stg.cpp`: state transition graphs and `STG::addOneTrans`

A row of the graph has an input cube, two state names and the output characters.
`addOneTrans` decomposes a function `G` of the inputs of one frame and of signature
variables into rows: each root-to-1 path of what is left of `G` gives one row, and the
inputs that the row covers are removed from `G`.
-/

namespace ExtFolding.Utils

/-- `cube[m] + '0'` -/
def bitChar (b : Bool) : Char := if b then '1' else '0'

/-- A column of `n` characters `0`, `1` and `-`. -/
def Column (n : ℕ) (s : List Char) : Prop :=
  s.length = n ∧ ∀ c ∈ s, c = '0' ∨ c = '1' ∨ c = '-'

instance (n : ℕ) (s : List Char) : Decidable (Column n s) := inferInstanceAs (Decidable (_ ∧ _))

theorem bitChar_cases (b : Bool) : bitChar b = '0' ∨ bitChar b = '1' ∨ bitChar b = '-' := by
  cases b
  · exact Or.inl rfl
  · exact Or.inr (Or.inl rfl)

/-- The name `S<i>_<cnt>` of a state. -/
def stName (i cnt : ℕ) : List Char :=
  'S' :: Nat.toDigits 10 i ++ '_' :: Nat.toDigits 10 cnt

/-- The name of the state after frame `i`. -/
def nstName (nTimeFrame i nCnt : ℕ) : List Char :=
  if i = nTimeFrame - 1 then ['*'] else stName (i + 1) nCnt

/-- The columns of a row. -/
structure TransRow where
  input : List Char
  cst : List Char
  nst : List Char
  output : List Char
deriving DecidableEq

structure STG where
  nCi : ℕ
  nCo : ℕ
  nPi : ℕ
  nPo : ℕ
  nTimeFrame : ℕ
  nSts : ℕ
  transs : List TransRow

/-- State names tell frame and counter: the digits have no underscore. -/
theorem stName_inj {i c i' c' : ℕ} (h : stName i c = stName i' c') : i = i' ∧ c = c' := by
  have hsplit : ∀ n (l : List Char),
      (Nat.toDigits 10 n ++ '_' :: l).takeWhile (· ≠ '_') = Nat.toDigits 10 n := by
    intro n l
    rw [List.takeWhile_append_of_pos, List.takeWhile_cons_of_neg (by simp), List.append_nil]
    intro ch hch
    rw [decide_eq_true_eq]
    rintro rfl
    exact Nat.underscore_not_in_toDigits hch
  have htail : Nat.toDigits 10 i ++ '_' :: Nat.toDigits 10 c =
      Nat.toDigits 10 i' ++ '_' :: Nat.toDigits 10 c' := List.tail_eq_of_cons_eq h
  have hi : Nat.toDigits 10 i = Nat.toDigits 10 i' := by
    rw [← hsplit i (Nat.toDigits 10 c), htail, hsplit]
  rw [hi] at htail
  exact ⟨Text.toDigits_inj hi,
    Text.toDigits_inj (List.tail_eq_of_cons_eq (List.append_cancel_left htail))⟩

/-- A state name has digits, the letter and the underscore. -/
theorem forall_mem_stName {P : Char → Prop} (hS : P 'S') (hu : P '_') (hd : ∀ ch, ch.isDigit → P ch)
    (i c : ℕ) : ∀ ch ∈ stName i c, P ch := by
  have hdig : ∀ n, ∀ ch ∈ Nat.toDigits 10 n, P ch := fun n ch hch =>
    hd ch ((Text.numeral_toDigits n).2.1 ch hch)
  intro ch hch
  rcases List.mem_cons.mp hch with rfl | hch
  · exact hS
  rcases List.mem_append.mp hch with hch | hch
  · exact hdig i ch hch
  rcases List.mem_cons.mp hch with rfl | hch
  · exact hu
  · exact hdig c ch hch

/-- At most one of the elements that pass is left. -/
theorem not_both_of_filter {α : Type} {l : List α} {p : α → Bool} {a b : α}
    (hsub : [a, b].Sublist l)
    (h : (l.filter p).length ≤ 1) : ¬ (p a = true ∧ p b = true) := by
  rintro ⟨ha, hb⟩
  have hlen := (hsub.filter p).length_le
  rw [List.filter_eq_self.mpr (by simp [ha, hb])] at hlen
  exact absurd (hlen.trans h) (by simp)

/-! ## Running a graph -/

/-- The input column matches the pins `v`. -/
def accepts (input : List Char) (v : ℕ → Bool) : Bool :=
  input.zipIdx.all fun p => p.1 = '-' ∨ p.1 = bitChar (v p.2)

namespace STG

/-- The rows of state `s` that match the pins `v`. -/
def matching (stg : STG) (s : List Char) (v : ℕ → Bool) : List TransRow :=
  stg.transs.filter fun r => r.cst = s ∧ accepts r.input v

/-- The state after `t` steps from `S0_0`, where `inp t` are the pins in step `t`; `none` when
in some step not exactly one row matches. -/
def stateAt (stg : STG) (inp : ℕ → ℕ → Bool) : ℕ → Option (List Char)
  | 0 => some (stName 0 0)
  | t + 1 => do
      let s ← stateAt stg inp t
      match stg.matching s (inp t) with
      | [r] => some r.nst
      | _ => none

end STG

/-! ## `addOneTrans` -/

section Model

variable (dd : Cudd) (order : List ℕ) (size : ℕ)

/-- The loop over the variables: the characters of the input column, and the array with the
literals of the frame. -/
def inputBits (nPi vStart vEnd : ℕ) (cube : Cube) : List Char × Cube :=
  (List.range size).foldl (fun s m =>
    let n := cuddI order m
    match s.2 m with
    | some b =>
        if vStart ≤ n ∧ n < vEnd then (s.1.set (n - vStart) (bitChar b), s.2)
        else (s.1, Function.update s.2 m none)
    | none => (s.1, Function.update s.2 m none)) (List.replicate nPi '-', cube)

/-- One character of the output column, with the assertion that the output is constant on the
cube `tmp1`. -/
def outputBit (tmp1 : dd.Node) : Option dd.Node → Option Char
  | none => some '-'
  | some f =>
      let tmp2 := dd.cofactor f tmp1
      if tmp2 = dd.b1 ∨ tmp2 = dd.cuddNot dd.b1 then some (if tmp2 = dd.b0 then '0' else '1')
      else none

/-- The loop `while(G != b0)` with a bound on the number of rounds. -/
def transLoop (nPi vStart vEnd : ℕ) (oFuncs : List (Option dd.Node)) (cst nst : List Char) :
    ℕ → dd.Node → List TransRow → Option (List TransRow)
  | 0, _, _ => none
  | fuel + 1, G, transs =>
      if G = dd.b0 then some transs
      else do
        let (bits, cube) := inputBits order size nPi vStart vEnd (dd.firstCube order G)
        let tmp1 := dd.cubeArrayToBdd size cube
        let outs ← oFuncs.mapM (outputBit dd tmp1)
        transLoop nPi vStart vEnd oFuncs cst nst fuel (dd.bddAnd G (dd.cuddNot tmp1))
          (transs ++ [⟨bits, cst, nst, outs⟩])

/-- `STG::addOneTrans`; every round takes at least one of the `2 ^ nPi` input vectors away. -/
def STG.addOneTrans (stg : STG) (G : dd.Node) (oFuncs : List (Option dd.Node)) (i cCnt nCnt : ℕ) :
    Option STG := do
  let transs ← transLoop dd order size stg.nPi (i * stg.nPi) ((i + 1) * stg.nPi) oFuncs
    (stName i cCnt) (nstName stg.nTimeFrame i nCnt) (2 ^ stg.nPi + 1) G stg.transs
  return { stg with transs := transs }

end Model

/-! ## The input column -/

/-- The variables of a frame. -/
def InFrame (order : List ℕ) (vStart vEnd m : ℕ) : Prop :=
  vStart ≤ cuddI order m ∧ cuddI order m < vEnd

instance (order : List ℕ) (vStart vEnd m : ℕ) : Decidable (InFrame order vStart vEnd m) :=
  inferInstanceAs (Decidable (_ ∧ _))

/-- `v` are the values of the variables of a frame by position in the frame. -/
def Slice (order : List ℕ) (vStart vEnd : ℕ) (x : Assign) (v : ℕ → Bool) : Prop :=
  ∀ m, InFrame order vStart vEnd m → v (cuddI order m - vStart) = x m

section Input

variable {order : List ℕ} {nPi vStart vEnd : ℕ} (size : ℕ) (cube : Cube)

/-- After the variables below `n`: their literals are in the column or gone. -/
structure InputInv (order : List ℕ) (nPi vStart vEnd : ℕ) (cube : Cube) (n : ℕ)
    (s : List Char × Cube) : Prop where
  length : s.1.length = nPi
  lits : ∀ m, s.2 m = if m < n ∧ ¬ InFrame order vStart vEnd m then none else cube m
  set : ∀ m, m < n → InFrame order vStart vEnd m → ∀ b, cube m = some b →
    s.1[cuddI order m - vStart]? = some (bitChar b)
  dash : ∀ p < nPi, (∀ m, m < n → InFrame order vStart vEnd m → cube m ≠ none →
    cuddI order m - vStart ≠ p) → s.1[p]? = some '-'

theorem inputBits_inv (hord : order.Perm (List.range order.length))
    (hend : vEnd = vStart + nPi) :
    InputInv order nPi vStart vEnd cube size (inputBits order size nPi vStart vEnd cube) := by
  unfold inputBits
  induction size with
  | zero =>
      refine ⟨by simp, fun m => ?_, fun m hm => absurd hm (Nat.not_lt_zero m), fun p hp _ => ?_⟩
      · show cube m = _
        rw [if_neg fun h => Nat.not_lt_zero m h.1]
      · show (List.replicate nPi '-')[p]? = some '-'
        rw [List.getElem?_replicate, if_pos hp]
  | succ n ih =>
      rw [List.range_succ, List.foldl_append, List.foldl_cons, List.foldl_nil]
      generalize (List.range n).foldl _ _ = s at ih
      obtain ⟨hlen, hcube, hset, hdash⟩ := ih
      have hs : s.2 n = cube n := by rw [hcube, if_neg fun h => Nat.lt_irrefl n h.1]
      -- a literal that is not one of the frame is erased
      have herase : ¬ (InFrame order vStart vEnd n ∧ cube n ≠ none) →
          InputInv order nPi vStart vEnd cube (n + 1) (s.1, Function.update s.2 n none) := by
        intro hno
        refine ⟨hlen, fun m => ?_, fun m hm hf b hb => ?_, fun p hp h => ?_⟩
        · show Function.update s.2 n none m = _
          by_cases hmn : m = n
          · subst hmn
            rw [Function.update_self]
            split
            · rfl
            · next h =>
                by_contra hne
                exact hno ⟨by_contra fun hf => h ⟨Nat.lt_succ_self m, hf⟩, fun h' => hne h'.symm⟩
          · rw [Function.update_of_ne hmn, hcube]
            exact if_congr (and_congr_left fun _ => by omega) rfl rfl
        · apply hset m _ hf b hb
          have : m ≠ n := by
            rintro rfl
            exact hno ⟨hf, by rw [hb]; simp⟩
          omega
        · exact hdash p hp fun m hm hf hne => h m (by omega) hf hne
      cases hc : cube n with
      | none =>
          simp only [hs, hc]
          exact herase fun h => h.2 hc
      | some b =>
          simp only [hs, hc]
          split
          · next hf =>
              have hf : InFrame order vStart vEnd n := hf
              have hpos : cuddI order n - vStart < s.1.length := by
                have := hf.1
                have := hf.2
                omega
              refine ⟨by simp [hlen], fun m => ?_, fun m hm hfm d hd => ?_, fun p hp h => ?_⟩
              · show s.2 m = _
                rw [hcube]
                by_cases hmn : m = n
                · subst hmn
                  rw [if_neg fun h => h.2 hf, if_neg fun h => h.2 hf]
                · exact if_congr (and_congr_left fun _ => by omega) rfl rfl
              · show (s.1.set _ _)[_]? = _
                by_cases hmn : m = n
                · subst hmn
                  rw [List.getElem?_set_self hpos]
                  rw [hc] at hd
                  cases hd
                  rfl
                · rw [List.getElem?_set_ne]
                  · exact hset m (by omega) hfm d hd
                  · intro heq
                    apply hmn
                    apply cuddI_injective hord
                    have := hf.1
                    have := hfm.1
                    omega
              · show (s.1.set _ _)[p]? = _
                rw [List.getElem?_set_ne (h n (Nat.lt_succ_self n) hf (by rw [hc]; simp))]
                exact hdash p hp fun m hm hfm hne => h m (by omega) hfm hne
          · next hf => exact herase fun h => hf h.1

/-- The row matches exactly the pins whose values satisfy the literals of the frame. -/
theorem accepts_inputBits (hord : order.Perm (List.range order.length))
    (hend : vEnd = vStart + nPi) (hsize : ∀ m, InFrame order vStart vEnd m → m < size)
    {x : Assign} {v : ℕ → Bool} (hv : Slice order vStart vEnd x v) :
    accepts (inputBits order size nPi vStart vEnd cube).1 v = true ↔
      (cube.keep (InFrame order vStart vEnd)).Holds x := by
  obtain ⟨hlen, -, hset, hdash⟩ := inputBits_inv size cube hord hend
  unfold accepts
  rw [List.all_eq_true]
  constructor
  · intro h m b hb
    unfold Cube.keep at hb
    split at hb
    · next hf =>
        have hget := hset m (hsize m hf) hf b hb
        have := h (bitChar b, cuddI order m - vStart) (List.mk_mem_zipIdx_iff_getElem?.mpr hget)
        rw [decide_eq_true_eq, hv m hf] at this
        cases b <;> cases hx : x m <;> simp [hx, bitChar] at this ⊢
    · cases hb
  · rintro h ⟨ch, p⟩ hp
    rw [List.mk_mem_zipIdx_iff_getElem?] at hp
    have hpl : p < nPi := by
      rw [← hlen]
      exact (List.getElem?_eq_some_iff.mp hp).1
    rw [decide_eq_true_eq]
    by_cases hex : ∃ m, InFrame order vStart vEnd m ∧ cube m ≠ none ∧ cuddI order m - vStart = p
    · obtain ⟨m, hf, hne, rfl⟩ := hex
      obtain ⟨b, hb⟩ := Option.ne_none_iff_exists'.mp hne
      rw [hset m (hsize m hf) hf b hb] at hp
      have hx := h m b (by unfold Cube.keep; rw [if_pos hf, hb])
      right
      show ch = bitChar (v (cuddI order m - vStart))
      rw [hv m hf, hx]
      exact (Option.some.inj hp).symm
    · left
      rw [hdash p hpl fun m _ hf hne heq => hex ⟨m, hf, hne, heq⟩] at hp
      exact (Option.some.inj hp).symm

omit cube in
theorem column_inputBits (hord : order.Perm (List.range order.length))
    (hend : vEnd = vStart + nPi) (cube : Cube) :
    Column nPi (inputBits order size nPi vStart vEnd cube).1 := by
  refine ⟨(inputBits_inv size cube hord hend).length, ?_⟩
  unfold inputBits
  refine foldl_inv (fun _ (s : List Char × Cube) => ∀ c ∈ s.1, c = '0' ∨ c = '1' ∨ c = '-')
    (fun pre m post s _ hs => ?_) fun c hc => Or.inr (Or.inr (List.eq_of_mem_replicate hc))
  show ∀ c ∈ (match s.2 m with
    | some b => if vStart ≤ cuddI order m ∧ cuddI order m < vEnd
        then (s.1.set (cuddI order m - vStart) (bitChar b), s.2)
        else (s.1, Function.update s.2 m none)
    | none => (s.1, Function.update s.2 m none)).1, c = '0' ∨ c = '1' ∨ c = '-'
  cases s.2 m with
  | none => exact hs
  | some b =>
      show ∀ c ∈ (if vStart ≤ cuddI order m ∧ cuddI order m < vEnd
        then (s.1.set (cuddI order m - vStart) (bitChar b), s.2)
        else (s.1, Function.update s.2 m none)).1, c = '0' ∨ c = '1' ∨ c = '-'
      split
      · intro c hc
        rcases List.mem_or_eq_of_mem_set hc with hc | rfl
        · exact hs c hc
        · exact bitChar_cases b
      · exact hs

theorem inputBits_cube (hord : order.Perm (List.range order.length))
    (hend : vEnd = vStart + nPi) (hsize : ∀ m, InFrame order vStart vEnd m → m < size) :
    (inputBits order size nPi vStart vEnd cube).2.keep (· < size) =
      cube.keep (InFrame order vStart vEnd) := by
  funext m
  unfold Cube.keep
  rw [(inputBits_inv size cube hord hend).lits]
  by_cases hf : InFrame order vStart vEnd m
  · rw [if_pos (hsize m hf), if_pos hf, if_neg fun h => h.2 hf]
  · rw [if_neg hf]
    split
    · next hlt => rw [if_pos ⟨hlt, hf⟩]
    · rfl

end Input

/-! ## The rows of `addOneTrans` -/

section Rows

variable (dd : Cudd) (order : List ℕ) (size nPi vStart vEnd : ℕ)

/-- The output characters on `x`. -/
def outChars (oFuncs : List (Option dd.Node)) (x : Assign) : List Char :=
  oFuncs.map fun o => match o with
    | some f => bitChar (dd.eval f x)
    | none => '-'

/-- `G` is satisfiable once the inputs up to level `vEnd` are those of `x`. -/
def Active (G : dd.Node) (x : Assign) : Prop :=
  ∃ z, dd.eval G (glue (cuddI order) vEnd x z) = true

/-- `G` starts with the inputs of the frame, and what follows them tells the outputs. -/
structure TransOk (G : dd.Node) (oFuncs : List (Option dd.Node)) : Prop where
  depG : DependsOn (dd.eval G) { m | vStart ≤ cuddI order m }
  depO : ∀ f, some f ∈ oFuncs → DependsOn (dd.eval f) { m | InFrame order vStart vEnd m }
  det : ∀ x y, (∀ z, dd.eval G (glue (cuddI order) vEnd x z) =
    dd.eval G (glue (cuddI order) vEnd y z)) → Active dd order vEnd G x →
      ∀ f, some f ∈ oFuncs → dd.eval f x = dd.eval f y

/-- The rows match every active input once, with its output characters, and no other. -/
structure RowsFor (G : dd.Node) (oFuncs : List (Option dd.Node)) (cst nst : List Char)
    (rows : List TransRow) : Prop where
  names : ∀ r ∈ rows, r.cst = cst ∧ r.nst = nst
  columns : ∀ r ∈ rows, Column (vEnd - vStart) r.input ∧ Column oFuncs.length r.output
  active : ∀ x v, Slice order vStart vEnd x v → Active dd order vEnd G x →
    ∃ r, rows.filter (fun r => accepts r.input v) = [r] ∧ r.output = outChars dd oFuncs x
  inactive : ∀ x v, Slice order vStart vEnd x v → ¬ Active dd order vEnd G x →
    rows.filter (fun r => accepts r.input v) = []

theorem column_outChars (oFuncs : List (Option dd.Node)) (x : Assign) :
    Column oFuncs.length (outChars dd oFuncs x) := by
  refine ⟨by simp [outChars], fun c hc => ?_⟩
  obtain ⟨o, -, rfl⟩ := List.mem_map.mp hc
  cases o with
  | none => exact Or.inr (Or.inr rfl)
  | some f => exact bitChar_cases _

variable {dd order vStart vEnd}
variable {G : dd.Node} {oFuncs : List (Option dd.Node)} {x y : Assign}

theorem exists_slice (hord : order.Perm (List.range order.length)) (vStart vEnd : ℕ)
    (x : Assign) : ∃ v, Slice order vStart vEnd x v := by
  choose var hvar using cuddI_surjective hord
  refine ⟨fun k => x (var (vStart + k)), fun m hm => ?_⟩
  have : var (vStart + (cuddI order m - vStart)) = m := by
    apply cuddI_injective hord
    rw [hvar, Nat.add_sub_cancel' hm.1]
  show x (var _) = x m
  rw [this]

theorem Slice.eq {v : ℕ → Bool} (h : Slice order vStart vEnd x v) (h' : Slice order vStart vEnd y v)
    {m : ℕ} (hm : InFrame order vStart vEnd m) : x m = y m := by
  rw [← h m hm, ← h' m hm]

section Round

variable (hord : order.Perm (List.range order.length)) (h : TransOk dd order vStart vEnd G oFuncs)
  (hG : G ≠ dd.b0)

/-- The literals of the first cube of `G` on the inputs of the frame. -/
def frameCube (dd : Cudd) (order : List ℕ) (vStart vEnd : ℕ) (G : dd.Node) : Cube :=
  (dd.firstCube order G).keep (InFrame order vStart vEnd)

/-- The part of `G` that one round covers. -/
theorem eval_tmp1 (hord : order.Perm (List.range order.length)) (hend : vEnd = vStart + nPi)
    (hsize : ∀ m, InFrame order vStart vEnd m → m < size) (x : Assign) :
    dd.eval (dd.cubeArrayToBdd size
      (inputBits order size nPi vStart vEnd (dd.firstCube order G)).2) x = true ↔
      (frameCube dd order vStart vEnd G).Holds x := by
  rw [dd.eval_cube, inputBits_cube size _ hord hend hsize]
  rfl

/-- Removing the cube from `G` keeps the other inputs as they are. -/
theorem eval_rest {tmp1 : dd.Node}
    (htmp : ∀ x, dd.eval tmp1 x = true ↔ (frameCube dd order vStart vEnd G).Holds x)
    (x z : Assign) :
    dd.eval (dd.bddAnd G (dd.cuddNot tmp1)) (glue (cuddI order) vEnd x z) = true ↔
      dd.eval G (glue (cuddI order) vEnd x z) = true ∧
        ¬ (frameCube dd order vStart vEnd G).Holds x := by
  have hlit : (frameCube dd order vStart vEnd G).Holds (glue (cuddI order) vEnd x z) ↔
      (frameCube dd order vStart vEnd G).Holds x := by
    have hlt : ∀ m, frameCube dd order vStart vEnd G m ≠ none →
        glue (cuddI order) vEnd x z m = x m := by
      intro m hm
      apply glue_of_lt
      unfold frameCube Cube.keep at hm
      split at hm
      · next hf => exact hf.2
      · exact absurd rfl hm
    exact ⟨fun hh => hh.congr hlt, fun hh => hh.congr fun m hm => (hlt m hm).symm⟩
  rw [dd.eval_and, dd.eval_not, Bool.and_eq_true, Bool.not_eq_true', ← Bool.not_eq_true, htmp, hlit]

theorem active_rest {tmp1 : dd.Node}
    (htmp : ∀ x, dd.eval tmp1 x = true ↔ (frameCube dd order vStart vEnd G).Holds x)
    (x : Assign) :
    Active dd order vEnd (dd.bddAnd G (dd.cuddNot tmp1)) x ↔
      Active dd order vEnd G x ∧ ¬ (frameCube dd order vStart vEnd G).Holds x := by
  constructor
  · rintro ⟨z, hz⟩
    rw [eval_rest htmp] at hz
    exact ⟨⟨z, hz.1⟩, hz.2⟩
  · rintro ⟨⟨z, hz⟩, hno⟩
    exact ⟨z, (eval_rest htmp x z).mpr ⟨hz, hno⟩⟩

theorem transOk_rest (h : TransOk dd order vStart vEnd G oFuncs) {tmp1 : dd.Node}
    (htmp : ∀ x, dd.eval tmp1 x = true ↔ (frameCube dd order vStart vEnd G).Holds x) :
    TransOk dd order vStart vEnd (dd.bddAnd G (dd.cuddNot tmp1)) oFuncs := by
  refine ⟨fun x y hxy => ?_, h.depO, fun x y hxy hact => ?_⟩
  · have hiff : dd.eval tmp1 x = dd.eval tmp1 y := by
      rw [Bool.eq_iff_iff, htmp, htmp]
      have hlow : ∀ m, frameCube dd order vStart vEnd G m ≠ none → x m = y m := by
        intro m hm
        unfold frameCube Cube.keep at hm
        split at hm
        · next hf => exact hxy m hf.1
        · exact absurd rfl hm
      exact ⟨fun hh => hh.congr hlow, fun hh => hh.congr fun m hm => (hlow m hm).symm⟩
    rw [dd.eval_and, dd.eval_and, dd.eval_not, dd.eval_not, h.depG hxy, hiff]
  · have hact' := (active_rest htmp x).mp hact
    have hacty : Active dd order vEnd (dd.bddAnd G (dd.cuddNot tmp1)) y := by
      obtain ⟨z, hz⟩ := hact
      exact ⟨z, by rw [← hxy, hz]⟩
    have hacty' := (active_rest htmp y).mp hacty
    refine h.det x y (fun z => ?_) hact'.1
    have hz := hxy z
    rw [Bool.eq_iff_iff, eval_rest htmp, eval_rest htmp,
      and_iff_left hact'.2, and_iff_left hacty'.2] at hz
    exact Bool.eq_iff_iff.mpr hz

include hord hG

theorem exists_holds (vStart vEnd : ℕ) : ∃ x, (frameCube dd order vStart vEnd G).Holds x ∧
    dd.eval G x = true := by
  refine ⟨(dd.firstCube order G).put fun _ => false, fun m b hm => ?_,
    (dd.firstCube_path order G hord hG).one _⟩
  unfold frameCube Cube.keep at hm
  split at hm
  · exact Cube.put_of_some hm
  · cases hm

include h

/-- The cube has no literal above the frame. -/
theorem firstCube_above {m : ℕ} (hm : cuddI order m < vStart) : dd.firstCube order G m = none :=
  (dd.firstCube_path order G hord hG).none_of_dependsOn h.depG (Nat.not_le.mpr hm)

theorem follows_frameCube (hx : (frameCube dd order vStart vEnd G).Holds x) {m : ℕ} {b : Bool}
    (hm : cuddI order m < vEnd) (hb : dd.firstCube order G m = some b) : x m = b := by
  have hlow : vStart ≤ cuddI order m := by
    by_contra hlt
    have hnone := firstCube_above hord h hG (Nat.lt_of_not_le hlt)
    exact Option.some_ne_none b (hb.symm.trans hnone)
  apply hx
  unfold frameCube Cube.keep
  rw [if_pos ⟨hlow, hm⟩, hb]

/-- Below the frame, `G` is the same for all inputs in the cube. -/
theorem residual_eq (hx : (frameCube dd order vStart vEnd G).Holds x)
    (hy : (frameCube dd order vStart vEnd G).Holds y) (z : Assign) :
    dd.eval G (glue (cuddI order) vEnd x z) = dd.eval G (glue (cuddI order) vEnd y z) := by
  apply (dd.firstCube_path order G hord hG).residual (cuddI_surjective hord)
    (cuddI_injective hord) vEnd
  · intro m b hm hb
    rw [glue_of_lt hm]
    exact follows_frameCube hord h hG hx hm hb
  · intro m b hm hb
    rw [glue_of_lt hm]
    exact follows_frameCube hord h hG hy hm hb
  · intro m hm
    rw [glue_of_le hm, glue_of_le hm]

theorem active_of_holds (hx : (frameCube dd order vStart vEnd G).Holds x) :
    Active dd order vEnd G x := by
  refine ⟨(dd.firstCube order G).put x, ?_⟩
  have hglue : glue (cuddI order) vEnd x ((dd.firstCube order G).put x) =
      (dd.firstCube order G).put x := by
    ext m
    unfold glue
    split
    · next hm =>
        cases hc : dd.firstCube order G m with
        | none => rw [Cube.put_of_none hc]
        | some b => rw [Cube.put_of_some hc, follows_frameCube hord h hG hx hm hc]
    · rfl
  rw [hglue]
  exact (dd.firstCube_path order G hord hG).one x

theorem outputs_eq (hx : (frameCube dd order vStart vEnd G).Holds x)
    (hy : (frameCube dd order vStart vEnd G).Holds y) :
    ∀ f, some f ∈ oFuncs → dd.eval f x = dd.eval f y :=
  h.det x y (residual_eq hord h hG hx hy) (active_of_holds hord h hG hx)

theorem mapM_outputBit {tmp1 : dd.Node} {c : Cube} (hc : tmp1 = dd.cubeArrayToBdd size c)
    (hkeep : c.keep (· < size) = frameCube dd order vStart vEnd G)
    (hx : (frameCube dd order vStart vEnd G).Holds x) :
    oFuncs.mapM (outputBit dd tmp1) = some (outChars dd oFuncs x) := by
  apply mapM_eq_map
  intro o ho
  cases o with
  | none => rfl
  | some f =>
      have hconst : ∀ y, dd.eval (dd.cofactor f tmp1) y = dd.eval f x := by
        intro y
        rw [hc, dd.eval_cofactor, hkeep]
        exact outputs_eq hord h hG (Cube.holds_put _ _) hx f ho
      unfold outputBit
      simp only
      cases hfx : dd.eval f x with
      | true =>
          have h1 : dd.cofactor f tmp1 = dd.b1 := by
            rw [dd.eq_b1_iff]
            intro y
            rw [hconst, hfx]
          rw [if_pos (Or.inl h1), h1, if_neg dd.b1_ne_b0]
          rfl
      | false =>
          have h0 : dd.cofactor f tmp1 = dd.b0 := by
            by_contra hne
            obtain ⟨y, hy⟩ := dd.ne_b0_iff.mp hne
            rw [hconst, hfx] at hy
            exact Bool.false_ne_true hy
          rw [h0, if_pos (Or.inr dd.not_b1.symm), if_pos rfl]
          rfl

end Round

section Loop

variable (hord : order.Perm (List.range order.length)) (hend : vEnd = vStart + nPi)
  (hsize : ∀ m, InFrame order vStart vEnd m → m < size)

open Classical in
/-- The values of the inputs of the frame for which `G` is satisfiable. -/
noncomputable def liveVals (dd : Cudd) (order : List ℕ) (nPi vStart vEnd : ℕ) (G : dd.Node) :
    Finset (Fin nPi → Bool) :=
  Finset.univ.filter fun v => ∃ x, dd.eval G x = true ∧
    Slice order vStart vEnd x fun k => if hk : k < nPi then v ⟨k, hk⟩ else false

theorem mem_liveVals {v : Fin nPi → Bool} :
    v ∈ liveVals dd order nPi vStart vEnd G ↔ ∃ x, dd.eval G x = true ∧
      Slice order vStart vEnd x fun k => if hk : k < nPi then v ⟨k, hk⟩ else false := by
  simp [liveVals]

theorem card_liveVals_le (G : dd.Node) : (liveVals dd order nPi vStart vEnd G).card ≤ 2 ^ nPi := by
  refine (Finset.card_le_univ _).trans ?_
  rw [Fintype.card_fun, Fintype.card_bool, Fintype.card_fin]

include hord hend in
/-- A round takes values away. -/
theorem card_liveVals_rest (hG : G ≠ dd.b0) {tmp1 : dd.Node}
    (htmp : ∀ x, dd.eval tmp1 x = true ↔ (frameCube dd order vStart vEnd G).Holds x) :
    (liveVals dd order nPi vStart vEnd (dd.bddAnd G (dd.cuddNot tmp1))).card <
      (liveVals dd order nPi vStart vEnd G).card := by
  apply Finset.card_lt_card
  rw [Finset.ssubset_iff_of_subset]
  · obtain ⟨x, hx, hGx⟩ := exists_holds hord hG vStart vEnd
    obtain ⟨v, hv⟩ := exists_slice hord vStart vEnd x
    have hv' : Slice order vStart vEnd x
        fun k => if hk : k < nPi then (fun p : Fin nPi => v p) ⟨k, hk⟩ else false := by
      intro m hm
      have := hm.1
      have := hm.2
      show (if _ : cuddI order m - vStart < nPi then v (cuddI order m - vStart) else false) = x m
      rw [dif_pos (by omega)]
      exact hv m hm
    refine ⟨fun p => v p, ?_, ?_⟩
    · rw [mem_liveVals]
      exact ⟨x, hGx, hv'⟩
    · rw [mem_liveVals]
      rintro ⟨y, hy, hyv⟩
      rw [dd.eval_and, dd.eval_not, Bool.and_eq_true, Bool.not_eq_true', ← Bool.not_eq_true,
        htmp] at hy
      apply hy.2
      refine hx.congr fun m hm => ?_
      unfold frameCube Cube.keep at hm
      split at hm
      · next hf => exact hv'.eq hyv hf
      · exact absurd rfl hm
  · intro v hv
    rw [mem_liveVals] at hv ⊢
    obtain ⟨x, hx, hxv⟩ := hv
    rw [dd.eval_and, Bool.and_eq_true] at hx
    exact ⟨x, hx.1, hxv⟩

/-- The rows of the rest, and one row for the cube. -/
theorem RowsFor.cons {cst nst : List Char} {rows : List TransRow} {r : TransRow} {tmp1 : dd.Node}
    (htmp : ∀ x, dd.eval tmp1 x = true ↔ (frameCube dd order vStart vEnd G).Holds x)
    (hrest : RowsFor dd order vStart vEnd (dd.bddAnd G (dd.cuddNot tmp1)) oFuncs cst nst rows)
    (hact : ∀ x, (frameCube dd order vStart vEnd G).Holds x → Active dd order vEnd G x)
    (hcst : r.cst = cst) (hnst : r.nst = nst)
    (hcol : Column (vEnd - vStart) r.input ∧ Column oFuncs.length r.output)
    (hacc : ∀ x v, Slice order vStart vEnd x v →
      (accepts r.input v = true ↔ (frameCube dd order vStart vEnd G).Holds x))
    (hout : ∀ x, (frameCube dd order vStart vEnd G).Holds x → r.output = outChars dd oFuncs x) :
    RowsFor dd order vStart vEnd G oFuncs cst nst (r :: rows) := by
  refine ⟨?_, ?_, fun x v hv hx => ?_, fun x v hv hx => ?_⟩
  · intro r' hr'
    rcases List.mem_cons.mp hr' with rfl | hr'
    · exact ⟨hcst, hnst⟩
    · exact hrest.names r' hr'
  · intro r' hr'
    rcases List.mem_cons.mp hr' with rfl | hr'
    · exact hcol
    · exact hrest.columns r' hr'
  · by_cases hc : (frameCube dd order vStart vEnd G).Holds x
    · refine ⟨r, ?_, hout x hc⟩
      have hpos := (hacc x v hv).mpr hc
      rw [List.filter_cons, if_pos hpos, hrest.inactive x v hv]
      rw [active_rest htmp]
      exact fun h => h.2 hc
    · obtain ⟨r', hr', hout'⟩ := hrest.active x v hv ((active_rest htmp x).mpr ⟨hx, hc⟩)
      refine ⟨r', ?_, hout'⟩
      rw [List.filter_cons, if_neg (mt (hacc x v hv).mp hc), hr']
  · have hc : ¬ (frameCube dd order vStart vEnd G).Holds x := fun hc => hx (hact x hc)
    rw [List.filter_cons, if_neg (mt (hacc x v hv).mp hc), hrest.inactive x v hv]
    rw [active_rest htmp]
    exact fun h => hx h.1

include hord hend hsize in
theorem transLoop_spec (cst nst : List Char) : ∀ (fuel : ℕ) (G : dd.Node) (transs : List TransRow),
    TransOk dd order vStart vEnd G oFuncs →
    (liveVals dd order nPi vStart vEnd G).card < fuel →
    ∃ rows, transLoop dd order size nPi vStart vEnd oFuncs cst nst fuel G transs =
        some (transs ++ rows) ∧ RowsFor dd order vStart vEnd G oFuncs cst nst rows := by
  intro fuel
  induction fuel with
  | zero => exact fun G transs _ hlt => absurd hlt (Nat.not_lt_zero _)
  | succ fuel ih =>
      intro G transs h hlt
      by_cases hG : G = dd.b0
      · refine ⟨[], by rw [transLoop, if_pos hG, List.append_nil], ?_, ?_, ?_, fun _ _ _ _ => rfl⟩
        · exact fun r hr => absurd hr List.not_mem_nil
        · exact fun r hr => absurd hr List.not_mem_nil
        · rintro x v - ⟨z, hz⟩
          rw [hG, dd.eval_b0] at hz
          exact absurd hz Bool.false_ne_true
      · have htmp := eval_tmp1 size nPi hord hend hsize (G := G)
        obtain ⟨x₀, hx₀, -⟩ := exists_holds hord hG vStart vEnd
        have houts := fun x => mapM_outputBit size hord h hG (x := x) rfl
          (inputBits_cube size _ hord hend hsize)
        obtain ⟨rows, hrun, hrows⟩ := ih _
          (transs ++ [⟨(inputBits order size nPi vStart vEnd (dd.firstCube order G)).1, cst, nst,
            outChars dd oFuncs x₀⟩]) (transOk_rest h htmp)
          ((card_liveVals_rest nPi hord hend hG htmp).trans_le (Nat.le_of_lt_succ hlt))
        refine ⟨⟨(inputBits order size nPi vStart vEnd (dd.firstCube order G)).1, cst, nst,
          outChars dd oFuncs x₀⟩ :: rows, ?_, ?_⟩
        · rw [transLoop, if_neg hG]
          simp only [houts x₀ hx₀, Option.bind_eq_bind, Option.bind_some]
          rw [hrun, List.append_assoc]
          rfl
        · have hwidth : vEnd - vStart = nPi := by rw [hend, Nat.add_sub_cancel_left]
          apply hrows.cons htmp (fun x => active_of_holds hord h hG) rfl rfl
            ⟨hwidth ▸ column_inputBits size hord hend _, column_outChars dd oFuncs x₀⟩
          · intro x v hv
            exact accepts_inputBits size _ hord hend hsize hv
          · intro x hx
            exact Option.some.inj ((houts x₀ hx₀).symm.trans (houts x hx))

omit hord hend hsize in
/-- The assertion on one output. -/
theorem outputBit_const {tmp1 f : dd.Node} {ch : Char} (h : outputBit dd tmp1 (some f) = some ch)
    (x y : Assign) : dd.eval (dd.cofactor f tmp1) x = dd.eval (dd.cofactor f tmp1) y := by
  unfold outputBit at h
  simp only at h
  split at h
  · next hconst =>
      rcases hconst with h1 | h0
      · rw [h1, dd.eval_b1, dd.eval_b1]
      · rw [h0, dd.not_b1, dd.eval_b0, dd.eval_b0]
  · cases h

include hord hend hsize in
/-- The assertions of the loop: where `G` is active, the outputs read inputs of the frame only. -/
theorem transLoop_const (cst nst : List Char) :
    ∀ (fuel : ℕ) (G : dd.Node) (transs out : List TransRow),
    transLoop dd order size nPi vStart vEnd oFuncs cst nst fuel G transs = some out →
    ∀ x, Active dd order vEnd G x → ∀ f, some f ∈ oFuncs → ∀ y,
      (∀ m, InFrame order vStart vEnd m → x m = y m) → dd.eval f x = dd.eval f y := by
  intro fuel
  induction fuel with
  | zero => exact fun G transs out h => absurd h (Option.some_ne_none out).symm
  | succ fuel ih =>
      intro G transs out h x hact f hf y hxy
      have hG : G ≠ dd.b0 := by
        rintro rfl
        obtain ⟨z, hz⟩ := hact
        rw [dd.eval_b0] at hz
        exact Bool.false_ne_true hz
      rw [transLoop, if_neg hG] at h
      obtain ⟨outs, houts, hrest⟩ := Option.bind_eq_some_iff.mp h
      by_cases hx : (frameCube dd order vStart vEnd G).Holds x
      · -- the cofactor with respect to the cube is constant, and both are in the cube
        have hy : (frameCube dd order vStart vEnd G).Holds y := by
          refine hx.congr fun m hm => ?_
          unfold frameCube Cube.keep at hm
          split at hm
          · next hfr => exact hxy m hfr
          · exact absurd rfl hm
        have hcof : ∀ w, (frameCube dd order vStart vEnd G).Holds w →
            dd.eval (dd.cofactor f (dd.cubeArrayToBdd size
              (inputBits order size nPi vStart vEnd (dd.firstCube order G)).2)) w =
              dd.eval f w := by
          intro w hw
          rw [dd.eval_cofactor, inputBits_cube size _ hord hend hsize]
          exact congrArg _ hw.put_eq
        obtain ⟨ch, hch⟩ := mapM_some_mem houts hf
        rw [← hcof x hx, ← hcof y hy]
        exact outputBit_const hch x y
      · exact ih _ _ _ hrest x
          ((active_rest (eval_tmp1 size nPi hord hend hsize (G := G)) x).mpr ⟨hact, hx⟩) f hf y hxy

end Loop

/-- `addOneTrans` appends rows that decompose `G`. -/
theorem STG.addOneTrans_spec (hord : order.Perm (List.range order.length)) (stg : STG) {i : ℕ}
    (hsize : ∀ m, InFrame order (i * stg.nPi) ((i + 1) * stg.nPi) m → m < size)
    (h : TransOk dd order (i * stg.nPi) ((i + 1) * stg.nPi) G oFuncs) (cCnt nCnt : ℕ) :
    ∃ rows, stg.addOneTrans dd order size G oFuncs i cCnt nCnt =
        some { stg with transs := stg.transs ++ rows } ∧
      RowsFor dd order (i * stg.nPi) ((i + 1) * stg.nPi) G oFuncs (stName i cCnt)
        (nstName stg.nTimeFrame i nCnt) rows := by
  obtain ⟨rows, hrun, hrows⟩ := transLoop_spec size stg.nPi hord (by ring) hsize (stName i cCnt)
    (nstName stg.nTimeFrame i nCnt) (2 ^ stg.nPi + 1) G stg.transs h
    (Nat.lt_succ_of_le (card_liveVals_le stg.nPi G))
  refine ⟨rows, ?_, hrows⟩
  unfold STG.addOneTrans
  simp only [hrun, Option.bind_eq_bind, Option.bind_some]
  rfl

end Rows

end ExtFolding.Utils
