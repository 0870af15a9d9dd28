import ExtFolding.TimeMux2.SchedulePO

/-!
# `schedulePI`: ordering the inputs (`timeMux2/reord.cpp`)

Frame after frame, the inputs that the outputs of the frame need for the first
time are appended to the order. The order is then given to the BDD manager,
which may permute the levels inside each of these ranges. `order` lists the
variables by level (`dd->invperm`), so `dd->perm[j]` is `order.idxOf j`.
-/

namespace ExtFolding.TimeMux2

/-- `bddReordRange(dd, lev, size)`: the manager permutes the levels of the range. -/
structure Reorder where
  run : List ℕ → ℕ → ℕ → List ℕ
  spec : ∀ order lev size, lev + size ≤ order.length → ∃ mid,
    run order lev size = order.take lev ++ mid ++ order.drop (lev + size) ∧
      mid.Perm ((order.drop lev).take size)

section Model

variable (sVecs : List SupVec) (nCi nPo : ℕ) (slots : List (Option ℕ))

/-- `sv2`: the support of the outputs of frame `t`. -/
def frameSup (t : ℕ) : SupVec :=
  (List.range nPo).foldl (fun sv2 i => match slots.getD (t * nPo + i) none with
    | some o => sv2 ∪ sVecs.getD o ∅
    | none => sv2) ∅

/-- The part of `iPerm` written so far (`pos` is its length), `sNums` and `sv1`. -/
structure PiSt where
  iPerm : List ℕ
  sNums : List ℕ
  sv1 : SupVec

def piStep (s : PiSt) (t : ℕ) : PiSt :=
  let sv1 := s.sv1 ∪ frameSup sVecs nPo slots t
  let sv3 := symmDiff s.sv1 sv1
  let new := (List.range nCi).filter (· ∈ sv3)
  ⟨s.iPerm ++ new, s.sNums ++ [new.length], sv1⟩

/-- The order before it is applied, and `sNums`. -/
def placePI (nTimeFrame : ℕ) : List ℕ × List ℕ :=
  let s := (List.range nTimeFrame).foldl (piStep sVecs nCi nPo slots) ⟨[], [], ∅⟩
  (if s.iPerm.length ≠ nCi then s.iPerm ++ (List.range nCi).filter (· ∉ s.sv1) else s.iPerm,
    s.sNums)

end Model

/-- The loop over `sNums`, with the check that no input has left its range. -/
def reordRanges (ro : Reorder) (iPerm : List ℕ) : List ℕ → ℕ → List ℕ → Option (List ℕ)
  | [], _, order => some order
  | sz :: rest, pos, order =>
      if sz = 0 then reordRanges ro iPerm rest pos order
      else
        let order := ro.run order pos sz
        if (List.range sz).all fun k =>
            pos ≤ order.idxOf (iPerm.getD (pos + k) 0) ∧
              order.idxOf (iPerm.getD (pos + k) 0) < pos + sz then
          reordRanges ro iPerm rest (pos + sz) order
        else none

/-- The order of the manager after `Cudd_ShuffleHeap(dd, iPerm)` and the reordering. -/
def applyOrder (ro : Reorder) (iPerm sNums : List ℕ) (expConfig : ℕ) : Option (List ℕ) :=
  if expConfig = 0 ∨ expConfig = 2 then reordRanges ro iPerm sNums 0 iPerm else some iPerm

/-- `schedulePI`: `iPerm` and the order in which it leaves the manager. The positions are unsigned,
the levels are `int`s. -/
def schedulePI (ro : Reorder) (sVecs : List SupVec) (nTimeFrame nCi nPo : ℕ)
    (slots : List (Option ℕ)) (expConfig : ℕ) : Option (List ℕ × List ℕ) := do
  let (inv, sNums) := placePI sVecs nCi nPo slots nTimeFrame
  if checkPerm (ints inv) nCi ∧ inv.length = nCi then
    let order ← applyOrder ro inv sNums expConfig
    let iPerm := (List.range nCi).map fun i => order.idxOf i
    if checkPerm (iPerm.map Nat.cast) nCi then return (iPerm, order) else none
  else none

/-! ## The order before reordering -/

section Place

variable (sVecs : List SupVec) (nCi nPo : ℕ) (slots : List (Option ℕ))

/-- `sv1` before frame `t`. -/
def accSup : ℕ → SupVec
  | 0 => ∅
  | t + 1 => accSup t ∪ frameSup sVecs nPo slots t

/-- The inputs first needed in frame `t`. -/
def newInputs (t : ℕ) : List ℕ :=
  (List.range nCi).filter
    (· ∈ symmDiff (accSup sVecs nPo slots t) (accSup sVecs nPo slots (t + 1)))

/-- The order up to the inputs of the frames before `t`. -/
def upTo : ℕ → List ℕ
  | 0 => []
  | t + 1 => upTo t ++ newInputs sVecs nCi nPo slots t

variable {sVecs nCi nPo slots}

theorem mem_frameSup {t j : ℕ} : j ∈ frameSup sVecs nPo slots t ↔
    ∃ i < nPo, ∃ o, At slots (t * nPo + i) o ∧ j ∈ sVecs.getD o ∅ := by
  have hinv := foldl_inv (l := List.range nPo) (b := (∅ : SupVec))
    (f := fun sv2 i => match slots.getD (t * nPo + i) none with
      | some o => sv2 ∪ sVecs.getD o ∅
      | none => sv2)
    (fun pre sv => ∀ j, j ∈ sv ↔ ∃ i ∈ pre, ∃ o, At slots (t * nPo + i) o ∧ j ∈ sVecs.getD o ∅)
    ?_ (by simp)
  · rw [frameSup, hinv]
    simp
  · intro pre i post sv _ h j
    cases hs : slots.getD (t * nPo + i) none with
    | none =>
        have hno : ∀ o, ¬ At slots (t * nPo + i) o := by
          intro o ho
          rw [List.getD, ho] at hs
          cases hs
        rw [h]
        constructor
        · rintro ⟨i', hi', h'⟩
          exact ⟨i', List.mem_append_left _ hi', h'⟩
        · rintro ⟨i', hi', o, ho, hj⟩
          rcases List.mem_append.mp hi' with hi' | hi'
          · exact ⟨i', hi', o, ho, hj⟩
          · obtain rfl : i' = i := by simpa using hi'
            exact absurd ho (hno o)
    | some o =>
        have ho : At slots (t * nPo + i) o := by
          unfold At
          cases hg : slots[t * nPo + i]? with
          | none => simp [List.getD, hg] at hs
          | some x => simpa [List.getD, hg] using hs
        rw [Finset.mem_union, h]
        constructor
        · rintro (⟨i', hi', h'⟩ | hj)
          · exact ⟨i', List.mem_append_left _ hi', h'⟩
          · exact ⟨i, by simp, o, ho, hj⟩
        · rintro ⟨i', hi', o', ho', hj⟩
          rcases List.mem_append.mp hi' with hi' | hi'
          · exact Or.inl ⟨i', hi', o', ho', hj⟩
          · obtain rfl : i' = i := by simpa using hi'
            unfold At at ho ho'
            rw [ho] at ho'
            cases ho'
            exact Or.inr hj

theorem accSup_mono (sVecs : List SupVec) (nPo : ℕ) (slots : List (Option ℕ)) {t t' : ℕ}
    (h : t ≤ t') :
    accSup sVecs nPo slots t ⊆ accSup sVecs nPo slots t' := by
  induction h with
  | refl => exact subset_rfl
  | step _ ih => exact ih.trans Finset.subset_union_left

theorem accSup_subset (nPo : ℕ) (slots : List (Option ℕ))
    (hsup : ∀ o, sVecs.getD o ∅ ⊆ Finset.range nCi) (t : ℕ) :
    accSup sVecs nPo slots t ⊆ Finset.range nCi := by
  induction t with
  | zero => exact Finset.empty_subset _
  | succ t ih =>
      refine Finset.union_subset ih fun j hj => ?_
      obtain ⟨i, -, o, -, hjo⟩ := mem_frameSup.mp hj
      exact hsup o hjo

theorem mem_newInputs {t j : ℕ} (hsup : ∀ o, sVecs.getD o ∅ ⊆ Finset.range nCi) :
    j ∈ newInputs sVecs nCi nPo slots t ↔
      j ∈ accSup sVecs nPo slots (t + 1) ∧ j ∉ accSup sVecs nPo slots t := by
  have hsub := accSup_mono sVecs nPo slots (Nat.le_succ t)
  have hlt := accSup_subset nPo slots hsup (t + 1)
  simp only [newInputs, List.mem_filter, List.mem_range, decide_eq_true_eq, Finset.mem_symmDiff]
  constructor
  · rintro ⟨-, ⟨h, h'⟩ | h⟩
    · exact absurd (hsub h) h'
    · exact h
  · rintro ⟨h, h'⟩
    exact ⟨Finset.mem_range.mp (hlt h), Or.inr ⟨h, h'⟩⟩

theorem upTo_nodup (nPo : ℕ) (slots : List (Option ℕ))
    (hsup : ∀ o, sVecs.getD o ∅ ⊆ Finset.range nCi) (t : ℕ) :
    (upTo sVecs nCi nPo slots t).Nodup ∧
      ∀ j, j ∈ upTo sVecs nCi nPo slots t ↔ j ∈ accSup sVecs nPo slots t := by
  induction t with
  | zero => exact ⟨List.nodup_nil, by simp [upTo, accSup]⟩
  | succ t ih =>
      obtain ⟨hnd, hmem⟩ := ih
      constructor
      · rw [upTo, List.nodup_append]
        refine ⟨hnd, List.nodup_range.filter _, fun a ha b hb hab => ?_⟩
        rw [← hab, mem_newInputs hsup] at hb
        exact hb.2 ((hmem a).mp ha)
      · intro j
        rw [upTo, List.mem_append, hmem, mem_newInputs hsup]
        constructor
        · rintro (h | h)
          · exact accSup_mono sVecs nPo slots (Nat.le_succ t) h
          · exact h.1
        · intro h
          by_cases h' : j ∈ accSup sVecs nPo slots t
          · exact Or.inl h'
          · exact Or.inr ⟨h, h'⟩

/-- As many inputs come up to frame `t` as the outputs of these frames need. -/
theorem length_upTo (hsup : ∀ o, sVecs.getD o ∅ ⊆ Finset.range nCi) (t : ℕ) :
    (upTo sVecs nCi nPo slots t).length = (accSup sVecs nPo slots t).card := by
  obtain ⟨hnd, hmem⟩ := upTo_nodup nPo slots hsup t
  rw [← List.toFinset_card_of_nodup hnd]
  congr 1
  ext j
  rw [List.mem_toFinset, hmem]

theorem upTo_mono (sVecs : List SupVec) (nCi nPo : ℕ) (slots : List (Option ℕ)) {t t' : ℕ}
    (h : t ≤ t') :
    upTo sVecs nCi nPo slots t <+: upTo sVecs nCi nPo slots t' := by
  induction h with
  | refl => exact List.prefix_refl _
  | step _ ih => exact ih.trans (List.prefix_append _ _)

theorem piStep_foldl (t : ℕ) :
    (List.range t).foldl (piStep sVecs nCi nPo slots) ⟨[], [], ∅⟩ =
      ⟨upTo sVecs nCi nPo slots t,
        (List.range t).map fun t => (newInputs sVecs nCi nPo slots t).length,
        accSup sVecs nPo slots t⟩ := by
  induction t with
  | zero => rfl
  | succ t ih =>
      rw [List.range_succ, List.foldl_append, ih, List.map_append]
      rfl

/-- The order is a permutation of the inputs that starts with those of the frames. -/
theorem placePI_spec (nPo : ℕ) (slots : List (Option ℕ))
    (hsup : ∀ o, sVecs.getD o ∅ ⊆ Finset.range nCi) (T : ℕ) :
    ∃ inv, placePI sVecs nCi nPo slots T =
        (inv, (List.range T).map fun t => (newInputs sVecs nCi nPo slots t).length) ∧
      inv.Perm (List.range nCi) ∧ upTo sVecs nCi nPo slots T <+: inv := by
  obtain ⟨hnd, hmem⟩ := upTo_nodup nPo slots hsup T
  have hlt := accSup_subset nPo slots hsup T
  unfold placePI
  simp only [piStep_foldl]
  refine ⟨_, rfl, ?_, ?_⟩
  · split
    · apply (List.perm_ext_iff_of_nodup ?_ List.nodup_range).mpr
      · intro j
        rw [List.mem_append, hmem, List.mem_filter, List.mem_range]
        constructor
        · rintro (h | h)
          · exact Finset.mem_range.mp (hlt h)
          · exact h.1
        · intro hj
          by_cases h : j ∈ accSup sVecs nPo slots T
          · exact Or.inl h
          · exact Or.inr ⟨hj, by simpa using h⟩
      · rw [List.nodup_append]
        refine ⟨hnd, List.nodup_range.filter _, fun a ha b hb hab => ?_⟩
        rw [← hab, List.mem_filter] at hb
        exact absurd ((hmem a).mp ha) (by simpa using hb.2)
    · next hlen =>
        refine perm_range_of_nodup hnd (fun j hj => ?_) (not_ne_iff.mp hlen)
        exact Finset.mem_range.mp (hlt ((hmem j).mp hj))
  · split
    · exact List.prefix_append _ _
    · exact List.prefix_refl _

end Place

/-! ## Reordering inside the ranges -/

section Ranges

variable {sVecs : List SupVec} {nCi nPo T : ℕ} {slots : List (Option ℕ)}

/-- The invariant of the manager's order: up to every frame boundary it holds the same
inputs as `upTo`, from the current boundary `t` on it is still `inv`. -/
structure OrderInv (sVecs : List SupVec) (nCi nPo T : ℕ) (slots : List (Option ℕ))
    (order : List ℕ) : Prop where
  perm : order.Perm (List.range nCi)
  below : ∀ t ≤ T, (order.take (upTo sVecs nCi nPo slots t).length).Perm
    (upTo sVecs nCi nPo slots t)

theorem OrderInv.nodup {order : List ℕ} (h : OrderInv sVecs nCi nPo T slots order) :
    order.Nodup := h.perm.nodup_iff.mpr List.nodup_range

/-- The level of an input is below a frame boundary exactly when it comes before it. -/
theorem OrderInv.idxOf_lt {order : List ℕ} (h : OrderInv sVecs nCi nPo T slots order) {t : ℕ}
    (ht : t ≤ T) {j : ℕ} (hj : j ∈ order) :
    order.idxOf j < (upTo sVecs nCi nPo slots t).length ↔ j ∈ upTo sVecs nCi nPo slots t := by
  rw [← (h.below t ht).mem_iff]
  have hidx := List.idxOf_lt_length_of_mem hj
  constructor
  · intro hlt
    rw [List.mem_take_iff_getElem]
    refine ⟨order.idxOf j, lt_min hlt hidx, ?_⟩
    exact List.getElem_idxOf hidx
  · intro hmem
    obtain ⟨i, hi, rfl⟩ := List.mem_take_iff_getElem.mp hmem
    rw [h.nodup.idxOf_getElem]
    exact hi.trans_le (min_le_left _ _)

/-- Permuting the levels of a range keeps what lies below every level outside it. -/
theorem take_perm_of_range {order mid : List ℕ} {lev size m : ℕ}
    (hmid : mid.Perm ((order.drop lev).take size)) (hle : lev + size ≤ order.length)
    (hm : m ≤ lev ∨ lev + size ≤ m) :
    ((order.take lev ++ mid ++ order.drop (lev + size)).take m).Perm (order.take m) := by
  have hlev : (order.take lev).length = lev := by simp; omega
  have hlen : mid.length = size := by
    rw [hmid.length_eq, List.length_take, List.length_drop]
    omega
  rcases hm with hm | hm
  · rw [List.append_assoc, List.take_append_of_le_length (by omega), List.take_take,
      min_eq_left hm]
  · have hsplit : order.take m = order.take lev ++ (order.drop lev).take size ++
        (order.drop (lev + size)).take (m - (lev + size)) := by
      conv_lhs => rw [show m = lev + (size + (m - (lev + size))) by omega, List.take_add,
        List.take_add, List.drop_drop]
      rw [List.append_assoc]
    rw [hsplit, List.take_append, List.take_of_length_le (by simp; omega)]
    have hsub : m - (order.take lev ++ mid).length = m - (lev + size) := by simp; omega
    rw [hsub]
    exact (hmid.append_left _).append_right _

theorem length_upTo_succ (t : ℕ) : (upTo sVecs nCi nPo slots (t + 1)).length =
    (upTo sVecs nCi nPo slots t).length + (newInputs sVecs nCi nPo slots t).length :=
  List.length_append

theorem length_upTo_mono {t t' : ℕ} (h : t ≤ t') :
    (upTo sVecs nCi nPo slots t).length ≤ (upTo sVecs nCi nPo slots t').length :=
  (upTo_mono sVecs nCi nPo slots h).length_le

theorem OrderInv.length_le {order : List ℕ} (h : OrderInv sVecs nCi nPo T slots order) {t : ℕ}
    (ht : t < T) : (upTo sVecs nCi nPo slots t).length +
      (newInputs sVecs nCi nPo slots t).length ≤ order.length := by
  rw [← length_upTo_succ, ← (h.below (t + 1) ht).length_eq]
  exact List.length_take_le' _ _

theorem OrderInv.reorder (ro : Reorder) {order : List ℕ}
    (h : OrderInv sVecs nCi nPo T slots order) {t : ℕ} (ht : t < T) :
    OrderInv sVecs nCi nPo T slots (ro.run order (upTo sVecs nCi nPo slots t).length
      (newInputs sVecs nCi nPo slots t).length) := by
  have hle := h.length_le ht
  obtain ⟨mid, hrun, hmid⟩ := ro.spec order _ _ hle
  rw [hrun]
  constructor
  · have hall := take_perm_of_range hmid hle (Or.inr hle)
    have hlen : (order.take (upTo sVecs nCi nPo slots t).length ++ mid ++ order.drop
        ((upTo sVecs nCi nPo slots t).length + (newInputs sVecs nCi nPo slots t).length)).length ≤
        order.length := by
      simp only [List.length_append, hmid.length_eq, List.length_take, List.length_drop]
      omega
    rw [List.take_length, List.take_of_length_le hlen] at hall
    exact hall.trans h.perm
  · intro t' ht'
    refine (take_perm_of_range hmid hle ?_).trans (h.below t' ht')
    rcases Nat.lt_or_ge t t' with hlt | hge
    · right
      rw [← length_upTo_succ]
      exact length_upTo_mono hlt
    · exact Or.inl (length_upTo_mono hge)

/-- The loop over the ranges passes its checks and keeps the invariant. -/
theorem reordRanges_spec (ro : Reorder) (hsup : ∀ o, sVecs.getD o ∅ ⊆ Finset.range nCi)
    {inv : List ℕ} (hinv : upTo sVecs nCi nPo slots T <+: inv) {n t : ℕ} (hn : t + n = T)
    {order : List ℕ} (h : OrderInv sVecs nCi nPo T slots order) :
    ∃ order', reordRanges ro inv
        ((List.range' t n).map fun t => (newInputs sVecs nCi nPo slots t).length)
        (upTo sVecs nCi nPo slots t).length order = some order' ∧
      OrderInv sVecs nCi nPo T slots order' := by
  induction n generalizing t order with
  | zero => exact ⟨order, rfl, h⟩
  | succ n ih =>
      rw [List.range'_succ, List.map_cons, reordRanges]
      have hnext := @ih (t + 1) (by omega)
      rw [length_upTo_succ] at hnext
      split
      · next hzero =>
          rw [hzero, Nat.add_zero] at hnext
          exact hnext h
      · have h' := h.reorder ro (t := t) (by omega)
        simp only
        rw [if_pos]
        · exact hnext h'
        · rw [List.all_eq_true]
          intro k hk
          rw [List.mem_range] at hk
          -- entry `k` of the range is one of the inputs first needed in frame `t`
          have hpre : upTo sVecs nCi nPo slots (t + 1) <+: inv :=
            (upTo_mono sVecs nCi nPo slots (by omega)).trans hinv
          have hlt : (upTo sVecs nCi nPo slots t).length + k <
              (upTo sVecs nCi nPo slots (t + 1)).length := by
            rw [length_upTo_succ]
            omega
          have hget : inv.getD ((upTo sVecs nCi nPo slots t).length + k) 0 =
              (newInputs sVecs nCi nPo slots t)[k] := by
            rw [List.getD_eq_getElem _ _ (hlt.trans_le hpre.length_le), ← hpre.getElem hlt]
            simp [upTo]
          have hmem := List.getElem_mem hk
          rw [← hget] at hmem
          obtain ⟨hin, hout⟩ := (mem_newInputs hsup).mp hmem
          have hmem' := fun t => (upTo_nodup nPo slots hsup t).2
          have hord : inv.getD ((upTo sVecs nCi nPo slots t).length + k) 0 ∈
              ro.run order (upTo sVecs nCi nPo slots t).length
                (newInputs sVecs nCi nPo slots t).length := by
            rw [h'.perm.mem_iff, List.mem_range]
            exact Finset.mem_range.mp (accSup_subset nPo slots hsup _ hin)
          simp only [Bool.and_eq_true, decide_eq_true_eq, Bool.decide_and]
          constructor
          · rw [← Nat.not_lt, h'.idxOf_lt (by omega) hord, hmem']
            exact hout
          · rw [← length_upTo_succ, h'.idxOf_lt (by omega) hord, hmem']
            exact hin

/-- In the final order the inputs needed by the outputs of the frames up to `t` occupy the first
levels. -/
theorem applyOrder_spec (T nPo : ℕ) (slots : List (Option ℕ)) (ro : Reorder)
    (hsup : ∀ o, sVecs.getD o ∅ ⊆ Finset.range nCi) (expConfig : ℕ) :
    ∃ inv sNums order, placePI sVecs nCi nPo slots T = (inv, sNums) ∧
      inv.Perm (List.range nCi) ∧ applyOrder ro inv sNums expConfig = some order ∧
      OrderInv sVecs nCi nPo T slots order := by
  obtain ⟨inv, hplace, hperm, hpre⟩ := placePI_spec nPo slots hsup T
  have hstart : OrderInv sVecs nCi nPo T slots inv := by
    refine ⟨hperm, fun t ht => ?_⟩
    have := (upTo_mono sVecs nCi nPo slots ht).trans hpre
    rw [← List.prefix_iff_eq_take.mp this]
  have hrun : ∃ order, applyOrder ro inv ((List.range T).map fun t =>
      (newInputs sVecs nCi nPo slots t).length) expConfig = some order ∧
      OrderInv sVecs nCi nPo T slots order := by
    unfold applyOrder
    split
    · rw [List.range_eq_range']
      exact reordRanges_spec ro hsup hpre (Nat.zero_add T) hstart
    · exact ⟨inv, rfl, hstart⟩
  obtain ⟨order, hord, hfinal⟩ := hrun
  exact ⟨inv, _, order, hplace, hperm, hord, hfinal⟩

/-- What `schedulePI` returns. -/
theorem schedulePI_inv {T nPo : ℕ} {slots : List (Option ℕ)} {ro : Reorder}
    (hsup : ∀ o, sVecs.getD o ∅ ⊆ Finset.range nCi) {expConfig : ℕ} {iPerm order : List ℕ}
    (h : schedulePI ro sVecs T nCi nPo slots expConfig = some (iPerm, order)) :
    iPerm = (List.range nCi).map (fun i => order.idxOf i) ∧
      OrderInv sVecs nCi nPo T slots order := by
  obtain ⟨inv, sNums, order', hplace, -, hord, hfinal⟩ :=
    applyOrder_spec T nPo slots ro hsup expConfig
  simp only [schedulePI, hplace, hord, Option.bind_eq_bind, Option.bind_some] at h
  split at h
  · split at h
    · cases h
      exact ⟨rfl, hfinal⟩
    · cases h
  · cases h

/-- The levels of the inputs. -/
theorem levels_perm {order : List ℕ} (hord : order.Perm (List.range nCi)) :
    ((List.range nCi).map fun i => order.idxOf i).Perm (List.range nCi) := by
  have hmem : ∀ {i}, i < nCi → i ∈ order := fun hi =>
    hord.mem_iff.mpr (List.mem_range.mpr hi)
  apply perm_range_of_nodup
  · apply List.Nodup.map_on _ List.nodup_range
    intro i hi j hj hij
    exact (List.idxOf_inj (hmem (List.mem_range.mp hi))).mp hij
  · intro p hp
    obtain ⟨i, hi, rfl⟩ := List.mem_map.mp hp
    have := List.idxOf_lt_length_of_mem (hmem (List.mem_range.mp hi))
    rwa [hord.length_eq, List.length_range] at this
  · simp

/-- `schedulePI` passes its assertions. -/
theorem schedulePI_some (T nPo : ℕ) (slots : List (Option ℕ)) (ro : Reorder)
    (hsup : ∀ o, sVecs.getD o ∅ ⊆ Finset.range nCi) (hsize : nCi ≤ 2 ^ 31) (expConfig : ℕ) :
    ∃ iPerm order, schedulePI ro sVecs T nCi nPo slots expConfig = some (iPerm, order) := by
  obtain ⟨inv, sNums, order, hplace, hperm, hord, hfinal⟩ :=
    applyOrder_spec T nPo slots ro hsup expConfig
  have hcheck : ∀ {l : List ℕ}, l.Perm (List.range nCi) → checkPerm (l.map Nat.cast) nCi = true :=
    fun h => checkPerm_natCast.mpr ⟨h.nodup_iff.mpr List.nodup_range,
      fun p hp => List.mem_range.mp (h.mem_iff.mp hp)⟩
  have hinv : checkPerm (ints inv) nCi = true := by
    rw [ints_eq fun p hp => (List.mem_range.mp (hperm.mem_iff.mp hp)).trans_le hsize]
    exact hcheck hperm
  have hlen : inv.length = nCi := by simpa using hperm.length_eq
  refine ⟨(List.range nCi).map fun i => order.idxOf i, order, ?_⟩
  simp only [schedulePI, hplace]
  rw [if_pos ⟨hinv, hlen⟩, hord]
  simp only [Option.bind_eq_bind, Option.bind_some, hcheck (levels_perm hfinal.perm), if_true]
  rfl

/-- The inputs that an output needs lie below the boundary of its frame. -/
theorem OrderInv.level_lt {order : List ℕ} (h : OrderInv sVecs nCi nPo T slots order) {nPi : ℕ}
    (hs : Slots sVecs T nPi nPo slots) (hsup : ∀ o, sVecs.getD o ∅ ⊆ Finset.range nCi) {p o j : ℕ}
    (hp : At slots p o) (hj : j ∈ sVecs.getD o ∅) :
    order.idxOf j < (p / nPo + 1) * nPi := by
  have hlt : p < nPo * T := by
    rw [← hs.length]
    exact hp.lt
  have hpos : 0 < nPo := Nat.pos_of_ne_zero fun h0 => by simp [h0] at hlt
  have hdiv : p / nPo < T := Nat.div_lt_of_lt_mul hlt
  have hframe : j ∈ accSup sVecs nPo slots (p / nPo + 1) := by
    refine Finset.mem_union_right _ (mem_frameSup.mpr ⟨p % nPo, Nat.mod_lt p hpos, o, ?_, hj⟩)
    rwa [Nat.mul_comm, Nat.div_add_mod]
  have hcard : (accSup sVecs nPo slots (p / nPo + 1)).card ≤ (p / nPo + 1) * nPi := by
    obtain ⟨S, hS, hsub⟩ := hs.causal (p / nPo)
    refine (Finset.card_le_card ?_).trans hS
    have key : ∀ t ≤ p / nPo + 1, accSup sVecs nPo slots t ⊆ S := by
      intro t ht
      induction t with
      | zero => exact Finset.empty_subset _
      | succ t ih =>
          refine Finset.union_subset (ih (Nat.le_of_succ_le ht)) fun k hk => ?_
          obtain ⟨i, hi, o', ho', hk⟩ := mem_frameSup.mp hk
          refine hsub (t * nPo + i) o' ?_ ho' hk
          calc t * nPo + i < (t + 1) * nPo := by rw [Nat.add_mul]; omega
            _ ≤ (p / nPo + 1) * nPo := Nat.mul_le_mul_right _ ht
    exact key _ le_rfl
  have hord : j ∈ order := h.perm.mem_iff.mpr (List.mem_range.mpr (Finset.mem_range.mp (hsup o hj)))
  have hup : j ∈ upTo sVecs nCi nPo slots (p / nPo + 1) :=
    ((upTo_nodup nPo slots hsup _).2 j).mpr hframe
  calc order.idxOf j < (upTo sVecs nCi nPo slots (p / nPo + 1)).length :=
        (h.idxOf_lt hdiv hord).mpr hup
    _ = (accSup sVecs nPo slots (p / nPo + 1)).card := length_upTo hsup _
    _ ≤ (p / nPo + 1) * nPi := hcard

end Ranges

end ExtFolding.TimeMux2
