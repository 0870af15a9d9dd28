import ExtFolding.TimeMux2.FewestPins
import ExtFolding.TimeMux2.SchedulePI

/-!
# `reordPO` and `reordIO` (`timeMux2/reord.cpp`)

`reordPO` exchanges outputs within a frame so that outputs over similar inputs
share a pin. Its scores are floating-point numbers, here rationals with an
arbitrary rounding function; only their signs matter to the assertions.
-/

namespace ExtFolding.TimeMux2

open ExtFolding.Rounding

/-- `double`: every sum and product is rounded, `pow n` stands for `pow(ratio, n)`. -/
structure Fp where
  rnd : ℚ → ℚ
  pow : ℕ → ℚ
  rnd_nonneg : ∀ x, 0 ≤ x → 0 ≤ rnd x
  pow_nonneg : ∀ n, 0 ≤ pow n

section Model

variable (order : List ℕ) (sVecs : List SupVec) (nTimeFrame nCi nPi nPo : ℕ)

/-- `psv` in frame `t`: the inputs read in the frames before. -/
def readSup : ℕ → SupVec
  | 0 => ∅
  | t + 1 => readSup t ∪ ((List.range nPi).map fun i => order.getD (t * nPi + i) 0).toFinset

/-- `sVecss[t][i]`: the pins of frame `t` that the output in the slot reads, with the
assertions. -/
def slotVec (psv : SupVec) : Option ℕ → Option SupVec
  | none => some ∅
  | some o =>
      let sv := symmDiff (sVecs.getD o ∅) (psv ∩ sVecs.getD o ∅)
      if nPi < sv.card then none
      else ((List.range nCi).filter (· ∈ sv)).foldlM (fun cur j =>
        let pos := order.idxOf j % nPi
        if pos ∈ cur then none else some (insert pos cur)) ∅

/-- `sVecss[t]`. -/
def frameVecs (slots : List (Option ℕ)) (t : ℕ) : Option (List SupVec) :=
  let psv := readSup order nPi t
  if psv.card = nPi * t then
    (List.range nPo).mapM fun i => slotVec order sVecs nCi nPi psv (slots.getD (t * nPo + i) none)
  else none

def getScore (fp : Fp) (sVecss : List (List SupVec)) (t i : ℕ) : ℚ :=
  let sv := (sVecss.getD t []).getD i ∅
  if sv.card = 0 then 0
  else (List.range t).foldl (fun ret tt => fp.rnd (ret + fp.rnd
    ((sv ∩ (sVecss.getD tt []).getD i ∅).card * fp.pow (t - tt - 1)))) 0

/-- The loop over `j` with `maxScore` and `maxIdx`, and the assertion after it. -/
def pickMax (score : ℕ → ℚ) (i nPo : ℕ) : Option ℕ :=
  let r := (List.range' i (nPo - i)).foldl (fun (acc : ℚ × Option ℕ) j =>
    if acc.1 < score j then (score j, some j) else acc) (-1, none)
  if 0 ≤ r.1 then r.2 else none

/-- `swap(l[i], l[j])`. -/
def swapAt {α : Type} (l : List α) (i j : ℕ) (d : α) : List α :=
  (l.set i (l.getD j d)).set j (l.getD i d)

/-- The body of the loop over `t` and `i`. -/
def swapStep (fp : Fp) (s : List (Option ℕ) × List (List SupVec)) (x : ℕ × ℕ) :
    Option (List (Option ℕ) × List (List SupVec)) := do
  let (t, i) := x
  let maxIdx ← pickMax (getScore fp s.2 t) i nPo
  if maxIdx ≠ i then
    return (swapAt s.1 (t * nPo + i) (t * nPo + maxIdx) none,
      s.2.modify t fun row => swapAt row i maxIdx ∅)
  else return s

/-- The slots after the exchanges. -/
def swapSlots (fp : Fp) (slots : List (Option ℕ)) : Option (List (Option ℕ)) := do
  let sVecss ← (List.range nTimeFrame).mapM (frameVecs order sVecs nCi nPi nPo slots)
  let rounds := (List.range' 1 (nTimeFrame - 1)).flatMap fun t =>
    (List.range nPo).map fun i => (t, i)
  let (slots, _) ← rounds.foldlM (swapStep nPo fp) (slots, sVecss)
  return slots

/-- `reordPO`. -/
def reordPO (fp : Fp) (slots : List (Option ℕ)) (oPerm : List ℤ) : Option (List ℤ) := do
  let slots ← swapSlots order sVecs nTimeFrame nCi nPi nPo fp slots
  let oPerm := readSlots slots oPerm
  if checkPerm oPerm (nPo * nTimeFrame) then return oPerm else none

end Model

/-- What `reordIO` leaves behind: the number of output pins, the two permutation arrays, which
hold indices once they have passed their checks, and the order of the BDD manager. -/
structure Schedule where
  nPo : ℕ
  iPerm : List ℕ
  oPerm : List ℕ
  order : List ℕ

/-- `reordIO`; `manual` are the fixed schedules of `manualReord`. -/
def reordIO (sort : CountSort) (ro : Reorder) (fp : Fp) (manual : ℕ → Option Schedule)
    (sVecs : List SupVec) (nCi nTimeFrame : ℕ) (oPerm : List ℤ) (expConfig : ℕ) :
    Option Schedule := do
  let nPo := ceilQuot 24 sVecs.length nTimeFrame
  let nPi := nCi / nTimeFrame
  if 4 ≤ expConfig ∧ expConfig ≤ 8 then manual expConfig
  else
    let (nPo, slots, oPerm) ← (schedulePO sort sVecs nTimeFrame nPi nPo oPerm).toOption
    let (iPerm, order) ← schedulePI ro sVecs nTimeFrame nCi nPo slots expConfig
    if expConfig = 0 ∨ expConfig = 1 then
      let oPerm ← reordPO order sVecs nTimeFrame nCi nPi nPo fp slots oPerm
      return ⟨nPo, iPerm, oPerm.map Int.toNat, order⟩
    else return ⟨nPo, iPerm, oPerm.map Int.toNat, order⟩

/-! ## The supports relative to a frame -/

section Frame

variable {order : List ℕ} {sVecs : List SupVec} {T nCi nPi nPo : ℕ} {slots : List (Option ℕ)}

theorem readSup_eq {t : ℕ} (h : t * nPi ≤ order.length) :
    readSup order nPi t = (order.take (t * nPi)).toFinset := by
  induction t with
  | zero => simp [readSup]
  | succ t ih =>
      have hmul : (t + 1) * nPi = t * nPi + nPi := by ring
      rw [readSup, ih (by omega), hmul, List.take_add, List.toFinset_append]
      congr 2
      apply List.ext_getElem
      · simp
        omega
      · intro i hi hi'
        simp only [List.length_map, List.length_range] at hi
        rw [List.getElem_map, List.getElem_range, List.getElem_take, List.getElem_drop,
          List.getD_eq_getElem]

theorem card_readSup (hnd : order.Nodup) {t : ℕ} (h : t * nPi ≤ order.length) :
    (readSup order nPi t).card = nPi * t := by
  rw [readSup_eq h, List.toFinset_card_of_nodup (hnd.sublist (List.take_sublist _ _)),
    List.length_take, min_eq_left h, Nat.mul_comm]

theorem mem_readSup (hnd : order.Nodup) {t j : ℕ} (h : t * nPi ≤ order.length) (hj : j ∈ order) :
    j ∈ readSup order nPi t ↔ order.idxOf j < t * nPi := by
  have hidx := List.idxOf_lt_length_of_mem hj
  rw [readSup_eq h, List.mem_toFinset, List.mem_take_iff_getElem]
  constructor
  · rintro ⟨i, hi, rfl⟩
    rw [hnd.idxOf_getElem]
    exact hi.trans_le (min_le_left _ _)
  · intro hlt
    exact ⟨order.idxOf j, lt_min hlt hidx, List.getElem_idxOf hidx⟩

/-- The remaining inputs of an output in frame `t` are inputs of frame `t`, on different pins. -/
theorem slotVec_spec (hnd : order.Nodup) {t : ℕ} (h : t * nPi ≤ order.length) {x : Option ℕ}
    (hx : ∀ o, x = some o → ∀ j ∈ sVecs.getD o ∅,
      j ∈ order ∧ order.idxOf j < (t + 1) * nPi) :
    ∃ v, slotVec order sVecs nCi nPi (readSup order nPi t) x = some v := by
  cases x with
  | none => exact ⟨∅, rfl⟩
  | some o =>
      have hmul : (t + 1) * nPi = t * nPi + nPi := by ring
      set sv := symmDiff (sVecs.getD o ∅) (readSup order nPi t ∩ sVecs.getD o ∅) with hsv
      have hmem : ∀ j ∈ sv, j ∈ order ∧ t * nPi ≤ order.idxOf j ∧
          order.idxOf j < (t + 1) * nPi := by
        intro j hj
        rw [hsv, Finset.mem_symmDiff, Finset.mem_inter] at hj
        rcases hj with ⟨hj, hnot⟩ | ⟨⟨-, hj⟩, hnot⟩
        · obtain ⟨hord, hlt⟩ := hx o rfl j hj
          refine ⟨hord, Nat.le_of_not_lt fun hlt' => hnot ⟨?_, hj⟩, hlt⟩
          exact (mem_readSup hnd h hord).mpr hlt'
        · exact absurd hj hnot
      have hinj : ∀ j ∈ sv, ∀ j' ∈ sv, order.idxOf j % nPi = order.idxOf j' % nPi → j = j' := by
        intro j hj j' hj' heq
        obtain ⟨hord, hge, hlt⟩ := hmem j hj
        obtain ⟨-, hge', hlt'⟩ := hmem j' hj'
        have hmod : ∀ n, t * nPi ≤ n → n < (t + 1) * nPi → n % nPi = n - t * nPi := by
          intro n hn hn'
          obtain ⟨k, rfl⟩ := Nat.exists_eq_add_of_le hn
          rw [Nat.add_comm, Nat.add_mul_mod_self_right, Nat.mod_eq_of_lt (by omega),
            Nat.add_sub_cancel]
        rw [hmod _ hge hlt, hmod _ hge' hlt'] at heq
        exact (List.idxOf_inj hord).mp (by omega)
      have hcard : sv.card ≤ nPi := by
        have := Finset.card_le_card_of_injOn (s := sv) (t := Finset.range nPi)
          (fun j => order.idxOf j % nPi) (fun j hj => ?_) (fun j hj j' hj' => hinj j hj j' hj')
        · simpa using this
        · obtain ⟨-, hge, hlt⟩ := hmem j hj
          exact Finset.mem_coe.mpr (Finset.mem_range.mpr (Nat.mod_lt _ (by omega)))
      obtain ⟨v, hv, -⟩ := foldlM_some (l := (List.range nCi).filter (· ∈ sv)) (b := (∅ : SupVec))
        (f := fun cur j =>
          let pos := order.idxOf j % nPi
          if pos ∈ cur then none else some (insert pos cur))
        (fun pre cur => ∀ q, q ∈ cur ↔ ∃ j ∈ pre, order.idxOf j % nPi = q) (by
        intro pre j post cur hl hI
        have hnd' : (pre ++ j :: post).Nodup := by
          rw [hl]
          exact List.nodup_range.filter _
        have hin : ∀ k ∈ pre ++ j :: post, k ∈ sv := by
          intro k hk
          rw [hl, List.mem_filter] at hk
          simpa using hk.2
        have hnew : order.idxOf j % nPi ∉ cur := by
          rw [hI]
          rintro ⟨k, hk, heq⟩
          have hkj := hinj k (hin k (by simp [hk])) j (hin j (by simp)) heq
          exact (List.nodup_append.mp hnd').2.2 k hk j (by simp) hkj
        refine ⟨_, if_neg hnew, fun q => ?_⟩
        rw [Finset.mem_insert, hI]
        constructor
        · rintro (rfl | ⟨k, hk, rfl⟩)
          · exact ⟨j, by simp, rfl⟩
          · exact ⟨k, by simp [hk], rfl⟩
        · rintro ⟨k, hk, rfl⟩
          rcases List.mem_append.mp hk with hk | hk
          · exact Or.inr ⟨k, hk, rfl⟩
          · obtain rfl : k = j := by simpa using hk
            exact Or.inl rfl) (by simp)
      refine ⟨v, ?_⟩
      rw [slotVec]
      simp only
      rw [if_neg (Nat.not_lt.mpr hcard)]
      exact hv

end Frame

/-! ## Exchanging outputs of a frame -/

/-- `slots'` arises from `slots` by permuting positions inside the frames. -/
def SameFrames (nPo : ℕ) (slots slots' : List (Option ℕ)) : Prop :=
  slots'.length = slots.length ∧
    ∃ σ : Equiv.Perm ℕ, (∀ p, σ p / nPo = p / nPo) ∧ ∀ p o, At slots' p o ↔ At slots (σ p) o

theorem SameFrames.refl (nPo : ℕ) (slots : List (Option ℕ)) : SameFrames nPo slots slots :=
  ⟨rfl, 1, fun _ => rfl, fun _ _ => Iff.rfl⟩

theorem SameFrames.trans {nPo : ℕ} {s₁ s₂ s₃ : List (Option ℕ)} (h : SameFrames nPo s₁ s₂)
    (h' : SameFrames nPo s₂ s₃) : SameFrames nPo s₁ s₃ := by
  obtain ⟨hlen, σ, hσ, hat⟩ := h
  obtain ⟨hlen', τ, hτ, hat'⟩ := h'
  refine ⟨hlen'.trans hlen, σ * τ, fun p => ?_, fun p o => ?_⟩
  · rw [Equiv.Perm.mul_apply, hσ, hτ]
  · rw [hat', hat, Equiv.Perm.mul_apply]

theorem at_swapAt {slots : List (Option ℕ)} {i j : ℕ} (hi : i < slots.length)
    (hj : j < slots.length) (p o : ℕ) :
    At (swapAt slots i j none) p o ↔ At slots (Equiv.swap i j p) o := by
  unfold At swapAt
  rw [List.getD_eq_getElem _ _ hi, List.getD_eq_getElem _ _ hj]
  by_cases hpj : p = j
  · subst hpj
    rw [Equiv.swap_apply_right, List.getElem?_set_self (by simpa using hj),
      List.getElem?_eq_getElem hi]
  · rw [List.getElem?_set_ne (Ne.symm hpj)]
    by_cases hpi : p = i
    · subst hpi
      rw [Equiv.swap_apply_left, List.getElem?_set_self hi, List.getElem?_eq_getElem hj]
    · rw [Equiv.swap_apply_of_ne_of_ne hpi hpj, List.getElem?_set_ne (Ne.symm hpi)]

theorem sameFrames_swapAt {nPo : ℕ} {slots : List (Option ℕ)} {i j : ℕ} (hi : i < slots.length)
    (hj : j < slots.length) (hframe : i / nPo = j / nPo) :
    SameFrames nPo slots (swapAt slots i j none) := by
  refine ⟨by simp [swapAt], Equiv.swap i j, fun p => ?_, at_swapAt hi hj⟩
  by_cases hpi : p = i
  · rw [hpi, Equiv.swap_apply_left, hframe]
  · by_cases hpj : p = j
    · rw [hpj, Equiv.swap_apply_right, hframe]
    · rw [Equiv.swap_apply_of_ne_of_ne hpi hpj]

/-- Outputs keep being placed exactly once. -/
theorem SameFrames.placed {nPo : ℕ} {slots slots' : List (Option ℕ)} {l : List ℕ}
    (h : SameFrames nPo slots slots') (hp : Placed slots l) : Placed slots' l := by
  obtain ⟨-, σ, -, hat⟩ := h
  refine ⟨fun h => hp.mem ((hat _ _).mp h), fun o ho => ?_, fun h h' => ?_⟩
  · obtain ⟨p, hpo⟩ := hp.exists_at o ho
    refine ⟨σ.symm p, (hat _ _).mpr ?_⟩
    rwa [Equiv.apply_symm_apply]
  · exact σ.injective (hp.inj ((hat _ _).mp h) ((hat _ _).mp h'))

/-- Scores are not negative, so the first one already beats `-1`. -/
theorem getScore_nonneg (fp : Fp) (sVecss : List (List SupVec)) (t i : ℕ) :
    0 ≤ getScore fp sVecss t i := by
  unfold getScore
  simp only
  split
  · exact le_rfl
  · apply foldl_inv (fun _ ret => 0 ≤ ret)
    · intro _ tt _ ret _ h
      apply fp.rnd_nonneg
      have hcard : (0 : ℚ) ≤ (((sVecss.getD t []).getD i ∅) ∩ (sVecss.getD tt []).getD i ∅).card :=
        Nat.cast_nonneg _
      have := fp.rnd_nonneg _ (mul_nonneg hcard (fp.pow_nonneg (t - tt - 1)))
      exact add_nonneg h this
    · exact le_rfl

theorem pickMax_spec {score : ℕ → ℚ} (hscore : ∀ j, 0 ≤ score j) {i nPo : ℕ} (hi : i < nPo) :
    ∃ m, pickMax score i nPo = some m ∧ i ≤ m ∧ m < nPo := by
  unfold pickMax
  simp only
  have hinv := foldl_inv (l := List.range' i (nPo - i)) (b := ((-1 : ℚ), (none : Option ℕ)))
    (f := fun (acc : ℚ × Option ℕ) j => if acc.1 < score j then (score j, some j) else acc)
    (fun pre acc => (pre = [] → acc = (-1, none)) ∧
      (pre ≠ [] → 0 ≤ acc.1 ∧ ∃ m, acc.2 = some m ∧ i ≤ m ∧ m < nPo)) ?_ (by simp)
  · have hne : List.range' i (nPo - i) ≠ [] := by
      rw [Ne, List.range'_eq_nil_iff]
      omega
    obtain ⟨hge, m, hm, hle, hlt⟩ := hinv.2 hne
    exact ⟨m, by rw [if_pos hge, hm], hle, hlt⟩
  · intro pre j post acc hl ⟨hnil, hcons⟩
    refine ⟨by simp, fun _ => ?_⟩
    have hj : i ≤ j ∧ j < nPo := by
      have : j ∈ List.range' i (nPo - i) := by rw [← hl]; simp
      rw [List.mem_range'_1] at this
      omega
    by_cases hlt : acc.1 < score j
    · rw [if_pos hlt]
      exact ⟨hscore j, j, rfl, hj⟩
    · rw [if_neg hlt]
      apply hcons
      rintro rfl
      rw [hnil rfl] at hlt
      exact hlt (lt_of_lt_of_le (by norm_num) (hscore j))

section Swap

variable {order : List ℕ} {sVecs : List SupVec} {T nCi nPi nPo : ℕ} {slots : List (Option ℕ)}

theorem swapStep_spec (fp : Fp) {s : List (Option ℕ) × List (List SupVec)} {t i : ℕ}
    (hlen : s.1.length = nPo * T) (ht : t < T) (hi : i < nPo) :
    ∃ s', swapStep nPo fp s (t, i) = some s' ∧ SameFrames nPo s.1 s'.1 := by
  obtain ⟨m, hm, him, hmlt⟩ := pickMax_spec (getScore_nonneg fp s.2 t) hi
  unfold swapStep
  simp only [hm, Option.bind_eq_bind, Option.bind_some]
  split
  · refine ⟨_, rfl, ?_⟩
    have hbound : ∀ k < nPo, t * nPo + k < s.1.length ∧ (t * nPo + k) / nPo = t := by
      intro k hk
      constructor
      · calc t * nPo + k < (t + 1) * nPo := by rw [Nat.add_mul]; omega
          _ ≤ T * nPo := Nat.mul_le_mul_right _ ht
          _ = s.1.length := by rw [hlen, Nat.mul_comm]
      · rw [Nat.mul_comm, Nat.mul_add_div (by omega), Nat.div_eq_of_lt hk, Nat.add_zero]
    obtain ⟨hi₁, hi₂⟩ := hbound i hi
    obtain ⟨hm₁, hm₂⟩ := hbound m hmlt
    exact sameFrames_swapAt hi₁ hm₁ (hi₂.trans hm₂.symm)
  · exact ⟨s, rfl, SameFrames.refl _ _⟩

/-- `reordPO` passes its assertions and exchanges outputs of the same frame only. -/
theorem swapSlots_spec (fp : Fp) (hord : order.Perm (List.range (nPi * T)))
    (hs : Slots sVecs T nPi nPo slots)
    (hlevel : ∀ p o, At slots p o → ∀ j ∈ sVecs.getD o ∅,
      j ∈ order ∧ order.idxOf j < (p / nPo + 1) * nPi) :
    ∃ slots', swapSlots order sVecs T (nPi * T) nPi nPo fp slots = some slots' ∧
      SameFrames nPo slots slots' := by
  have hnd : order.Nodup := hord.nodup_iff.mpr List.nodup_range
  have hlen : order.length = nPi * T := by simpa using hord.length_eq
  have hframe : ∀ t < T, ∃ v, frameVecs order sVecs (nPi * T) nPi nPo slots t = some v := by
    intro t ht
    have hle : t * nPi ≤ order.length := by
      rw [hlen, Nat.mul_comm]
      exact Nat.mul_le_mul_left _ ht.le
    unfold frameVecs
    simp only
    rw [if_pos (card_readSup hnd hle)]
    apply mapM_some
    intro i hi
    rw [List.mem_range] at hi
    refine slotVec_spec hnd hle fun o ho j hj => ?_
    have hat : At slots (t * nPo + i) o := by
      unfold At
      cases hg : slots[t * nPo + i]? with
      | none => simp [List.getD, hg] at ho
      | some x => simpa [List.getD, hg] using ho
    have hdiv : (t * nPo + i) / nPo = t := by
      rw [Nat.mul_comm, Nat.mul_add_div (by omega), Nat.div_eq_of_lt hi, Nat.add_zero]
    have := hlevel _ o hat j hj
    rwa [hdiv] at this
  obtain ⟨sVecss, hvecs⟩ := mapM_some (l := List.range T)
    (f := frameVecs order sVecs (nPi * T) nPi nPo slots)
    fun t ht => hframe t (List.mem_range.mp ht)
  obtain ⟨s', hrun, hsame⟩ := foldlM_some
    (l := (List.range' 1 (T - 1)).flatMap fun t => (List.range nPo).map fun i => (t, i))
    (f := swapStep nPo fp) (b := (slots, sVecss)) (fun _ s => SameFrames nPo slots s.1) (by
      rintro pre ⟨t, i⟩ post s hl hI
      have hmem : (t, i) ∈ (List.range' 1 (T - 1)).flatMap fun t =>
          (List.range nPo).map fun i => (t, i) := by rw [← hl]; simp
      obtain ⟨t', ht', hi'⟩ := List.mem_flatMap.mp hmem
      obtain ⟨i', hi', heq⟩ := List.mem_map.mp hi'
      cases heq
      rw [List.mem_range'_1] at ht'
      obtain ⟨s', hstep, hsame⟩ := swapStep_spec fp (hI.1.trans hs.length)
        (show t < T by omega) (List.mem_range.mp hi')
      exact ⟨s', hstep, hI.trans hsame⟩) (SameFrames.refl _ _)
  exact ⟨s'.1, by simp [swapSlots, hvecs, hrun], hsame⟩

end Swap

/-! ## The schedule -/

/-- What the checks of the schedule establish. -/
structure Schedule.Checked (r : Schedule) (sVecs : List SupVec) (nPi T : ℕ) : Prop where
  order : r.order.Perm (List.range (nPi * T))
  iPerm_eq : ∀ j < nPi * T, r.iPerm.getD j 0 = r.order.idxOf j
  iPerm : r.iPerm.Perm (List.range (nPi * T))
  oPerm_length : r.oPerm.length = sVecs.length
  oPerm_nodup : r.oPerm.Nodup
  oPerm_lt : ∀ c ∈ r.oPerm, c < r.nPo * T

/-- No output is emitted before one of its inputs has arrived. -/
def Schedule.Causal (r : Schedule) (sVecs : List SupVec) (nPi : ℕ) : Prop :=
  ∀ o < sVecs.length, ∀ j ∈ sVecs.getD o ∅, r.iPerm.getD j 0 / nPi ≤ r.oPerm.getD o 0 / r.nPo

section

variable {sVecs : List SupVec} {nPi T nPo : ℕ} {slots : List (Option ℕ)} {order : List ℕ}

theorem getD_levels {n j : ℕ} (hj : j < n) :
    ((List.range n).map fun i => order.idxOf i).getD j 0 = order.idxOf j := by
  rw [List.getD_eq_getElem _ _ (by simpa using hj), List.getElem_map, List.getElem_range]

/-- The arrays read off the order and the slots. -/
theorem schedule_causal (hnPi : 1 ≤ nPi) (hord : order.Perm (List.range (nPi * T)))
    (hsize : slots.length ≤ 2 ^ 31) (hplaced : Placed slots (List.range sVecs.length))
    (hlevel : ∀ p o, At slots p o → ∀ j ∈ sVecs.getD o ∅,
      j ∈ order ∧ order.idxOf j < (p / nPo + 1) * nPi) {oPerm : List ℤ}
    (holen : oPerm.length = sVecs.length) :
    Schedule.Causal ⟨nPo, (List.range (nPi * T)).map fun i => order.idxOf i,
      (readSlots slots oPerm).map Int.toNat, order⟩ sVecs nPi := by
  obtain ⟨l, hl, -, hat⟩ := readSlots_eq hplaced hsize holen
  intro o ho j hj
  obtain ⟨p, hp⟩ := hplaced.exists_at o (List.mem_range.mpr ho)
  obtain ⟨hjo, hlt⟩ := hlevel p o hp j hj
  have hj' : j < nPi * T := List.mem_range.mp (hord.mem_iff.mp hjo)
  have hslot : ((readSlots slots oPerm).map Int.toNat).getD o 0 = p := by
    rw [hl, map_toNat_natCast, List.getD, (hat p o).mpr hp, Option.getD_some]
  show ((List.range (nPi * T)).map fun i => order.idxOf i).getD j 0 / nPi ≤
    ((readSlots slots oPerm).map Int.toNat).getD o 0 / nPo
  rw [getD_levels hj', hslot]
  apply Nat.le_of_lt_succ
  rwa [Nat.div_lt_iff_lt_mul hnPi]

end

/-! ## Runs that end -/

theorem schedulePO_inv {sort : CountSort} {sVecs : List SupVec} {T nPi nPo₀ nPo : ℕ}
    {oPerm oPerm' : List ℤ} {slots : List (Option ℕ)}
    (h : schedulePO sort sVecs T nPi nPo₀ oPerm = .ok (nPo, slots, oPerm')) :
    oPerm'.length = oPerm.length ∧ checkPerm oPerm' (nPo * T) = true := by
  obtain ⟨⟨k, sl⟩, -, h⟩ := Uint.bind_ok h
  obtain ⟨n, hn, h⟩ := Uint.bind_ok h
  obtain ⟨_, hcheck, h⟩ := Uint.bind_ok h
  cases h
  rw [Uint.mul_ok hn] at hcheck
  exact ⟨length_readSlots _ _, Uint.check_ok hcheck⟩

theorem reordPO_inv {order : List ℕ} {sVecs : List SupVec} {T nCi nPi nPo : ℕ} {fp : Fp}
    {slots : List (Option ℕ)} {oPerm oPerm' : List ℤ}
    (h : reordPO order sVecs T nCi nPi nPo fp slots oPerm = some oPerm') :
    oPerm'.length = oPerm.length ∧ checkPerm oPerm' (nPo * T) = true := by
  obtain ⟨slots', -, h⟩ := Option.bind_eq_some_iff.mp h
  by_cases hcheck : checkPerm (readSlots slots' oPerm) (nPo * T) = true
  · simp only [hcheck, if_true] at h
    cases h
    exact ⟨length_readSlots _ _, hcheck⟩
  · simp only [hcheck] at h
    cases h

/-- A schedule that is returned has been checked. -/
theorem reordIO_checked {sort : CountSort} {ro : Reorder} {fp : Fp} {manual : ℕ → Option Schedule}
    {sVecs : List SupVec} {nPi T : ℕ} (hT : 1 ≤ T)
    (hsup : ∀ o, sVecs.getD o ∅ ⊆ Finset.range (nPi * T)) {oPerm : List ℤ}
    (hlen : oPerm.length = sVecs.length) {expConfig : ℕ} (hcfg : expConfig ≤ 3) {r : Schedule}
    (h : reordIO sort ro fp manual sVecs (nPi * T) T oPerm expConfig = some r) :
    r.Checked sVecs nPi T := by
  have hdiv : nPi * T / T = nPi := Nat.mul_div_cancel _ hT
  have key : ∀ {nPo : ℕ} {order : List ℕ} {perm : List ℤ}, order.Perm (List.range (nPi * T)) →
      perm.length = oPerm.length → checkPerm perm (nPo * T) = true →
      Schedule.Checked ⟨nPo, (List.range (nPi * T)).map fun i => order.idxOf i,
        perm.map Int.toNat, order⟩ sVecs nPi T := fun hord hperm hcheck =>
    ⟨hord, fun _ => getD_levels, levels_perm hord, by rw [List.length_map, hperm, hlen],
      (checkPerm_toNat hcheck).1, (checkPerm_toNat hcheck).2⟩
  unfold reordIO at h
  simp only [hdiv] at h
  rw [if_neg (by omega)] at h
  obtain ⟨⟨nPo, slots, oPerm₁⟩, hpo, h⟩ := Option.bind_eq_some_iff.mp h
  obtain ⟨⟨iPerm, order⟩, hpi, h⟩ := Option.bind_eq_some_iff.mp h
  obtain ⟨hlen₁, hcheck₁⟩ := schedulePO_inv (Uint.toOption_some hpo)
  obtain ⟨rfl, hord⟩ := schedulePI_inv hsup hpi
  simp only at h
  split at h
  · obtain ⟨oPerm₂, hreord, h⟩ := Option.bind_eq_some_iff.mp h
    obtain ⟨hlen₂, hcheck₂⟩ := reordPO_inv hreord
    cases h
    exact key hord.perm (hlen₂.trans hlen₁) hcheck₂
  · cases h
    exact key hord.perm hlen₁ hcheck₁

/-! ## Runs that pass -/

/-- The sizes that the schedule can count: the float ceilings are exact, and some placement of
the outputs has slots whose numbers are `int`s. -/
structure InRange (sort : CountSort) (sVecs : List SupVec) (nPi T : ℕ) : Prop where
  ceil : CeilExact nPi T sVecs.length
  inputs : nPi * T ≤ 2 ^ 31
  slots : ∃ c frame, IsPlacement sVecs (sort.run sVecs) T nPi c frame ∧ c * T ≤ 2 ^ 31

theorem getD_subset {sVecs : List SupVec} {I : Finset ℕ} (hsup : ∀ s ∈ sVecs, s ⊆ I) (o : ℕ) :
    sVecs.getD o ∅ ⊆ I := by
  rcases Nat.lt_or_ge o sVecs.length with ho | ho
  · rw [List.getD_eq_getElem _ _ ho]
    exact hsup _ (List.getElem_mem ho)
  · rw [List.getD_eq_default _ _ ho]
    exact Finset.empty_subset _

/-- Small counts are in range: the last frame takes every output. -/
theorem InRange.of_lt (sort : CountSort) {sVecs : List SupVec} {nPi T : ℕ} (hT : 1 ≤ T)
    (hnPi : 1 ≤ nPi) (hsup : ∀ s ∈ sVecs, s ⊆ Finset.range (nPi * T)) (hci : nPi * T < 2 ^ 24)
    (hco : sVecs.length < 2 ^ 24) (hslots : sVecs.length * T ≤ 2 ^ 31) :
    InRange sort sVecs nPi T where
  ceil := CeilExact.of_lt hT hnPi hci hco
  inputs := hci.le.trans (by norm_num)
  slots := ⟨_, _, isPlacement_last hT (getD_subset hsup) _, hslots⟩

/-- `reordIO` passes its assertions and returns a causal schedule. -/
theorem reordIO_ok (sort : CountSort) (ro : Reorder) (fp : Fp)
    (manual : ℕ → Option Schedule) {sVecs : List SupVec} {nPi T : ℕ} (hT : 1 ≤ T) (hnPi : 1 ≤ nPi)
    (hne : sVecs ≠ []) (hsup : ∀ o, sVecs.getD o ∅ ⊆ Finset.range (nPi * T))
    (hrange : InRange sort sVecs nPi T) {oPerm : List ℤ} (hlen : oPerm.length = sVecs.length)
    {expConfig : ℕ} (hcfg : expConfig ≤ 3) :
    ∃ r, reordIO sort ro fp manual sVecs (nPi * T) T oPerm expConfig = some r ∧
      r.Causal sVecs nPi := by
  obtain ⟨c, frame, hframe, hc⟩ := hrange.slots
  obtain ⟨nPo, slots, hpo, hle, -, hslots, -⟩ :=
    schedulePO_spec hT hnPi hrange.ceil hne hsup sort hlen ⟨frame, hframe⟩ hc
  have hsize : nPo * T ≤ 2 ^ 31 := (Nat.mul_le_mul_right T hle).trans hc
  obtain ⟨iPerm, order, hpi⟩ := schedulePI_some T nPo slots ro hsup hrange.inputs expConfig
  obtain ⟨rfl, hord⟩ := schedulePI_inv hsup hpi
  have hlevel : ∀ p o, At slots p o → ∀ j ∈ sVecs.getD o ∅,
      j ∈ order ∧ order.idxOf j < (p / nPo + 1) * nPi := by
    intro p o hp j hj
    refine ⟨?_, hord.level_lt hslots hsup hp hj⟩
    rw [hord.perm.mem_iff, List.mem_range]
    exact Finset.mem_range.mp (hsup o hj)
  have hrlen := (length_readSlots slots oPerm).trans hlen
  have hdiv : nPi * T / T = nPi := Nat.mul_div_cancel _ hT
  unfold reordIO
  simp only [hdiv]
  rw [if_neg (by omega), hpo]
  simp only [Except.toOption, Option.bind_eq_bind, Option.bind_some, hpi]
  split
  · obtain ⟨slots', hswap, hsame⟩ := swapSlots_spec fp hord.perm hslots hlevel
    have hplaced' := hsame.placed hslots.placed
    have hlen' : slots'.length = nPo * T := hsame.1.trans hslots.length
    have hcheck := checkPerm_readSlots hplaced' (hlen' ▸ hsize) hrlen
    rw [hlen'] at hcheck
    refine ⟨_, by simp only [reordPO, hswap, Option.bind_eq_bind, Option.bind_some, hcheck]; rfl,
      schedule_causal hnPi hord.perm (hlen' ▸ hsize) hplaced' (fun p o hp j hj => ?_) hrlen⟩
    obtain ⟨-, σ, hσ, hat⟩ := hsame
    have := hlevel (σ p) o ((hat p o).mp hp) j hj
    rwa [hσ] at this
  · exact ⟨_, rfl, schedule_causal hnPi hord.perm (hslots.length ▸ hsize) hslots.placed hlevel
      hlen⟩

/-- The schedule is causal: no assertion fails, `iPerm` permutes the inputs, `oPerm` is an
injection into the slots, and every input an output depends on arrives no later than the frame
in which the output is emitted. -/
theorem reordIO_causal (sort : CountSort) (ro : Reorder) (fp : Fp)
    (manual : ℕ → Option Schedule) {sVecs : List SupVec} {nPi T : ℕ} (hT : 1 ≤ T) (hnPi : 1 ≤ nPi)
    (hne : sVecs ≠ []) (hsup : ∀ s ∈ sVecs, s ⊆ Finset.range (nPi * T))
    (hrange : InRange sort sVecs nPi T) {oPerm : List ℤ} (hlen : oPerm.length = sVecs.length)
    {expConfig : ℕ} (hcfg : expConfig ≤ 3) :
    ∃ r, reordIO sort ro fp manual sVecs (nPi * T) T oPerm expConfig = some r ∧
      r.iPerm.Perm (List.range (nPi * T)) ∧
      r.oPerm.length = sVecs.length ∧ r.oPerm.Nodup ∧ (∀ c ∈ r.oPerm, c < r.nPo * T) ∧
      ∀ o < sVecs.length, ∀ j ∈ sVecs.getD o ∅,
        r.iPerm.getD j 0 / nPi ≤ r.oPerm.getD o 0 / r.nPo := by
  obtain ⟨r, hr, hcausal⟩ :=
    reordIO_ok sort ro fp manual hT hnPi hne (getD_subset hsup) hrange hlen hcfg
  have hok := reordIO_checked hT (getD_subset hsup) hlen hcfg hr
  exact ⟨r, hr, hok.iPerm, hok.oPerm_length, hok.oPerm_nodup, hok.oPerm_lt, hcausal⟩

/-- A manager that reverses the levels of a range. -/
def reverseRange : Reorder where
  run order lev size :=
    order.take lev ++ ((order.drop lev).take size).reverse ++ order.drop (lev + size)
  spec _ _ _ _ := ⟨_, rfl, List.reverse_perm _⟩

/-- Exact arithmetic with the ratio one half. -/
def exactFp : Fp where
  rnd x := x
  pow n := (1 / 2) ^ n
  rnd_nonneg _ h := h
  pow_nonneg n := by positivity

/-- Three outputs over four inputs in two frames. -/
theorem reordIO_three :
    ∃ r, reordIO countSort reverseRange exactFp (fun _ => none) [{0, 3}, {3}, {1, 2, 3}]
        (2 * 2) 2 [0, 0, 0] 0 = some r ∧
      r.iPerm.Perm (List.range (2 * 2)) ∧
      r.oPerm.length = 3 ∧ r.oPerm.Nodup ∧ (∀ c ∈ r.oPerm, c < r.nPo * 2) ∧
      ∀ o < 3, ∀ j ∈ ([{0, 3}, {3}, {1, 2, 3}] : List SupVec).getD o ∅,
        r.iPerm.getD j 0 / 2 ≤ r.oPerm.getD o 0 / r.nPo :=
  reordIO_causal countSort reverseRange exactFp (fun _ => none) (by decide) (by decide)
    (by decide) (by decide)
    (InRange.of_lt countSort (by decide) (by decide) (by decide) (by decide) (by decide)
      (by decide)) rfl (by decide)

theorem reordIO_full (sort : CountSort) (ro : Reorder) (fp : Fp) (manual : ℕ → Option Schedule)
    {n : ℕ} (hn : n < 2 ^ 24) (hge : 2 ^ 31 < n * n) (hlt : n * n < 2 ^ 32) {oPerm : List ℤ}
    (hlen : oPerm.length = n) {expConfig : ℕ} (hcfg : expConfig ≤ 3) :
    reordIO sort ro fp manual (fullSupVecs n) n n oPerm expConfig = none := by
  have hdiv : n / n = 1 := Nat.div_self (Nat.pos_of_ne_zero fun h => by simp [h] at hge)
  unfold reordIO
  simp only [hdiv, length_fullSupVecs]
  rw [if_neg (by omega), schedulePO_full sort hn hge hlt hlen]
  rfl

/-- `46341` outputs in as many frames, each of which needs every input, have the slots of one
frame only, and the last of these has a number that is no `int`. -/
theorem reordIO_46341 :
    schedulePO countSort (fullSupVecs 46341) 46341 1 (ceilQuot 24 46341 46341)
        (List.replicate 46341 0) = .error .assertion ∧
      reordIO countSort reverseRange exactFp (fun _ => none) (fullSupVecs 46341) 46341 46341
        (List.replicate 46341 0) 0 = none := by
  have hlen : (List.replicate 46341 (0 : ℤ)).length = 46341 := List.length_replicate
  exact ⟨schedulePO_full countSort (by norm_num) (by norm_num) (by norm_num) hlen,
    reordIO_full countSort reverseRange exactFp _ (by norm_num) (by norm_num) (by norm_num) hlen
      (Nat.zero_le 3)⟩

end ExtFolding.TimeMux2
