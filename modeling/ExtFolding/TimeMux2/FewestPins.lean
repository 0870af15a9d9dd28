import ExtFolding.TimeMux2.SchedulePO

/-!
# `schedulePO`: the number of output pins

The placement is greedy, and when it gives up on a number of pins no placement with that many
exists: the outputs from some position on all need late frames, and these have too few slots.
So the first number of pins that succeeds is the smallest one.
-/

namespace ExtFolding.TimeMux2

open ExtFolding.Rounding ExtFolding.Uint

/-! ## Placements -/

/-- A placement with `nPo` pins: `frame o` is the frame of output `o`. -/
structure IsPlacement (sVecs : List SupVec) (sIdx : List ℕ) (nTimeFrame nPi nPo : ℕ)
    (frame : ℕ → ℕ) : Prop where
  lt : ∀ o < sVecs.length, frame o < nTimeFrame
  pins : ∀ t, ((Finset.range sVecs.length).filter fun o => frame o = t).card ≤ nPo
  fits : ∀ i o, sIdx[i]? = some o →
    (unionSup sVecs (sIdx.take (i + 1))).card ≤ nPi * (frame o + 1)

theorem mem_unionSup {sVecs : List SupVec} {idxs : List ℕ} {j : ℕ} :
    j ∈ unionSup sVecs idxs ↔ ∃ o ∈ idxs, j ∈ sVecs.getD o ∅ := by
  induction idxs using List.reverseRecOn with
  | nil => simp [unionSup]
  | append_singleton idxs idx ih =>
      rw [unionSup_concat, Finset.mem_union, ih]
      constructor
      · rintro (⟨o, ho, hj⟩ | hj)
        · exact ⟨o, List.mem_append_left _ ho, hj⟩
        · exact ⟨idx, List.mem_append_right _ (List.mem_singleton_self idx), hj⟩
      · rintro ⟨o, ho, hj⟩
        rcases List.mem_append.mp ho with ho | ho
        · exact Or.inl ⟨o, ho, hj⟩
        · exact Or.inr (List.mem_singleton.mp ho ▸ hj)

theorem unionSup_take_subset (sVecs : List SupVec) (idxs : List ℕ) {i j : ℕ} (h : i ≤ j) :
    unionSup sVecs (idxs.take i) ⊆ unionSup sVecs (idxs.take j) := by
  intro k hk
  obtain ⟨o, ho, hk⟩ := mem_unionSup.mp hk
  exact mem_unionSup.mpr ⟨o, (List.take_prefix_take_left h).subset ho, hk⟩

theorem unionSup_subset {sVecs : List SupVec} {I : Finset ℕ} (hsup : ∀ o, sVecs.getD o ∅ ⊆ I)
    (idxs : List ℕ) : unionSup sVecs idxs ⊆ I := by
  intro j hj
  obtain ⟨o, -, hj⟩ := mem_unionSup.mp hj
  exact hsup o hj

/-- The outputs from position `i` on share the slots of the frames from the first one that is
late enough for it. -/
theorem IsPlacement.late {sVecs : List SupVec} {sIdx : List ℕ} {T nPi nPo : ℕ} {frame : ℕ → ℕ}
    (h : IsPlacement sVecs sIdx T nPi nPo frame) (hperm : sIdx.Perm (List.range sVecs.length))
    (hex : CeilExact nPi T sVecs.length) (hnPi : 1 ≤ nPi)
    (hsup : ∀ o, sVecs.getD o ∅ ⊆ Finset.range (nPi * T)) (i : ℕ) :
    sVecs.length - i ≤ nPo * (T - frameFor nPi (unionSup sVecs (sIdx.take (i + 1)))) := by
  have hnd : sIdx.Nodup := hperm.nodup_iff.mpr List.nodup_range
  have hmem : ∀ o ∈ sIdx, o < sVecs.length := fun o ho => List.mem_range.mp (hperm.mem_iff.mp ho)
  have hcard : (sIdx.drop i).toFinset.card = sVecs.length - i := by
    rw [List.toFinset_card_of_nodup (hnd.sublist (List.drop_sublist i sIdx)), List.length_drop,
      hperm.length_eq, List.length_range]
  rw [← hcard, ← Nat.card_Ico]
  apply Finset.card_le_mul_card_image_of_maps_to (f := frame)
  · intro o ho
    have ho := List.mem_toFinset.mp ho
    obtain ⟨k, hk⟩ := List.mem_iff_getElem?.mp ho
    rw [List.getElem?_drop] at hk
    rw [Finset.mem_Ico]
    refine ⟨frameFor_le hex hnPi (unionSup_subset hsup _) ?_,
      h.lt o (hmem o (List.mem_of_mem_drop ho))⟩
    exact (Finset.card_le_card (unionSup_take_subset sVecs sIdx (by omega))).trans
      (h.fits (i + k) o hk)
  · intro t _
    refine (Finset.card_le_card fun o ho => ?_).trans (h.pins t)
    obtain ⟨ho, hot⟩ := Finset.mem_filter.mp ho
    have ho := List.mem_of_mem_drop (List.mem_toFinset.mp ho)
    exact Finset.mem_filter.mpr ⟨Finset.mem_range.mpr (hmem o ho), hot⟩

/-- All slots together hold the outputs. -/
theorem IsPlacement.capacity {sVecs : List SupVec} {sIdx : List ℕ} {T nPi nPo : ℕ}
    {frame : ℕ → ℕ} (h : IsPlacement sVecs sIdx T nPi nPo frame) : sVecs.length ≤ nPo * T := by
  rw [← Finset.card_range sVecs.length, ← Finset.card_range T]
  refine Finset.card_le_mul_card_image_of_maps_to (f := frame) (fun o ho => ?_) nPo fun t _ =>
    h.pins t
  exact Finset.mem_range.mpr (h.lt o (Finset.mem_range.mp ho))

/-- The last frame takes every output. -/
theorem isPlacement_last {sVecs : List SupVec} {T nPi : ℕ} (hT : 1 ≤ T)
    (hsup : ∀ o, sVecs.getD o ∅ ⊆ Finset.range (nPi * T)) (sIdx : List ℕ) :
    IsPlacement sVecs sIdx T nPi sVecs.length fun _ => T - 1 := by
  refine ⟨fun _ _ => Nat.sub_lt hT Nat.one_pos, fun t => ?_, fun i o _ => ?_⟩
  · exact (Finset.card_filter_le _ _).trans (Finset.card_range _).le
  · rw [Nat.sub_add_cancel hT, ← Finset.card_range (nPi * T)]
    exact Finset.card_le_card (unionSup_subset hsup _)

/-! ## No counter wraps -/

section Counters

variable {sVecs : List SupVec} {T nPi nPo nCo : ℕ} {pre : List ℕ} {s : Cursor}
  (h : CursorInv sVecs T nPi nPo nCo pre s) (hcap : nCo ≤ nPo * T) (hlen : pre.length < nCo)
  (hsize : nPo * T < 2 ^ 32)
include h hcap hlen hsize

theorem placeAll_here {idx : ℕ} (hle : frameFor nPi (s.sv ∪ sVecs.getD idx ∅) ≤ s.ct1)
    (cap : ℕ) (rest : List ℕ) :
    placeAll sVecs T nPi nPo cap (idx :: rest) s =
      placeAll sVecs T nPi nPo cap rest (s.here sVecs nPo idx) := by
  obtain ⟨hct1, hq⟩ := h.inside hcap hlen
  have hpin := h.pin
  have hrow : nPo ≤ nPo * T := Nat.le_mul_of_pos_right nPo (Nat.zero_lt_of_lt hct1)
  have hframes : T ≤ nPo * T := Nat.le_mul_of_pos_left T (Nat.zero_lt_of_lt hpin)
  rw [placeAll]
  simp only [check_eq (And.intro hct1 hpin), ok_bind, if_pos hle,
    mul_eq (show s.ct1 * nPo < 2 ^ 32 by omega),
    add_eq (show s.ct1 * nPo + s.ct2 < 2 ^ 32 by omega),
    store_eq (show s.ct1 * nPo + s.ct2 < s.slots.length by rwa [h.length]),
    add_eq (show s.ct2 + 1 < 2 ^ 32 by omega), add_eq (show s.ct1 + 1 < 2 ^ 32 by omega)]
  rw [Cursor.here, apply_ite (placeAll sVecs T nPi nPo cap rest)]

theorem placeAll_skip {idx : ℕ} (hgt : s.ct1 < frameFor nPi (s.sv ∪ sVecs.getD idx ∅))
    (hT : frameFor nPi (s.sv ∪ sVecs.getD idx ∅) < T) (cap : ℕ) (rest : List ℕ) :
    placeAll sVecs T nPi nPo cap (idx :: rest) s =
      if cap < s.skipped nPo (frameFor nPi (s.sv ∪ sVecs.getD idx ∅)) then .ok none
      else placeAll sVecs T nPi nPo cap rest
        (s.skip sVecs nPo idx (frameFor nPi (s.sv ∪ sVecs.getD idx ∅))) := by
  obtain ⟨hct1, -⟩ := h.inside hcap hlen
  obtain ⟨-, hct2, -⟩ := h.skipped_eq hgt
  have hpin := h.pin
  have hpos := h.pos
  rw [placeAll]
  simp only [check_eq (And.intro hct1 hpin), ok_bind, if_neg (Nat.not_le.mpr hgt)]
  generalize frameFor nPi (s.sv ∪ sVecs.getD idx ∅) = t at hgt hT hct2 ⊢
  have hframes : T ≤ nPo * T := Nat.le_mul_of_pos_left T (Nat.zero_lt_of_lt hpin)
  have hend : t * nPo + nPo ≤ nPo * T := by
    rw [← Nat.succ_mul, Nat.mul_comm nPo]
    exact Nat.mul_le_mul_right _ hT
  have hskip : nPo * (t - s.ct1) + s.ct1 * nPo = t * nPo := by
    rw [Nat.mul_comm nPo, ← Nat.add_mul, Nat.sub_add_cancel hgt.le]
  simp only [sub_eq hgt.le, ok_bind, mul_eq (show nPo * (t - s.ct1) < 2 ^ 32 by omega),
    add_eq (show s.cnt + nPo * (t - s.ct1) < 2 ^ 32 by omega), sub_eq hct2,
    mul_eq (show t * nPo < 2 ^ 32 by omega),
    store_eq (show t * nPo < s.slots.length by rw [h.length]; omega),
    add_eq (show t + 1 < 2 ^ 32 by omega)]
  rw [Cursor.skip, apply_ite (placeAll sVecs T nPi nPo cap rest)]
  rfl

end Counters

/-! ## Runs -/

/-- Every output is in a slot of a frame that is late enough. -/
def Fits (sVecs : List SupVec) (sIdx : List ℕ) (nPi nPo : ℕ) (slots : List (Option ℕ)) : Prop :=
  ∀ i o p, sIdx[i]? = some o → At slots p o →
    (unionSup sVecs (sIdx.take (i + 1))).card ≤ nPi * (p / nPo + 1)

/-- After the outputs in `pre`: each of them is in a frame that is late enough. -/
structure FitInv (sVecs : List SupVec) (nPi nPo : ℕ) (pre : List ℕ) (s : Cursor) : Prop where
  sv : s.sv = unionSup sVecs pre
  fits : Fits sVecs pre nPi nPo s.slots

section Run

variable {sVecs : List SupVec} {T nPi nPo nCo : ℕ} {pre : List ℕ} {s s' : Cursor}

theorem FitInv.place (h : FitInv sVecs nPi nPo pre s) (hc : CursorInv sVecs T nPi nPo nCo pre s)
    (hex : CeilExact nPi T nCo) (hnPi : 1 ≤ nPi) {idx q : ℕ}
    (hnew : sVecs.getD idx ∅ ⊆ Finset.range (nPi * T)) (hidx : idx ∉ pre) (hq : q < nPo * T)
    (hframe : frameFor nPi (s.sv ∪ sVecs.getD idx ∅) * nPo ≤ q)
    (hslots : s'.slots = s.slots.set q (some idx)) (hsv : s'.sv = s.sv ∪ sVecs.getD idx ∅) :
    FitInv sVecs nPi nPo (pre ++ [idx]) s' := by
  have hunion : s'.sv = unionSup sVecs (pre ++ [idx]) := by rw [hsv, h.sv, unionSup_concat]
  refine ⟨hunion, fun i o p ho hp => ?_⟩
  rw [hslots, at_set (hc.length.symm ▸ hq)] at hp
  rcases Nat.lt_or_ge i pre.length with hi | hi
  · -- an output placed before
    rw [List.getElem?_append_left hi] at ho
    rw [List.take_append_of_le_length hi]
    rcases hp with ⟨-, rfl⟩ | ⟨-, hp⟩
    · exact absurd (List.mem_of_getElem? ho) hidx
    · exact h.fits i o p ho hp
  · rw [List.getElem?_append_right hi, List.getElem?_singleton] at ho
    split at ho
    · cases ho
      rcases hp with ⟨rfl, -⟩ | ⟨-, hp⟩
      · rw [List.take_of_length_le (by simpa using hi), ← hunion, hsv]
        calc (s.sv ∪ sVecs.getD idx ∅).card
            ≤ (frameFor nPi (s.sv ∪ sVecs.getD idx ∅) + 1) * nPi :=
              card_le_frameFor hex hnPi (Finset.union_subset hc.inputs hnew)
          _ ≤ (p / nPo + 1) * nPi := Nat.mul_le_mul_right _
              (Nat.succ_le_succ ((Nat.le_div_iff_mul_le (Nat.zero_lt_of_lt hc.pin)).mpr hframe))
          _ = nPi * (p / nPo + 1) := Nat.mul_comm _ _
      · exact absurd (hc.placed.mem hp) hidx
    · cases ho

/-- The loop neither wraps nor fails an assertion, and it breaks only when the frames left are
too few. -/
theorem placeAll_spec (hT : 1 ≤ T) (hnPi : 1 ≤ nPi) (hex : CeilExact nPi T nCo)
    (hcap : nCo ≤ nPo * T) (hsize : nPo * T < 2 ^ 32)
    (hsup : ∀ o, sVecs.getD o ∅ ⊆ Finset.range (nPi * T)) (rest : List ℕ)
    (h : CursorInv sVecs T nPi nPo nCo pre s) (hfit : FitInv sVecs nPi nPo pre s)
    (hnd : (pre ++ rest).Nodup) (hlen : (pre ++ rest).length = nCo) :
    ∃ r, placeAll sVecs T nPi nPo (nPo * T - nCo) rest s = .ok r ∧
      (r = none → ∃ i, nPo * (T - frameFor nPi (unionSup sVecs ((pre ++ rest).take (i + 1)))) <
        nCo - i) ∧
      ∀ slots, r = some slots → slots.length = nPo * T ∧ Placed slots (pre ++ rest) ∧
        Causal sVecs nPi nPo slots ∧ Fits sVecs (pre ++ rest) nPi nPo slots := by
  induction rest generalizing pre s with
  | nil =>
      refine ⟨_, rfl, fun h => (Option.some_ne_none _ h).elim, ?_⟩
      rintro slots ⟨⟩
      rw [List.append_nil]
      exact ⟨h.length, h.placed, h.causal, hfit.fits⟩
  | cons idx rest ih =>
      have hidx : idx ∉ pre := fun hmem =>
        (List.nodup_append.mp hnd).2.2 idx hmem idx (by simp) rfl
      have hlt : pre.length < nCo := by
        rw [← hlen, List.length_append, List.length_cons]
        omega
      have hfT : frameFor nPi (s.sv ∪ sVecs.getD idx ∅) < T :=
        frameFor_lt hex hnPi (Finset.union_subset h.inputs (hsup idx)) hT
      obtain ⟨hct1, hq⟩ := h.inside hcap hlt
      rw [List.append_cons] at hnd hlen ⊢
      by_cases hle : frameFor nPi (s.sv ∪ sVecs.getD idx ∅) ≤ s.ct1
      · rw [placeAll_here h hcap hlt hsize hle]
        refine ih (h.here hex hnPi hcap hlt (hsup idx) hidx hle) ?_ hnd hlen
        exact hfit.place h hex hnPi (hsup idx) hidx hq
          ((Nat.mul_le_mul_right _ hle).trans (Nat.le_add_right _ _))
          (s.here_slots idx) (s.here_sv idx)
      · have hgt := Nat.lt_of_not_le hle
        rw [placeAll_skip h hcap hlt hsize hgt hfT]
        obtain ⟨hskip, -, -⟩ := h.skipped_eq hgt
        have hlast : frameFor nPi (s.sv ∪ sVecs.getD idx ∅) * nPo < nPo * T := by
          rw [Nat.mul_comm nPo]
          exact Nat.mul_lt_mul_of_pos_right hfT (Nat.zero_lt_of_lt h.pin)
        split
        · next hbreak =>
            refine ⟨none, rfl, fun _ => ⟨pre.length, ?_⟩, fun slots hs => by cases hs⟩
            rw [List.append_assoc, List.singleton_append, List.append_cons,
              List.take_append_of_le_length (by simp), List.take_of_length_le (by simp),
              unionSup_concat, ← hfit.sv, Nat.mul_sub, Nat.mul_comm nPo (frameFor _ _)]
            omega
        · next hcnt =>
            refine ih (h.skip hex hnPi (hsup idx) hidx hgt hfT (Nat.le_of_not_lt hcnt)) ?_ hnd hlen
            exact hfit.place h hex hnPi (hsup idx) hidx hlast le_rfl (s.skip_slots idx _)
              (s.skip_sv idx _)

/-- The frames of the slots are a placement. -/
theorem Slots.isPlacement {slots : List (Option ℕ)} (hs : Slots sVecs T nPi nPo slots)
    {sIdx : List ℕ} (hperm : sIdx.Perm (List.range sVecs.length)) (hnPo : 0 < nPo)
    (hfits : Fits sVecs sIdx nPi nPo slots) {frame : ℕ → ℕ}
    (hframe : ∀ p o, At slots p o → frame o = p / nPo) :
    IsPlacement sVecs sIdx T nPi nPo frame := by
  have hat : ∀ o < sVecs.length, ∃ p, At slots p o := fun o ho =>
    hs.placed.exists_at o (List.mem_range.mpr ho)
  choose! slot hslot using hat
  refine ⟨fun o ho => ?_, fun t => ?_, fun i o ho => ?_⟩
  · rw [hframe _ o (hslot o ho), Nat.div_lt_iff_lt_mul hnPo, Nat.mul_comm T, ← hs.length]
    exact (hslot o ho).lt
  · -- the pins of the outputs of one frame differ
    rw [← Finset.card_range nPo]
    apply Finset.card_le_card_of_injOn (fun o => slot o % nPo)
    · intro o _
      exact Finset.mem_coe.mpr (Finset.mem_range.mpr (Nat.mod_lt _ hnPo))
    · intro o ho o' ho' hpin
      obtain ⟨ho, hot⟩ := Finset.mem_filter.mp ho
      obtain ⟨ho', hot'⟩ := Finset.mem_filter.mp ho'
      have hp := hslot o (Finset.mem_range.mp ho)
      have hp' := hslot o' (Finset.mem_range.mp ho')
      rw [hframe _ o hp] at hot
      rw [hframe _ o' hp'] at hot'
      have heq : slot o = slot o' := by
        rw [← Nat.div_add_mod (slot o) nPo, ← Nat.div_add_mod (slot o') nPo, hot, hot']
        exact congrArg _ hpin
      rw [← heq] at hp'
      exact Option.some.inj (Option.some.inj (hp.symm.trans hp'))
  · have ho' : o < sVecs.length :=
      List.mem_range.mp (hperm.mem_iff.mp (List.mem_of_getElem? ho))
    rw [hframe _ o (hslot o ho')]
    exact hfits i o _ ho (hslot o ho')

/-- A round of the `do` loop succeeds if and only if there is a placement. -/
theorem tryPlace_spec (hT : 1 ≤ T) (hnPi : 1 ≤ nPi) (hex : CeilExact nPi T sVecs.length)
    (hne : sVecs ≠ []) (hcap : sVecs.length ≤ nPo * T) (hsize : nPo * T < 2 ^ 32)
    (hsup : ∀ o, sVecs.getD o ∅ ⊆ Finset.range (nPi * T)) (sort : CountSort) :
    ∃ r, tryPlace sVecs T nPi nPo sVecs.length (sort.run sVecs) = .ok r ∧
      (r = none → ∀ frame, ¬ IsPlacement sVecs (sort.run sVecs) T nPi nPo frame) ∧
      ∀ slots, r = some slots → Slots sVecs T nPi nPo slots ∧
        Fits sVecs (sort.run sVecs) nPi nPo slots := by
  have hperm := sort.perm sVecs
  obtain ⟨r, hr, hbreak, hslots⟩ := placeAll_spec hT hnPi hex hcap hsize hsup (sort.run sVecs)
    (CursorInv.start sVecs T nPi sVecs.length (nPo_pos hne hcap))
    ⟨rfl, fun i o p ho _ => by simp at ho⟩
    (hperm.nodup_iff.mpr List.nodup_range) (by simpa using hperm.length_eq)
  refine ⟨r, ?_, fun hnone frame hframe => ?_, fun slots hs => ?_⟩
  · simp only [tryPlace, mul_eq hsize, sub_eq hcap, ok_bind, if_neg (sort.run_ne_nil hne), hr]
  · obtain ⟨i, hi⟩ := hbreak hnone
    exact Nat.not_le.mpr hi (hframe.late hperm hex hnPi hsup i)
  · obtain ⟨hlen, hplaced, hcausal, hfits⟩ := hslots slots hs
    refine ⟨⟨hlen, ⟨fun h => hperm.mem_iff.mp (hplaced.mem h), fun o ho => ?_, hplaced.inj⟩,
      hcausal⟩, hfits⟩
    exact hplaced.exists_at o (hperm.mem_iff.mpr ho)

/-- The loop counts up to the first number of pins with a placement. -/
theorem placeLoop_spec (hT : 1 ≤ T) (hnPi : 1 ≤ nPi) (hex : CeilExact nPi T sVecs.length)
    (hne : sVecs ≠ []) (hsup : ∀ o, sVecs.getD o ∅ ⊆ Finset.range (nPi * T)) (sort : CountSort)
    {c : ℕ} (hc : ∃ frame, IsPlacement sVecs (sort.run sVecs) T nPi c frame)
    (hsize : c * T < 2 ^ 32) (fuel : ℕ) (hcap : sVecs.length ≤ nPo * T)
    (hfuel : sVecs.length < fuel + nPo)
    (hbelow : ∀ k < nPo, ∀ frame, ¬ IsPlacement sVecs (sort.run sVecs) T nPi k frame) :
    ∃ nPo' slots,
      placeLoop sVecs T nPi sVecs.length (sort.run sVecs) fuel nPo = .ok (nPo', slots) ∧
      nPo ≤ nPo' ∧ nPo' ≤ c ∧ Slots sVecs T nPi nPo' slots ∧
      Fits sVecs (sort.run sVecs) nPi nPo' slots ∧
      ∀ k < nPo', ∀ frame, ¬ IsPlacement sVecs (sort.run sVecs) T nPi k frame := by
  have hlast := isPlacement_last hT hsup (sort.run sVecs)
  obtain ⟨frame, hframe⟩ := hc
  induction fuel generalizing nPo with
  | zero => exact absurd hlast (hbelow _ (by omega) _)
  | succ fuel ih =>
      have hle : nPo ≤ c := Nat.le_of_not_lt fun hlt => hbelow c hlt frame hframe
      have hlt : nPo * T < 2 ^ 32 := (Nat.mul_le_mul_right T hle).trans_lt hsize
      have hpins : nPo ≤ nPo * T := Nat.le_mul_of_pos_right nPo hT
      obtain ⟨r, hr, hnone, hslots⟩ := tryPlace_spec hT hnPi hex hne hcap hlt hsup sort
      cases r with
      | some slots =>
          obtain ⟨hs, hfits⟩ := hslots slots rfl
          exact ⟨nPo, slots, by simp only [placeLoop, hr, ok_bind]; rfl, le_rfl, hle, hs, hfits,
            hbelow⟩
      | none =>
          have hmore : nPo < c := Nat.lt_of_le_of_ne hle fun h => hnone rfl frame (h ▸ hframe)
          have hadd : nPo + 1 < 2 ^ 32 := by
            have hc : c ≤ c * T := Nat.le_mul_of_pos_right c hT
            omega
          obtain ⟨nPo', slots, hrun, hge, hrest⟩ := ih
            (hcap.trans (Nat.mul_le_mul_right _ (Nat.le_succ nPo))) (by omega) fun k hk => by
              rcases Nat.lt_succ_iff_lt_or_eq.mp hk with hk | rfl
              · exact hbelow k hk
              · exact hnone rfl
          refine ⟨nPo', slots, ?_, Nat.le_of_succ_le hge, hrest⟩
          simp only [placeLoop, hr, ok_bind, add_eq hadd]
          exact hrun

end Run

/-! ## The fewest pins -/

/-- The run of `schedulePO` in terms of its parts, if some placement has few enough slots. -/
theorem schedulePO_spec {sVecs : List SupVec} {T nPi : ℕ} (hT : 1 ≤ T) (hnPi : 1 ≤ nPi)
    (hex : CeilExact nPi T sVecs.length) (hne : sVecs ≠ [])
    (hsup : ∀ o, sVecs.getD o ∅ ⊆ Finset.range (nPi * T)) (sort : CountSort)
    {oPerm : List ℤ} (hlen : oPerm.length = sVecs.length) {c : ℕ}
    (hc : ∃ frame, IsPlacement sVecs (sort.run sVecs) T nPi c frame) (hsize : c * T ≤ 2 ^ 31) :
    ∃ nPo slots, schedulePO sort sVecs T nPi (ceilQuot 24 sVecs.length T) oPerm =
        .ok (nPo, slots, readSlots slots oPerm) ∧ nPo ≤ c ∧ 0 < nPo ∧ Slots sVecs T nPi nPo slots ∧
      Fits sVecs (sort.run sVecs) nPi nPo slots ∧
      ∀ k < nPo, ∀ frame, ¬ IsPlacement sVecs (sort.run sVecs) T nPi k frame := by
  have hfirst : sVecs.length ≤ ceilQuot 24 sVecs.length T * T := by
    rw [hex.pins]
    exact le_ceil_mul hT
  obtain ⟨nPo, slots, hrun, hge, hle, hslots, hrest⟩ := placeLoop_spec hT hnPi hex hne hsup sort
    hc (hsize.trans_lt (by norm_num)) (sVecs.length + 1) hfirst
    (Nat.lt_add_right _ (Nat.lt_succ_self _)) fun k hk frame' h => by
      rw [hex.pins] at hk
      exact Nat.not_le.mpr (mul_lt_of_lt_ceil hT hk) h.capacity
  have hcount : nPo * T ≤ 2 ^ 31 := (Nat.mul_le_mul_right T hle).trans hsize
  have hcheck := checkPerm_readSlots hslots.placed (hslots.length ▸ hcount) hlen
  rw [hslots.length] at hcheck
  refine ⟨nPo, slots, ?_, hle, nPo_pos hne (hfirst.trans (Nat.mul_le_mul_right T hge)), hslots,
    hrest⟩
  simp only [schedulePO, hrun, ok_bind, mul_eq (hcount.trans_lt (by norm_num)), check_eq hcheck]
  rfl

/-- `schedulePO` ends with a placement on the fewest pins and no counter wraps, if the slots of
some placement have numbers that are `int`s. -/
theorem schedulePO_fewest_pins {sVecs : List SupVec} {T nPi : ℕ} (hT : 1 ≤ T) (hnPi : 1 ≤ nPi)
    (hex : CeilExact nPi T sVecs.length) (hne : sVecs ≠ [])
    (hsup : ∀ o, sVecs.getD o ∅ ⊆ Finset.range (nPi * T)) (sort : CountSort)
    {oPerm : List ℤ} (hlen : oPerm.length = sVecs.length)
    (hsize : ∃ c frame, IsPlacement sVecs (sort.run sVecs) T nPi c frame ∧ c * T ≤ 2 ^ 31) :
    ∃ nPo slots, schedulePO sort sVecs T nPi (ceilQuot 24 sVecs.length T) oPerm =
        .ok (nPo, slots, readSlots slots oPerm) ∧
      nPo ≤ sVecs.length ∧ slots.length = nPo * T ∧
      Placed slots (List.range sVecs.length) ∧
      (∀ frame, (∀ p o, At slots p o → frame o = p / nPo) →
        IsPlacement sVecs (sort.run sVecs) T nPi nPo frame) ∧
      ∀ c frame, IsPlacement sVecs (sort.run sVecs) T nPi c frame → nPo ≤ c := by
  obtain ⟨c, frame, hframe, hc⟩ := hsize
  obtain ⟨nPo, slots, hrun, -, hpos, hslots, hfits, hbelow⟩ :=
    schedulePO_spec hT hnPi hex hne hsup sort hlen ⟨frame, hframe⟩ hc
  have hleast : ∀ c frame, IsPlacement sVecs (sort.run sVecs) T nPi c frame → nPo ≤ c :=
    fun c' frame' h' => Nat.le_of_not_lt fun hlt => hbelow c' hlt frame' h'
  exact ⟨nPo, slots, hrun, hleast _ _ (isPlacement_last hT hsup _), hslots.length, hslots.placed,
    fun frame' h' => hslots.isPlacement (sort.perm sVecs) hpos hfits h', hleast⟩

/-- Two outputs, the second of which needs both inputs. -/
theorem schedulePO_fewest_pins_pair :
    ∃ nPo slots, schedulePO countSort [{0}, {0, 1}] 2 1 (ceilQuot 24 2 2) [0, 0] =
        .ok (nPo, slots, readSlots slots [0, 0]) ∧
      nPo ≤ 2 ∧ slots.length = nPo * 2 ∧ Placed slots (List.range 2) ∧
      (∀ frame, (∀ p o, At slots p o → frame o = p / nPo) →
        IsPlacement [{0}, {0, 1}] (countSort.run [{0}, {0, 1}]) 2 1 nPo frame) ∧
      ∀ c frame, IsPlacement [{0}, {0, 1}] (countSort.run [{0}, {0, 1}]) 2 1 c frame → nPo ≤ c := by
  have hsup : ∀ o, [({0} : SupVec), {0, 1}].getD o ∅ ⊆ Finset.range (1 * 2) := by
    intro o
    match o with
    | 0 => decide
    | 1 => decide
    | o + 2 => exact Finset.empty_subset _
  exact schedulePO_fewest_pins (by decide) le_rfl
    (CeilExact.of_lt (by decide) le_rfl (by decide) (by decide)) (List.cons_ne_nil _ _) hsup
    countSort rfl ⟨2, _, isPlacement_last (by decide) hsup _, by decide⟩

/-! ## Too many slots -/

/-- As many outputs as frames, with one input a frame; every output needs every input. -/
def fullSupVecs (n : ℕ) : List SupVec := List.replicate n (Finset.range n)

section Full

variable {n k : ℕ} (sort : CountSort) {slots : List (Option ℕ)}

theorem length_fullSupVecs : (fullSupVecs n).length = n := List.length_replicate

theorem getD_fullSupVecs {o : ℕ} (ho : o < n) : (fullSupVecs n).getD o ∅ = Finset.range n := by
  rw [fullSupVecs, List.getD_eq_getElem _ _ (by rwa [List.length_replicate]),
    List.getElem_replicate]

theorem fullSupVecs_subset (o : ℕ) : (fullSupVecs n).getD o ∅ ⊆ Finset.range (1 * n) := by
  rw [Nat.one_mul]
  rcases Nat.lt_or_ge o n with ho | ho
  · exact (getD_fullSupVecs ho).subset
  · rw [List.getD_eq_default _ _ (by rwa [length_fullSupVecs])]
    exact Finset.empty_subset _

theorem fullSupVecs_ne_nil (hn : 0 < n) : fullSupVecs n ≠ [] :=
  List.ne_nil_of_length_pos (length_fullSupVecs.symm ▸ hn)

theorem ceilExact_full (hn : 0 < n) (hlt : n < 2 ^ 24) : CeilExact 1 n (fullSupVecs n).length := by
  rw [length_fullSupVecs]
  exact CeilExact.of_lt hn le_rfl (by rwa [Nat.one_mul]) hlt

/-- All outputs are in the last frame. -/
theorem frame_full (hs : Slots (fullSupVecs n) n 1 k slots)
    (hfits : Fits (fullSupVecs n) (sort.run (fullSupVecs n)) 1 k slots) {p o : ℕ}
    (hp : At slots p o) : (n - 1) * k ≤ p ∧ p < n * k := by
  have hlt : p < n * k := by
    rw [Nat.mul_comm, ← hs.length]
    exact hp.lt
  have hk : 0 < k := Nat.pos_of_ne_zero fun h => by simp [h] at hlt
  have ho : o ∈ List.range (fullSupVecs n).length := hs.placed.mem hp
  obtain ⟨i, hi⟩ := List.mem_iff_getElem?.mp ((sort.perm (fullSupVecs n)).mem_iff.mpr ho)
  rw [length_fullSupVecs, List.mem_range] at ho
  have hunion : Finset.range n ⊆ unionSup (fullSupVecs n)
      ((sort.run (fullSupVecs n)).take (i + 1)) := fun j hj => by
    refine mem_unionSup.mpr ⟨o, List.mem_iff_getElem?.mpr ⟨i, ?_⟩, by rwa [getD_fullSupVecs ho]⟩
    rwa [List.getElem?_take_of_lt (Nat.lt_succ_self i)]
  have hcard := (Finset.card_le_card hunion).trans (hfits i o p hi hp)
  rw [Finset.card_range, Nat.one_mul] at hcard
  exact ⟨(Nat.le_div_iff_mul_le hk).mp (Nat.sub_le_of_le_add hcard), hlt⟩

/-- So there are as many pins as outputs, and then the last slot is in use. -/
theorem slots_full (hs : Slots (fullSupVecs n) n 1 k slots)
    (hfits : Fits (fullSupVecs n) (sort.run (fullSupVecs n)) 1 k slots) (hn : 0 < n) :
    n ≤ k ∧ (k = n → ∃ o, At slots (n * n - 1) o) := by
  have hat : ∀ o < n, ∃ p, At slots p o := fun o ho =>
    hs.placed.exists_at o (List.mem_range.mpr (length_fullSupVecs.symm ▸ ho))
  choose! slot hslot using hat
  have hinj : Set.InjOn slot (Finset.range n) := fun o ho o' ho' heq => by
    have h := hslot o (Finset.mem_range.mp ho)
    rw [heq] at h
    exact Option.some.inj (Option.some.inj (h.symm.trans (hslot o' (Finset.mem_range.mp ho'))))
  have hsub : (Finset.range n).image slot ⊆ Finset.Ico ((n - 1) * k) (n * k) := fun p hp => by
    obtain ⟨o, ho, rfl⟩ := Finset.mem_image.mp hp
    exact Finset.mem_Ico.mpr (frame_full sort hs hfits (hslot o (Finset.mem_range.mp ho)))
  have hcard : ((Finset.range n).image slot).card = n := by
    rw [Finset.card_image_of_injOn hinj, Finset.card_range]
  have hframe : n * k - (n - 1) * k = k := by
    rw [← Nat.sub_mul, Nat.sub_sub_self hn, Nat.one_mul]
  refine ⟨?_, fun hkn => ?_⟩
  · have hle := Finset.card_le_card hsub
    rwa [hcard, Nat.card_Ico, hframe] at hle
  · subst hkn
    have himage := Finset.eq_of_subset_of_card_le hsub (by rw [hcard, Nat.card_Ico, hframe])
    have hlast : k * k - 1 ∈ Finset.Ico ((k - 1) * k) (k * k) := by
      have hsq : k ≤ k * k := Nat.le_mul_of_pos_left k hn
      rw [Finset.mem_Ico, Nat.sub_mul, Nat.one_mul]
      omega
    rw [← himage] at hlast
    obtain ⟨o, ho, heq⟩ := Finset.mem_image.mp hlast
    exact ⟨o, heq ▸ hslot o (Finset.mem_range.mp ho)⟩

/-- Fewer pins than outputs are too few. -/
theorem tryPlace_full (hn : n < 2 ^ 24) (hk : 1 ≤ k) (hkn : k < n) (hsize : k * n < 2 ^ 32) :
    tryPlace (fullSupVecs n) n 1 k n (sort.run (fullSupVecs n)) = .ok none := by
  have hn0 : 0 < n := Nat.zero_lt_of_lt hkn
  obtain ⟨r, hr, -, hslots⟩ := tryPlace_spec hn0 le_rfl (ceilExact_full hn0 hn)
    (fullSupVecs_ne_nil hn0) (by rw [length_fullSupVecs]; exact Nat.le_mul_of_pos_left n hk) hsize
    fullSupVecs_subset sort
  rw [length_fullSupVecs] at hr
  cases r with
  | none => exact hr
  | some slots =>
      obtain ⟨hs, hfits⟩ := hslots slots rfl
      exact absurd (slots_full sort hs hfits hn0).1 (Nat.not_le.mpr hkn)

/-- So the loop goes on until the number of slots wraps. -/
theorem placeLoop_full (hn : n < 2 ^ 24) (hlt : (n - 1) * n < 2 ^ 32) (hge : 2 ^ 32 ≤ n * n)
    (fuel : ℕ) (hk : 1 ≤ k) (hkn : k ≤ n) (hfuel : n < fuel + k) :
    placeLoop (fullSupVecs n) n 1 n (sort.run (fullSupVecs n)) fuel k = .error .wrap := by
  induction fuel generalizing k with
  | zero => omega
  | succ fuel ih =>
      rcases Nat.lt_or_eq_of_le hkn with hkn | rfl
      · have hsize : k * n < 2 ^ 32 :=
          (Nat.mul_le_mul_right n (Nat.le_sub_one_of_lt hkn)).trans_lt hlt
        have hadd : k + 1 < 2 ^ 32 :=
          (Nat.succ_le_of_lt hkn).trans_lt ((Nat.le_mul_of_pos_left n hk).trans_lt hsize)
        simp only [placeLoop, tryPlace_full sort hn hk hkn hsize, ok_bind, add_eq hadd]
        exact ih (Nat.succ_le_succ (Nat.zero_le k)) hkn (by omega)
      · simp only [placeLoop, tryPlace, mul_wrap hge]
        rfl

/-- The last slot is no `int`: the check of `oPerm` fails. -/
theorem schedulePO_full (hn : n < 2 ^ 24) (hge : 2 ^ 31 < n * n) (hlt : n * n < 2 ^ 32)
    {oPerm : List ℤ} (hlen : oPerm.length = n) :
    schedulePO sort (fullSupVecs n) n 1 (ceilQuot 24 n n) oPerm = .error .assertion := by
  have hn0 : 0 < n := Nat.pos_of_ne_zero fun h => by simp [h] at hge
  have hex := ceilExact_full hn0 hn
  have hfirst : (fullSupVecs n).length ≤ ceilQuot 24 (fullSupVecs n).length n * n := by
    rw [hex.pins]
    exact le_ceil_mul hn0
  obtain ⟨nPo, slots, hrun, -, hle, hslots, hfits, -⟩ := placeLoop_spec hn0 le_rfl hex
    (fullSupVecs_ne_nil hn0) fullSupVecs_subset sort
    ⟨_, length_fullSupVecs (n := n) ▸ isPlacement_last hn0 fullSupVecs_subset _⟩ hlt (n + 1)
    hfirst (by rw [length_fullSupVecs]; omega) fun k hk frame h => by
      rw [hex.pins] at hk
      exact Nat.not_le.mpr (mul_lt_of_lt_ceil hn0 hk) h.capacity
  obtain ⟨hge', hlast⟩ := slots_full sort hslots hfits hn0
  obtain rfl : nPo = n := Nat.le_antisymm hle hge'
  obtain ⟨o, ho⟩ := hlast rfl
  have hcheck := checkPerm_readSlots_neg hslots.placed (hlen.trans length_fullSupVecs.symm) ho
    (Nat.le_sub_one_of_lt hge) (by omega) (nPo * nPo)
  rw [length_fullSupVecs] at hrun
  simp only [schedulePO, length_fullSupVecs, hrun, ok_bind, mul_eq hlt, hcheck]
  rfl

end Full

/-- `65536` pins in `65536` frames are `2 ^ 32` slots. -/
theorem schedulePO_wraps :
    schedulePO countSort (fullSupVecs 65536) 65536 1 (ceilQuot 24 65536 65536)
      (List.replicate 65536 0) = .error .wrap := by
  have hloop := placeLoop_full countSort (n := 65536) (k := 1) (by norm_num) (by norm_num)
    (by norm_num) (65536 + 1) le_rfl (by norm_num) (by norm_num)
  have hceil : ceilQuot 24 65536 65536 = 1 :=
    (ceilQuot_eq (by norm_num) (by norm_num) (by norm_num)).trans (by norm_num)
  rw [schedulePO, length_fullSupVecs, hceil, hloop]
  rfl

end ExtFolding.TimeMux2
