import ExtFolding.Lib.Ntk

/-!
# The one-hot time counter (`timeMux3::buildLatchTransWithTime`)

The first `nTimeFrame` boxes of a folded network form a ring through which a
single 1 travels; box `t` is 1 in the cycles of frame `t`.
-/

namespace ExtFolding.TimeMux3

open ExtFolding.Aig

/-- Box `i` is driven by box `i - 1`, box 0 by the last one; only box 0 starts at 1. -/
def buildLatchTransWithTime (nTimeFrame : ℕ) : List Latch :=
  (List.range nTimeFrame).map fun i =>
    if i = 0 then ⟨.one, (Obj.bo (nTimeFrame - 1)).lit⟩ else ⟨.zero, (Obj.bo (i - 1)).lit⟩

/-- Among the first `T` boxes exactly box `t` is 1. -/
def OneHot (T t : ℕ) (σ : ℕ → Bool) : Prop := ∀ i < T, σ i = decide (i = t)

theorem OneHot.self {T t : ℕ} {σ : ℕ → Bool} (h : OneHot T t σ) (ht : t < T) : σ t = true := by
  simpa using h t ht

theorem OneHot.other {T t r : ℕ} {σ : ℕ → Bool} (h : OneHot T r σ) (ht : t < T) (hr : r ≠ t) :
    σ t = false := by
  simpa [hr.symm] using h t ht

/-- The network starts with the ring of `T` boxes. -/
def HasRing (T : ℕ) (latches : List Latch) : Prop :=
  ∀ i < T, latches[i]? = (buildLatchTransWithTime T)[i]?

theorem HasRing.oneHot_init {T : ℕ} {N : Ntk} (h : HasRing T N.latches) {s : ℕ → Bool}
    (hs : N.IsInit s) : OneHot T 0 s := by
  intro i hi
  have hget := h i hi
  rw [buildLatchTransWithTime, List.getElem?_map, List.getElem?_range hi] at hget
  have hinit := hs i _ hget
  by_cases h0 : i = 0
  · simp only [h0, if_true] at hinit ⊢
    simpa using hinit.2 trivial
  · simp only [h0, if_false] at hinit ⊢
    simpa using hinit.1 trivial

/-- One cycle moves the 1 to the next box. -/
theorem HasRing.oneHot_next {T t : ℕ} {N : Ntk} (h : HasRing T N.latches) (ht : t < T)
    {e : Env} (he : OneHot T t e.bo) : OneHot T ((t + 1) % T) (N.next e) := by
  intro i hi
  have hget := h i hi
  rw [buildLatchTransWithTime, List.getElem?_map, List.getElem?_range hi] at hget
  unfold Ntk.next
  rw [hget]
  by_cases h0 : i = 0
  · have hiff : (T - 1 = t) ↔ (0 = (t + 1) % T) := by
      rcases Nat.lt_or_ge (t + 1) T with hlt | hge
      · rw [Nat.mod_eq_of_lt hlt]; omega
      · have : t + 1 = T := by omega
        rw [this, Nat.mod_self]; omega
    simp [h0, Obj.lit, he (T - 1) (by omega), hiff]
  · have hiff : (i - 1 = t) ↔ (i = (t + 1) % T) := by
      rcases Nat.lt_or_ge (t + 1) T with hlt | hge
      · rw [Nat.mod_eq_of_lt hlt]; omega
      · have : t + 1 = T := by omega
        rw [this, Nat.mod_self]; omega
    simp [h0, Obj.lit, he (i - 1) (by omega), hiff]

/-- In cycle `c` the 1 is in box `c % T`. -/
theorem HasRing.oneHot_stateAt {T : ℕ} {N : Ntk} (h : HasRing T N.latches) (hT : 1 ≤ T)
    {s : ℕ → Bool} (hs : OneHot T 0 s) (inp : ℕ → ℕ → Bool) (c : ℕ) :
    OneHot T (c % T) (N.stateAt s inp c) := by
  induction c with
  | zero => rw [Nat.zero_mod]; exact hs
  | succ c ih =>
      have hnext := h.oneHot_next (Nat.mod_lt c hT) (e := N.envAt s inp c) ih
      rwa [Nat.mod_add_mod] at hnext

end ExtFolding.TimeMux3
