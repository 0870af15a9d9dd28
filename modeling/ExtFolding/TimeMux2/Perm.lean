import ExtFolding.Lib.Uint
import Mathlib.Tactic
import Mathlib.Data.List.Nodup
import Mathlib.Data.List.Perm.Basic

/-!
# Permutation arrays

`checkPerm` is the run-time check of the repository on its `iPerm` and `oPerm`
arrays: entries below a bound, none negative, none repeated. `extendPerm`
completes an injective array to a permutation by appending the unused positions.
-/

namespace ExtFolding.TimeMux2

open ExtFolding.Uint

/-- The scan of `checkPerm`; `sv` holds the entries seen so far. -/
def checkPermFrom (cap : ℕ) : List ℕ → List ℤ → Bool
  | _, [] => true
  | sv, p :: ps =>
      if p < 0 then false
      else if cap ≤ p.toNat then false
      else if p.toNat ∈ sv then false
      else checkPermFrom cap (p.toNat :: sv) ps

/-- `checkPerm(perm, size, cap)` -/
def checkPerm (perm : List ℤ) (cap : ℕ) : Bool := checkPermFrom cap [] perm

theorem checkPerm_neg {perm : List ℤ} {cap : ℕ} {p : ℤ} (hp : p ∈ perm) (hneg : p < 0) :
    checkPerm perm cap = false := by
  have key : ∀ sv, checkPermFrom cap sv perm = false := by
    induction perm with
    | nil => simp at hp
    | cons q ps ih =>
        intro sv
        rw [checkPermFrom]
        split
        · rfl
        · next hq =>
            have hps : p ∈ ps := (List.mem_cons.mp hp).resolve_left fun h => hq (h ▸ hneg)
            simp [ih hps]
  exact key []

theorem checkPermFrom_natCast {cap : ℕ} {perm : List ℕ} : ∀ {sv : List ℕ},
    checkPermFrom cap sv (perm.map Nat.cast) = true ↔
      perm.Nodup ∧ (∀ p ∈ perm, p < cap) ∧ ∀ p ∈ perm, p ∉ sv := by
  induction perm with
  | nil => simp [checkPermFrom]
  | cons p ps ih =>
      intro sv
      rw [List.map_cons, checkPermFrom, if_neg (Int.natCast_nonneg p).not_gt, Int.toNat_natCast]
      split
      · next h => simp; omega
      split
      · next h => simp [h]
      · next hcap hsv =>
          rw [ih, List.nodup_cons]
          simp only [List.mem_cons, not_or, forall_eq_or_imp]
          constructor
          · rintro ⟨hnd, hlt, hnot⟩
            exact ⟨⟨fun h => (hnot p h).1 rfl, hnd⟩, ⟨Nat.lt_of_not_le hcap, hlt⟩, hsv,
              fun q hq => (hnot q hq).2⟩
          · rintro ⟨⟨hp, hnd⟩, ⟨_, hlt⟩, _, hnot⟩
            exact ⟨hnd, hlt, fun q hq => ⟨fun h => hp (h ▸ hq), hnot q hq⟩⟩

/-- An array that holds no negative entry. -/
theorem checkPerm_natCast {perm : List ℕ} {cap : ℕ} :
    checkPerm (perm.map Nat.cast) cap = true ↔ perm.Nodup ∧ ∀ p ∈ perm, p < cap := by
  simp [checkPerm, checkPermFrom_natCast]

/-- An array that passes its check holds indices. -/
theorem checkPerm_toNat {perm : List ℤ} {cap : ℕ} (h : checkPerm perm cap = true) :
    (perm.map Int.toNat).Nodup ∧ ∀ p ∈ perm.map Int.toNat, p < cap := by
  have hcast : (perm.map Int.toNat).map Nat.cast = perm := by
    rw [List.map_map]
    refine (List.map_congr_left fun p hp => ?_).trans (List.map_id perm)
    refine Int.toNat_of_nonneg (Int.not_lt.mp fun hneg => ?_)
    rw [checkPerm_neg hp hneg] at h
    cases h
  rwa [← hcast, checkPerm_natCast] at h

/-- `int` entries that are assigned unsigned numbers. -/
def ints (l : List ℕ) : List ℤ := l.map toInt

theorem ints_eq {l : List ℕ} (h : ∀ p ∈ l, p < 2 ^ 31) : ints l = l.map Nat.cast :=
  List.map_congr_left fun p hp => toInt_eq (h p hp)

theorem map_toNat_natCast (l : List ℕ) : (l.map (Nat.cast : ℕ → ℤ)).map Int.toNat = l := by
  rw [List.map_map, show Int.toNat ∘ Nat.cast = id from funext Int.toNat_natCast, List.map_id]

/-- An array of distinct indices below its own length is a permutation. -/
theorem perm_range_of_nodup {l : List ℕ} {n : ℕ} (hnd : l.Nodup) (hlt : ∀ p ∈ l, p < n)
    (hlen : l.length = n) : l.Perm (List.range n) := by
  have hsub : l ⊆ List.range n := fun p hp => List.mem_range.mpr (hlt p hp)
  exact (List.subperm_of_subset hnd hsub).perm_of_length_le (by simp [hlen])

/-- `extendPerm(perm, fromSize, toSize)` with its assertions. The entries are numbers of outputs
of a network, which are `int`s. -/
def extendPerm (perm : List ℕ) (toSize : ℕ) : Option (List ℕ) :=
  if toSize < perm.length then none
  else
    let ret := perm ++ (List.range toSize).filter fun i => !perm.contains i
    if ret.length = toSize ∧ checkPerm (ret.map Nat.cast) toSize then some ret else none

theorem extendPerm_spec {perm : List ℕ} {toSize : ℕ} (hnd : perm.Nodup)
    (hlt : ∀ p ∈ perm, p < toSize) :
    ∃ ret, extendPerm perm toSize = some ret ∧ ret.Perm (List.range toSize) ∧ perm <+: ret := by
  have hperm : (perm ++ (List.range toSize).filter fun i => !perm.contains i).Perm
      (List.range toSize) := by
    rw [List.perm_ext_iff_of_nodup]
    · intro a
      simp only [List.mem_append, List.mem_filter, List.mem_range, Bool.not_eq_true',
        List.contains_eq_mem, decide_eq_false_iff_not]
      constructor
      · rintro (h | h)
        · exact hlt a h
        · exact h.1
      · intro h
        by_cases ha : a ∈ perm
        · exact Or.inl ha
        · exact Or.inr ⟨h, ha⟩
    · refine List.Nodup.append hnd (List.nodup_range.filter _) fun a ha hb => ?_
      simp [ha] at hb
    · exact List.nodup_range
  have hlen := hperm.length_eq
  rw [List.length_range] at hlen
  have hcheck : checkPerm
      ((perm ++ (List.range toSize).filter fun i => !perm.contains i).map Nat.cast)
      toSize = true :=
    checkPerm_natCast.mpr ⟨hperm.nodup_iff.mpr List.nodup_range,
      fun p hp => List.mem_range.mp (hperm.mem_iff.mp hp)⟩
  refine ⟨_, ?_, hperm, List.prefix_append _ _⟩
  rw [extendPerm, if_neg, if_pos ⟨hlen, hcheck⟩]
  rw [List.length_append] at hlen
  omega

end ExtFolding.TimeMux2
