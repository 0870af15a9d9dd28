import Mathlib.Data.Int.Log
import Mathlib.Data.Rat.Floor
import Mathlib.Tactic.Linarith
import Mathlib.Tactic.Positivity
import Mathlib.Tactic.Ring

/-!
# Rounding to a fixed number of bits

`round p x` is the number of `p` significant bits that is nearest to `x`, the even one of two.
Exponents are not bounded. The relative error is at most half a unit of the last bit, so a
rounded quotient of small numbers lies on the same side of every integer as the quotient.
-/

namespace ExtFolding.Rounding

/-- The nearest integer, the even one of two. -/
def nearest (x : ℚ) : ℤ :=
  if Int.fract x < 1 / 2 then ⌊x⌋
  else if 1 / 2 < Int.fract x then ⌊x⌋ + 1
  else if ⌊x⌋ % 2 = 0 then ⌊x⌋
  else ⌊x⌋ + 1

/-- The last of `p` bits of `x`. -/
def ulp (p : ℕ) (x : ℚ) : ℚ := 2 ^ (Int.log 2 x + 1 - p)

def round (p : ℕ) (x : ℚ) : ℚ := nearest (x / ulp p x) * ulp p x

/-- `ceil(float(a) / float(b))` -/
def ceilQuot (p a b : ℕ) : ℕ := ⌈round p (round p a / round p b)⌉₊

theorem nearest_intCast (n : ℤ) : nearest n = n := by
  simp [nearest]

theorem abs_nearest_sub_le (x : ℚ) : |(nearest x : ℚ) - x| ≤ 1 / 2 := by
  have hx := Int.floor_add_fract x
  have h0 := Int.fract_nonneg x
  have h1 := Int.fract_lt_one x
  unfold nearest
  split
  · rw [abs_le]
    constructor <;> linarith
  · split
    · rw [abs_le]
      push_cast
      constructor <;> linarith
    · split <;> rw [abs_le] <;> push_cast <;> constructor <;> linarith

theorem ulp_pos (p : ℕ) (x : ℚ) : 0 < ulp p x := zpow_pos two_pos _

/-- The last bit is small against the number. -/
theorem ulp_le {x : ℚ} (hx : 0 < x) (p : ℕ) : ulp p x / 2 ≤ x / 2 ^ p := by
  have hlog : ((2 : ℕ) : ℚ) ^ Int.log 2 x ≤ x := Int.zpow_log_le_self Nat.one_lt_two hx
  have hulp : ulp p x = 2 * (2 ^ Int.log 2 x / 2 ^ p) := by
    rw [ulp, zpow_sub₀ two_ne_zero, zpow_add_one₀ two_ne_zero, zpow_natCast]
    ring
  rw [hulp, mul_div_cancel_left₀ _ two_ne_zero]
  gcongr
  exact_mod_cast hlog

theorem abs_round_sub_le {x : ℚ} (hx : 0 < x) (p : ℕ) : |round p x - x| ≤ x / 2 ^ p := by
  have hu := ulp_pos p x
  have heq : round p x - x = (nearest (x / ulp p x) - x / ulp p x) * ulp p x := by
    rw [round, sub_mul, div_mul_cancel₀ _ hu.ne']
  calc |round p x - x| = |(nearest (x / ulp p x) : ℚ) - x / ulp p x| * ulp p x := by
        rw [heq, abs_mul, abs_of_pos hu]
    _ ≤ 1 / 2 * ulp p x := mul_le_mul_of_nonneg_right (abs_nearest_sub_le _) hu.le
    _ = ulp p x / 2 := by ring
    _ ≤ x / 2 ^ p := ulp_le hx p

/-- A number that has at most `p` bits is not changed. -/
theorem round_natCast {p n : ℕ} (h : n < 2 ^ p) : round p n = n := by
  rcases Nat.eq_zero_or_pos n with rfl | hn
  · have hzero : nearest 0 = 0 := nearest_intCast 0
    simp [round, hzero]
  have hlog : Nat.log 2 n < p := Nat.log_lt_of_lt_pow hn.ne' h
  obtain ⟨k, hk⟩ := Nat.exists_eq_add_of_lt hlog
  have hulp : ulp p (n : ℚ) = ((2 : ℚ) ^ k)⁻¹ := by
    have hexp : (Nat.log 2 n : ℤ) + 1 - p = -(k : ℤ) := by omega
    rw [ulp, Int.log_natCast, hexp, zpow_neg, zpow_natCast]
  have hint : (n : ℚ) / ulp p n = ((n * 2 ^ k : ℤ) : ℚ) := by
    rw [hulp, div_inv_eq_mul]
    push_cast
    rfl
  rw [round, hint, nearest_intCast, ← hint, div_mul_cancel₀ _ (ulp_pos p _).ne']

/-- The rounded quotient is above an integer if and only if the quotient is. -/
theorem round_div_le_iff {p a b n : ℕ} (ha : a < 2 ^ p) (hb : 0 < b) :
    round p (a / b) ≤ n ↔ a ≤ n * b := by
  have hb' : (0 : ℚ) < b := Nat.cast_pos.mpr hb
  rcases Nat.eq_zero_or_pos a with rfl | ha0
  · have hzero : round p 0 = 0 := by exact_mod_cast round_natCast (p := p) (n := 0) (by positivity)
    simp [hzero]
  -- the error is less than the distance to the next integer
  have herr : |round p (a / b) - (a / b : ℚ)| < 1 / b := by
    refine (abs_round_sub_le (div_pos (Nat.cast_pos.mpr ha0) hb') p).trans_lt ?_
    rw [div_div, div_lt_div_iff₀ (by positivity) hb', one_mul, mul_comm (b : ℚ)]
    exact mul_lt_mul_of_pos_right (by exact_mod_cast ha) hb'
  obtain ⟨hlow, hhigh⟩ := abs_lt.mp herr
  constructor
  · intro h
    by_contra hlt
    have hgap : (n * b + 1 : ℚ) ≤ a := by exact_mod_cast Nat.lt_of_not_le hlt
    have hdist : (n : ℚ) + 1 / b ≤ a / b := by
      rw [le_div_iff₀ hb', add_mul, div_mul_cancel₀ _ hb'.ne']
      exact hgap
    linarith
  · intro h
    rcases Nat.eq_or_lt_of_le h with h | h
    · have hquot : (a / b : ℚ) = n := by
        rw [div_eq_iff hb'.ne']
        exact_mod_cast h
      have hn : n < 2 ^ p := (Nat.le_mul_of_pos_right n hb).trans_lt (h ▸ ha)
      rw [hquot, round_natCast hn]
    · have hgap : (a + 1 : ℚ) ≤ n * b := by exact_mod_cast h
      have hdist : (a / b : ℚ) + 1 / b ≤ n := by
        rw [← add_div, div_le_iff₀ hb']
        exact hgap
      linarith

/-- The ceiling of a rounded quotient of numbers of `p` bits is exact. -/
theorem ceilQuot_eq {p a b : ℕ} (ha : a < 2 ^ p) (hb : 0 < b) (hb' : b < 2 ^ p) :
    ceilQuot p a b = (a + b - 1) / b := by
  refine eq_of_forall_ge_iff fun n => ?_
  rw [ceilQuot, Nat.ceil_le, round_natCast ha, round_natCast hb', round_div_le_iff ha hb,
    Nat.div_le_iff_le_mul_add_pred hb, Nat.mul_comm b]
  omega

end ExtFolding.Rounding
