import Mathlib.Data.EReal.Inv
import ExtFolding.Minisat.Solver

/-!
# Doubles that are not NaN

The extended reals with 53 bits and an exponent in bounds. Sums, products and quotients are rounded,
in any way that is monotone and leaves doubles alone; the other operations may do anything. That is
all the solver needs of them. It makes no NaN: what it adds and scales is not negative, and no
factor of an infinite number is zero.
-/

namespace ExtFolding.Minisat

/-- A value of `double`. -/
def IsBinary64 (x : EReal) : Prop :=
  x = ⊥ ∨ x = ⊤ ∨
    ∃ m e : ℤ, |m| < 2 ^ 53 ∧ -1074 ≤ e ∧ e ≤ 971 ∧ x = ((m * 2 ^ e : ℝ) : EReal)

/-- A way to compute with doubles. -/
structure Arithmetic where
  round : EReal → EReal
  isBinary64 : ∀ x, IsBinary64 (round x)
  mono : Monotone round
  round_eq : ∀ x, IsBinary64 x → round x = x
  toInt : EReal → ℤ
  single : EReal → EReal
  pow : EReal → EReal → EReal

def Binary64 (_ : Arithmetic) : Type := {x : EReal // IsBinary64 x}

namespace Binary64

variable {a : Arithmetic}

def ofEReal (x : EReal) : Binary64 a := ⟨a.round x, a.isBinary64 x⟩

noncomputable instance : Double (Binary64 a) where
  add x y := ofEReal (x.1 + y.1)
  mul x y := ofEReal (x.1 * y.1)
  div x y := ofEReal (x.1 / y.1)
  ofScientific m s e := ofEReal ((OfScientific.ofScientific m s e : ℝ) : EReal)
  lt x y := decide (x.1 < y.1)
  le x y := decide (x.1 ≤ y.1)
  ofInt n := ofEReal ((n : ℝ) : EReal)
  toInt x := a.toInt x.1
  single x := ofEReal (a.single x.1)
  pow x y := ofEReal (a.pow x.1 y.1)

theorem lt_eq_false {x y : Binary64 a} : Double.lt x y = false ↔ y.1 ≤ x.1 :=
  decide_eq_false_iff_not.trans not_lt

theorem isBinary64_zero : IsBinary64 0 := Or.inr (Or.inr ⟨0, 0, by simp⟩)

theorem ofInt_zero : (Double.ofInt 0 : Binary64 a).1 = 0 := by
  show a.round ((((0 : ℤ) : ℝ)) : EReal) = 0
  rw [Int.cast_zero, EReal.coe_zero, a.round_eq 0 isBinary64_zero]

theorem round_nonneg {x : EReal} (h : 0 ≤ x) : 0 ≤ a.round x :=
  (a.round_eq 0 isBinary64_zero).symm.trans_le (a.mono h)

/-- The laws hold for every rounding. -/
instance : LawfulDouble (Binary64 a) where
  asymm x y h := lt_eq_false.mpr (of_decide_eq_true h).le
  connected x y z h := by
    rcases lt_or_ge x.1 y.1 with hxy | hyx
    · exact Or.inl (decide_eq_true hxy)
    · exact Or.inr (decide_eq_true (hyx.trans_lt (of_decide_eq_true h)))
  add_le x y h := by
    rw [lt_eq_false, ofInt_zero] at h
    rw [lt_eq_false]
    calc x.1 = a.round x.1 := (a.round_eq _ x.2).symm
      _ ≤ a.round (x.1 + y.1) := a.mono (le_add_of_nonneg_right h)
  mul_le x y z h hxy := by
    rw [lt_eq_false, ofInt_zero] at h
    rw [lt_eq_false] at hxy ⊢
    exact a.mono (mul_le_mul_of_nonneg_right hxy h)
  mul_nonneg x y hx hy := by
    rw [lt_eq_false, ofInt_zero] at hx hy ⊢
    exact round_nonneg (mul_nonneg hx hy)
  one_nonneg := by
    rw [lt_eq_false, ofInt_zero]
    exact round_nonneg (by simp)
  decay_nonneg := by
    rw [lt_eq_false, ofInt_zero]
    refine round_nonneg (EReal.div_nonneg (round_nonneg (by simp)) (round_nonneg ?_))
    exact EReal.coe_nonneg.mpr (by norm_num)
  rescale_nonneg := by
    rw [lt_eq_false, ofInt_zero]
    exact round_nonneg (EReal.coe_nonneg.mpr (by norm_num))

end Binary64

/-! ## Rounding down -/

theorem finite_binary64 : {x | IsBinary64 x}.Finite := by
  let values : ℤ × ℤ → EReal := fun p => ((p.1 * 2 ^ p.2 : ℝ) : EReal)
  refine (((Set.finite_Ioo (-2 ^ 53 : ℤ) (2 ^ 53)).prod (Set.finite_Icc (-1074 : ℤ) 971)).image
    values |>.union (Set.toFinite {⊥, ⊤})).subset ?_
  rintro x (rfl | rfl | ⟨m, e, hm, hlow, hhigh, rfl⟩)
  · exact Or.inr (Or.inl rfl)
  · exact Or.inr (Or.inr rfl)
  · exact Or.inl ⟨(m, e), ⟨abs_lt.mp hm, hlow, hhigh⟩, rfl⟩

/-- The largest double below; the other operations are filled in somehow. -/
noncomputable def roundDown : Arithmetic where
  round x := sSup {y | IsBinary64 y ∧ y ≤ x}
  isBinary64 x :=
    have hne : {y | IsBinary64 y ∧ y ≤ x}.Nonempty := ⟨⊥, Or.inl rfl, bot_le⟩
    (hne.csSup_mem (finite_binary64.subset fun _ hy => hy.1)).1
  mono _ _ h := sSup_le_sSup fun _ hy => ⟨hy.1, hy.2.trans h⟩
  round_eq _ h := le_antisymm (sSup_le fun _ hy => hy.2) (le_sSup ⟨h, le_rfl⟩)
  toInt _ := 0
  single x := x
  pow x _ := x

noncomputable instance : Inhabited Arithmetic := ⟨roundDown⟩

end ExtFolding.Minisat
