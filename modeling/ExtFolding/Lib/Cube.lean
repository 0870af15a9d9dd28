import Mathlib.Logic.Function.DependsOn
import Mathlib.Tactic

/-!
# Cubes and root-to-1 paths

Boolean functions of countably many variables under a variable order. `lev v` is the level
of variable `v`; `glue lev L x z` takes the variables above level `L` from `x` and the rest
from `z`. A root-to-1 path of the reduced ordered decision diagram of `f` is described by
what it means for `f`: a variable has a literal exactly when the function that is left at its
level depends on it, and the function that is left at the end is constant 1.
-/

namespace ExtFolding

/-- An assignment of the variables. -/
abbrev Assign := ℕ → Bool

/-- `none` is a variable without a literal. -/
abbrev Cube := ℕ → Option Bool

namespace Cube

/-- `x` with the literals of `c`. -/
def put (c : Cube) (x : Assign) : Assign := fun v => (c v).getD (x v)

/-- All literals of `c` hold. -/
def Holds (c : Cube) (x : Assign) : Prop := ∀ v b, c v = some b → x v = b

/-- The literals of `c` on the variables of `p`. -/
def keep (c : Cube) (p : ℕ → Prop) [DecidablePred p] : Cube := fun v => if p v then c v else none

variable {c : Cube} {x y : Assign} {v : ℕ}

theorem put_of_none (h : c v = none) : c.put x v = x v := by simp [put, h]

theorem put_of_some {b : Bool} (h : c v = some b) : c.put x v = b := by simp [put, h]

theorem holds_put (c : Cube) (x : Assign) : c.Holds (c.put x) := fun _ _ h => put_of_some h

theorem Holds.put_eq (h : c.Holds x) : c.put x = x := by
  ext v
  cases hc : c v with
  | none => exact put_of_none hc
  | some b => rw [put_of_some hc, h v b hc]

theorem Holds.congr (h : c.Holds x) (hxy : ∀ v, c v ≠ none → x v = y v) : c.Holds y := by
  intro v b hc
  rw [← hxy v (by rw [hc]; simp)]
  exact h v b hc

end Cube

section Levels

variable (lev : ℕ → ℕ)

/-- The variables above level `L` from `x`, the others from `z`. -/
def glue (L : ℕ) (x z : Assign) : Assign := fun v => if lev v < L then x v else z v

/-- `c` is a root-to-1 path of the reduced diagram of `f` with order `lev`. -/
structure RootPath (f : Assign → Bool) (c : Cube) : Prop where
  none_iff : ∀ v, c v = none ↔ ∀ x b,
    f (Function.update ((c.keep fun w => lev w < lev v).put x) v b) =
      f ((c.keep fun w => lev w < lev v).put x)
  one : ∀ x, f (c.put x) = true

variable {lev} {L : ℕ} {x y z : Assign} {v : ℕ}

theorem glue_of_lt (h : lev v < L) : glue lev L x z v = x v := if_pos h

theorem glue_of_le (h : L ≤ lev v) : glue lev L x z v = z v := if_neg (Nat.not_lt.mpr h)

theorem glue_self (L : ℕ) (x : Assign) : glue lev L x x = x := by
  ext v
  unfold glue
  split <;> rfl

theorem glue_congr (h : ∀ v, lev v < L → x v = y v) (z : Assign) :
    glue lev L x z = glue lev L y z := by
  ext v
  unfold glue
  split
  · next hv => exact h v hv
  · rfl

/-- Cutting twice is cutting at the upper level. -/
theorem glue_glue {L' : ℕ} (hle : L ≤ L') (h : ∀ v, L ≤ lev v → x v = y v) (z : Assign) :
    glue lev L y (glue lev L' x z) = glue lev L' y z := by
  ext v
  by_cases hv : lev v < L
  · rw [glue_of_lt hv, glue_of_lt (hv.trans_le hle)]
  · rw [glue_of_le (Nat.le_of_not_lt hv)]
    unfold glue
    split
    · exact h v (Nat.le_of_not_lt hv)
    · rfl

variable {f : Assign → Bool} {c : Cube}

/-- A path tests only variables that matter. -/
theorem RootPath.none_of_dependsOn (h : RootPath lev f c) {S : Set ℕ} (hf : DependsOn f S)
    (hv : v ∉ S) : c v = none := by
  rw [h.none_iff]
  intro x b
  apply hf
  intro w hw
  apply Function.update_of_ne
  rintro rfl
  exact hv hw

/-- Two assignments that follow the path down to level `L` and agree below have equal values. -/
theorem RootPath.residual (h : RootPath lev f c) (hsurj : Function.Surjective lev)
    (hinj : Function.Injective lev) (L : ℕ) : ∀ x y : Assign,
    (∀ v b, lev v < L → c v = some b → x v = b) → (∀ v b, lev v < L → c v = some b → y v = b) →
    (∀ v, L ≤ lev v → x v = y v) → f x = f y := by
  induction L with
  | zero =>
      intro x y _ _ hxy
      have : x = y := by
        ext v
        exact hxy v (Nat.zero_le _)
      rw [this]
  | succ L ih =>
      intro x y hx hy hxy
      obtain ⟨v, hv⟩ := hsurj L
      have hle : ∀ w, w ≠ v → L ≤ lev w → L + 1 ≤ lev w := by
        intro w hw hLw
        apply Nat.lt_of_le_of_ne hLw
        rintro rfl
        exact hw (hinj hv.symm)
      cases hc : c v with
      | some b =>
          apply ih x y (fun w d hw => hx w d (by omega)) (fun w d hw => hy w d (by omega))
          intro w hw
          by_cases hwv : w = v
          · rw [hwv, hx v b (by omega) hc, hy v b (by omega) hc]
          · exact hxy w (hle w hwv hw)
      | none =>
          have hput : (c.keep fun w => lev w < lev v).put y = y := by
            apply Cube.Holds.put_eq
            intro w d hw
            unfold Cube.keep at hw
            split at hw
            · next hlt => exact hy w d (by omega) hw
            · cases hw
          have hupd := (h.none_iff v).mp hc y (x v)
          rw [hput] at hupd
          rw [← hupd]
          apply ih x _ (fun w d hw => hx w d (by omega))
          · intro w d hw hcw
            rw [Function.update_of_ne (by rintro rfl; omega)]
            exact hy w d (by omega) hcw
          · intro w hw
            by_cases hwv : w = v
            · rw [hwv, Function.update_self]
            · rw [Function.update_of_ne hwv]
              exact hxy w (hle w hwv hw)

end Levels

end ExtFolding
