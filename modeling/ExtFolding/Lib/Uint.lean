import Mathlib.Algebra.Order.Ring.Nat
import Mathlib.Tactic.Common

/-!
# Unsigned counters

Operations of 32 bits that report a wrap instead of going on with the remainder. A run that
reports nothing computes with the numbers themselves. An unsigned number that is stored in an
`int` keeps its bits.
-/

namespace ExtFolding.Uint

/-- What stops a run. -/
inductive Fault
  | wrap
  | assertion
  | bounds
  | unfinished
deriving DecidableEq

/-- `a + b` -/
def add (a b : ℕ) : Except Fault ℕ := if a + b < 2 ^ 32 then .ok (a + b) else .error .wrap

/-- `a - b` -/
def sub (a b : ℕ) : Except Fault ℕ := if b ≤ a then .ok (a - b) else .error .wrap

/-- `a * b` -/
def mul (a b : ℕ) : Except Fault ℕ := if a * b < 2 ^ 32 then .ok (a * b) else .error .wrap

/-- `assert(p)` -/
def check (p : Prop) [Decidable p] : Except Fault Unit := if p then .ok () else .error .assertion

/-- `arr[i] = a` -/
def store {α : Type} (arr : List α) (i : ℕ) (a : α) : Except Fault (List α) :=
  if i < arr.length then .ok (arr.set i a) else .error .bounds

theorem add_eq {a b : ℕ} (h : a + b < 2 ^ 32) : add a b = .ok (a + b) := if_pos h

theorem sub_eq {a b : ℕ} (h : b ≤ a) : sub a b = .ok (a - b) := if_pos h

theorem mul_eq {a b : ℕ} (h : a * b < 2 ^ 32) : mul a b = .ok (a * b) := if_pos h

theorem mul_wrap {a b : ℕ} (h : 2 ^ 32 ≤ a * b) : mul a b = .error .wrap :=
  if_neg (Nat.not_lt.mpr h)

theorem check_eq {p : Prop} [Decidable p] (h : p) : check p = .ok () := if_pos h

theorem store_eq {α : Type} {arr : List α} {i : ℕ} (h : i < arr.length) (a : α) :
    store arr i a = .ok (arr.set i a) := if_pos h

/-- `int i = u;` -/
def toInt (u : ℕ) : ℤ := if u % 2 ^ 32 < 2 ^ 31 then (u % 2 ^ 32 : ℕ) else (u % 2 ^ 32 : ℕ) - 2 ^ 32

theorem toInt_eq {u : ℕ} (h : u < 2 ^ 31) : toInt u = u := by
  have hmod : u % 2 ^ 32 = u := Nat.mod_eq_of_lt (by omega)
  rw [toInt, hmod, if_pos h]

theorem toInt_neg {u : ℕ} (h : 2 ^ 31 ≤ u) (h' : u < 2 ^ 32) : toInt u < 0 := by
  rw [toInt, Nat.mod_eq_of_lt h', if_neg (Nat.not_lt.mpr h)]
  omega

theorem ok_bind {α β : Type} (a : α) (f : α → Except Fault β) : (Except.ok a >>= f) = f a := rfl

/-! ## Runs that report nothing -/

theorem bind_ok {α β : Type} {x : Except Fault α} {f : α → Except Fault β} {b : β}
    (h : (x >>= f) = .ok b) : ∃ a, x = .ok a ∧ f a = .ok b := by
  cases x with
  | error e => cases h
  | ok a => exact ⟨a, rfl, h⟩

theorem toOption_some {α : Type} {x : Except Fault α} {a : α} (h : x.toOption = some a) :
    x = .ok a := by
  cases x with
  | error e => cases h
  | ok b => exact congrArg Except.ok (Option.some.inj h)

theorem mul_ok {a b c : ℕ} (h : mul a b = .ok c) : c = a * b := by
  unfold mul at h
  split at h
  · exact (Except.ok.inj h).symm
  · cases h

theorem check_ok {p : Prop} [Decidable p] {u : Unit} (h : check p = .ok u) : p := by
  by_contra hp
  rw [check, if_neg hp] at h
  cases h

end ExtFolding.Uint
