import ExtFolding.Lib.Text

/-!
# Positions in strings

The search functions of `std::string` return a position of 64 bits, and `npos`, which is the
largest one, when there is nothing to find. Positions that are kept in 32 bits lose the upper half.
-/

namespace ExtFolding.Str

def npos : ℕ := 2 ^ 64 - 1

/-- The first position from `pos` on whose character satisfies `p`. -/
def findFirst (p : Char → Bool) (s : List Char) (pos : ℕ) : ℕ :=
  match (s.drop pos).findIdx? p with
  | some i => pos + i
  | none => npos

/-- The last position whose character satisfies `p`. -/
def findLast (p : Char → Bool) (s : List Char) : ℕ :=
  match s.reverse.findIdx? p with
  | some i => s.length - 1 - i
  | none => npos

/-- `s.substr(pos, len)`, which throws when `pos` lies behind the end. -/
def substr (s : List Char) (pos len : ℕ) : Option (List Char) :=
  if pos ≤ s.length then some ((s.drop pos).take len) else none

/-- Conversion to 32 bits. -/
def u32 (n : ℕ) : ℕ := n % 2 ^ 32

/-- `a - b` in 32 bits. -/
def sub32 (a b : ℕ) : ℕ := (a + 2 ^ 32 - b) % 2 ^ 32

/-- `a - b` in 64 bits. -/
def sub64 (a b : ℕ) : ℕ := (a + 2 ^ 64 - b) % 2 ^ 64

theorem u32_eq {n : ℕ} (h : n < 2 ^ 32) : u32 n = n := Nat.mod_eq_of_lt h

/-- The position after a search without result, kept in 32 bits, is no longer `npos`. -/
theorem u32_npos : u32 npos = 2 ^ 32 - 1 ∧ u32 npos ≠ npos := by decide

theorem sub32_eq {a b : ℕ} (hb : b ≤ a) (ha : a < 2 ^ 32) : sub32 a b = a - b := by
  unfold sub32
  rw [show a + 2 ^ 32 - b = a - b + 2 ^ 32 by omega, Nat.add_mod_right,
    Nat.mod_eq_of_lt (by omega)]

theorem sub64_eq {a b : ℕ} (hb : b ≤ a) (ha : a < 2 ^ 64) : sub64 a b = a - b := by
  unfold sub64
  rw [show a + 2 ^ 64 - b = a - b + 2 ^ 64 by omega, Nat.add_mod_right,
    Nat.mod_eq_of_lt (by omega)]

section Find

variable {p : Char → Bool} {u v w : List Char}

theorem findIdx?_append_cons (hu : ∀ x ∈ u, p x = false) {c : Char} (hc : p c = true) :
    (u ++ c :: w).findIdx? p = some u.length := by
  rw [List.findIdx?_append, List.findIdx?_eq_none_iff.mpr hu]
  simp [List.findIdx?_cons, hc]

/-- The search from the end of `v` stops at the first character after `u`. -/
theorem findFirst_append_cons (hu : ∀ x ∈ u, p x = false) {c : Char} (hc : p c = true) :
    findFirst p (v ++ (u ++ c :: w)) v.length = v.length + u.length := by
  rw [findFirst, List.drop_left, findIdx?_append_cons hu hc]

theorem findFirst_none (hu : ∀ x ∈ u, p x = false) :
    findFirst p (v ++ u) v.length = npos := by
  rw [findFirst, List.drop_left, List.findIdx?_eq_none_iff.mpr hu]

theorem findLast_append {c : Char} (hc : p c = true) :
    findLast p (v ++ [c]) = v.length := by
  rw [findLast, List.reverse_append]
  simp [List.findIdx?_cons, hc]

theorem substr_append (n : ℕ) : substr (v ++ u) v.length n = some (u.take n) := by
  rw [substr, if_pos (by simp), List.drop_left]

theorem substr_append_append : substr (v ++ (u ++ w)) v.length u.length = some u := by
  rw [substr_append, List.take_left]

end Find

end ExtFolding.Str
