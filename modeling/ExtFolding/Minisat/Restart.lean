import ExtFolding.Minisat.Search

/-!
# `memin/minisat/core/Solver.cpp`: restarts

The limits of the searches follow the Luby sequence: each finite part is the part before it twice,
and then its length once more. `luby` finds the part a place lies in and walks back to where it came
from.
-/

namespace ExtFolding.Minisat

/-! ## The code -/

/-- `for (size = 1, seq = 0; size < x+1; seq++, size = 2*size+1);` -/
def lubyUp (x size seq : ℕ) : ℕ × ℕ :=
  if size < x + 1 then lubyUp x (2 * size + 1) (seq + 1) else (size, seq)
termination_by x + 1 - size

/-- `while (size-1 != x)`. The loop ends at `seq` 0 at the latest, by `Part.zero` and
`Part.next`. -/
def lubyDown : ℕ → ℕ → ℕ → ℕ
  | 0, _, _ => 0
  | seq + 1, size, x =>
      if size - 1 ≠ x then lubyDown seq ((size - 1) / 2) (x % ((size - 1) / 2)) else seq + 1

/-- The exponent `luby` ends with. -/
def lubySeq (x : ℕ) : ℕ := lubyDown (lubyUp x 1 0).2 (lubyUp x 1 0).1 x

variable {F : Type} [Double F]

def luby (y : F) (x : ℕ) : F := Double.pow y (Double.ofInt (lubySeq x))

variable (F) in
/-- What `search` gets as its limit, as an `int`. -/
def restartLimit (curr_restarts : ℕ) : ℤ :=
  Double.toInt (luby (restart_inc : F) curr_restarts * Double.ofInt restart_first)

/-! ## The Luby sequence -/

/-- `x` is a place of the finite part with the number `seq`. -/
structure Part (seq size x : ℕ) : Prop where
  size_eq : size + 1 = 2 ^ (seq + 1)
  lt : x < size

theorem lubyUp_spec {x size seq : ℕ} (h : size + 1 = 2 ^ (seq + 1)) :
    ∃ k size', lubyUp x size seq = (size', k) ∧ Part k size' x := by
  fun_induction lubyUp x size seq with
  | case1 size seq hlt ih =>
      refine ih ?_
      rw [Nat.pow_succ, ← h]
      ring
  | case2 size seq hge => exact ⟨seq, size, rfl, h, Nat.le_of_not_lt hge⟩

/-- The first part has one place, at which the loop ends. -/
theorem Part.zero {size x : ℕ} (h : Part 0 size x) : size - 1 = x := by
  obtain ⟨hsize, hlt⟩ := h
  omega

theorem half {seq size : ℕ} (h : size + 1 = 2 ^ (seq + 2)) :
    (size - 1) / 2 + 1 = 2 ^ (seq + 1) := by
  rw [Nat.pow_succ] at h
  have hpos : 0 < 2 ^ (seq + 1) := Nat.pow_pos Nat.two_pos
  omega

theorem Part.next {seq size x : ℕ} (h : Part (seq + 1) size x) :
    Part seq ((size - 1) / 2) (x % ((size - 1) / 2)) := by
  refine ⟨half h.size_eq, Nat.mod_lt _ ?_⟩
  have hhalf := half h.size_eq
  have hle : 2 ≤ 2 ^ (seq + 1) := Nat.le_self_pow (Nat.succ_ne_zero seq) 2
  omega

/-- Any part that contains the place will do. -/
theorem lubyDown_succ {seq size x : ℕ} (hx : x < (size - 1) / 2) :
    lubyDown (seq + 1) size x = lubyDown seq ((size - 1) / 2) x := by
  rw [lubyDown, if_pos (by omega), Nat.mod_eq_of_lt hx]

theorem lubyDown_eq {seq k size size' x : ℕ} (h : Part seq size x) (h' : Part k size' x) :
    lubyDown seq size x = lubyDown k size' x := by
  have hup : ∀ j seq size, Part seq size x → ∀ size', size' + 1 = 2 ^ (seq + j + 1) →
      lubyDown (seq + j) size' x = lubyDown seq size x := by
    intro j
    induction j with
    | zero =>
        intro seq size h size' h'
        obtain rfl : size' = size := Nat.succ.inj (h'.trans h.size_eq.symm)
        rfl
    | succ j ih =>
        intro seq size h size' h'
        have hhalf := @half (seq + j) _ h'
        have hsize := h.size_eq
        have hlt := h.lt
        have hle : 2 ^ (seq + 1) ≤ 2 ^ (seq + j + 1) := Nat.pow_le_pow_right Nat.two_pos (by omega)
        rw [← Nat.add_assoc, lubyDown_succ (by omega)]
        exact ih seq size h _ hhalf
  rcases Nat.le_total seq k with hle | hle
  · obtain ⟨j, rfl⟩ := Nat.exists_eq_add_of_le hle
    exact (hup j seq size h size' h'.size_eq).symm
  · obtain ⟨j, rfl⟩ := Nat.exists_eq_add_of_le hle
    exact hup j k size' h' size h.size_eq

theorem lubySeq_eq {seq size x : ℕ} (h : Part seq size x) : lubySeq x = lubyDown seq size x := by
  obtain ⟨k, size', hrun, h'⟩ := @lubyUp_spec x 1 0 rfl
  rw [lubySeq, hrun]
  exact lubyDown_eq h' h

/-- The last place of a part. -/
theorem lubySeq_last (k : ℕ) : lubySeq (2 ^ (k + 1) - 2) = k := by
  have hpos : 2 ≤ 2 ^ (k + 1) := Nat.le_self_pow (Nat.succ_ne_zero k) 2
  rw [@lubySeq_eq k (2 ^ (k + 1) - 1) _ ⟨by omega, by omega⟩]
  cases k with
  | zero => rfl
  | succ k => rw [lubyDown, if_neg (by omega)]

/-- The places before it repeat the part before. -/
theorem lubySeq_repeat {k x : ℕ} (hx : x < 2 ^ (k + 1) - 1) :
    lubySeq (2 ^ (k + 1) - 1 + x) = lubySeq x := by
  have hsize : 2 ^ (k + 2) - 1 + 1 = 2 ^ (k + 2) := Nat.sub_add_cancel Nat.one_le_two_pow
  have hhalf := half hsize
  have hpow : 2 ^ (k + 2) = 2 ^ (k + 1) * 2 := Nat.pow_succ 2 (k + 1)
  rw [lubySeq_eq ⟨hsize, by omega⟩, lubyDown, if_pos (by omega),
    lubySeq_eq ⟨hhalf, by omega⟩, Nat.mod_eq_sub_mod (by omega), Nat.mod_eq_of_lt (by omega)]
  congr 1
  omega

/-- `luby` computes the Luby sequence: each part is the part before it twice, and then its
number. -/
theorem luby_unique {f : ℕ → ℕ} : f = lubySeq ↔ (∀ k, f (2 ^ (k + 1) - 2) = k) ∧
    ∀ k x, x < 2 ^ (k + 1) - 1 → f (2 ^ (k + 1) - 1 + x) = f x := by
  constructor
  · rintro rfl
    exact ⟨lubySeq_last, fun k x => lubySeq_repeat⟩
  · rintro ⟨hlast, hrepeat⟩
    funext n
    induction n using Nat.strong_induction_on with
    | _ n ih =>
        -- the part that ends at `n`, or the one that `n` lies behind
        obtain ⟨k, hle, hlt⟩ : ∃ k, 2 ^ (k + 1) ≤ n + 2 ∧ n + 2 < 2 ^ (k + 1) * 2 := by
          refine ⟨Nat.log 2 (n + 2) - 1, ?_⟩
          have hpos : 0 < Nat.log 2 (n + 2) := Nat.log_pos Nat.one_lt_two (Nat.le_add_left 2 n)
          rw [Nat.sub_add_cancel hpos, ← Nat.pow_succ]
          exact ⟨Nat.pow_log_le_self 2 (Nat.succ_ne_zero _),
            Nat.lt_pow_succ_log_self Nat.one_lt_two _⟩
        have htwo : 2 ≤ 2 ^ (k + 1) := Nat.le_self_pow (Nat.succ_ne_zero k) 2
        rcases hle.eq_or_lt with heq | hgt
        · obtain rfl : n = 2 ^ (k + 1) - 2 := by omega
          rw [hlast, lubySeq_last]
        · obtain ⟨x, rfl⟩ : ∃ x, n = 2 ^ (k + 1) - 1 + x := ⟨n - (2 ^ (k + 1) - 1), by omega⟩
          have hx : x < 2 ^ (k + 1) - 1 := by omega
          rw [hrepeat k x hx, lubySeq_repeat hx]
          exact ih x (by omega)

end ExtFolding.Minisat
