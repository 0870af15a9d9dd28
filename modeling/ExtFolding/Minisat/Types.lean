import ExtFolding.Lib.Cdcl

/-!
# `memin/minisat/core/SolverTypes.h`: literals, lifted booleans and clauses

A literal is a number: twice the variable, plus one for the negative literal. Variables and
references to clauses are numbers too.
-/

namespace ExtFolding.Minisat

structure Lit where
  x : ℕ
deriving DecidableEq, Inhabited

/-- `mkLit(var, sign)` -/
def mkLit (v : ℕ) (sign : Bool) : Lit := ⟨v + v + sign.toNat⟩

namespace Lit

/-- `sign(p)` -/
def sign (p : Lit) : Bool := p.x % 2 = 1

/-- `var(p)` -/
def var (p : Lit) : ℕ := p.x / 2

/-- `~p` -/
instance : Neg Lit := ⟨fun p => ⟨p.x ^^^ 1⟩⟩

theorem neg_x (p : Lit) : (-p).x = p.x ^^^ 1 := rfl

@[simp] theorem var_neg (p : Lit) : (-p).var = p.var := by
  simp [var, neg_x, Nat.xor_div_two]

@[simp] theorem sign_neg (p : Lit) : (-p).sign = !p.sign := by
  unfold sign
  rw [neg_x, ← decide_not, decide_eq_decide, Nat.xor_mod_two_eq_one]
  simp

@[ext] theorem ext {p q : Lit} (hv : p.var = q.var) (hs : p.sign = q.sign) : p = q := by
  obtain ⟨m⟩ := p
  obtain ⟨n⟩ := q
  have hdiv : m / 2 = n / 2 := hv
  have hmod : m % 2 = 1 ↔ n % 2 = 1 := by simpa [sign] using hs
  have hmn : m = n := by omega
  rw [hmn]

instance : InvolutiveNeg Lit := ⟨fun p => Lit.ext (by simp) (by simp)⟩

@[simp] theorem var_mkLit (v : ℕ) (s : Bool) : (mkLit v s).var = v := by
  cases s
  · show (v + v + 0) / 2 = v
    omega
  · show (v + v + 1) / 2 = v
    omega

@[simp] theorem sign_mkLit (v : ℕ) (s : Bool) : (mkLit v s).sign = s := by
  cases s
  · exact decide_eq_false (by show ¬ (v + v + 0) % 2 = 1; omega)
  · exact decide_eq_true (by show (v + v + 1) % 2 = 1; omega)

theorem ne_neg (p : Lit) : p ≠ -p := by
  intro h
  have hs := congrArg sign h
  rw [sign_neg] at hs
  cases hp : p.sign <;> simp [hp] at hs

theorem var_eq_iff {p q : Lit} : p.var = q.var ↔ p = q ∨ p = -q := by
  constructor
  · intro h
    by_cases hs : p.sign = q.sign
    · exact Or.inl (Lit.ext h hs)
    · exact Or.inr (Lit.ext (by simpa using h) (by rw [sign_neg]; exact Bool.eq_not_of_ne hs))
  · rintro (rfl | rfl) <;> simp

end Lit

/-- A lifted boolean. -/
inductive LBool where
  | l_True
  | l_False
  | l_Undef
deriving DecidableEq

namespace LBool

/-- `lbool(b)` -/
def ofBool (b : Bool) : LBool := if b then l_True else l_False

/-- `operator ^`; it keeps `l_Undef`. -/
def xor : LBool → Bool → LBool
  | l_True, b => if b then l_False else l_True
  | l_False, b => if b then l_True else l_False
  | l_Undef, _ => l_Undef

end LBool

/-- The header and the literals of a clause; `mark` is set when the clause is removed. -/
structure Clause where
  lits : List Lit
  learnt : Bool
  mark : Bool
deriving DecidableEq

structure Watcher where
  cref : ℕ
  blocker : Lit
deriving DecidableEq

/-- The reason and the level of a variable. -/
structure VarData where
  reason : Option ℕ
  level : ℕ

/-! ## Valuations -/

open Cdcl

/-- What an assignment of the variables makes of the literals. -/
def valuation (m : ℕ → Bool) : Valuation Lit where
  holds p := m p.var = !p.sign
  neg p := by cases h : m p.var <;> cases h' : p.sign <;> simp [h, h']

end ExtFolding.Minisat
