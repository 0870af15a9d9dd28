import ExtFolding.Lib.Cube

/-!
# Reduced ordered decision diagrams

Diagrams over the variables in their natural order. A diagram without redundant tests is
determined by its function (`Bdd.eq_of_eval`), and every function of the first `n` variables
has one (`Robdd.ofFun`), so operations can be given by their meaning.
-/

namespace ExtFolding

inductive Bdd where
  | leaf (b : Bool)
  | node (v : ℕ) (lo hi : Bdd)
deriving DecidableEq

namespace Bdd

def eval : Bdd → Assign → Bool
  | leaf b, _ => b
  | node v lo hi, x => if x v then hi.eval x else lo.eval x

/-- Variables grow from `n` on along every path, and no test is redundant. -/
def Ok : ℕ → Bdd → Prop
  | _, leaf _ => True
  | n, node v lo hi => n ≤ v ∧ lo ≠ hi ∧ lo.Ok (v + 1) ∧ hi.Ok (v + 1)

/-- A node, unless its test is redundant. -/
def mk (v : ℕ) (lo hi : Bdd) : Bdd := if lo = hi then lo else node v lo hi

/-- All variables are below `bound`. -/
def bound : Bdd → ℕ
  | leaf _ => 0
  | node v lo hi => max (v + 1) (max lo.bound hi.bound)

/-- The diagram of a function of the variables `n, .., n + k - 1`. -/
def ofFun : ℕ → ℕ → (Assign → Bool) → Bdd
  | 0, _, f => leaf (f fun _ => false)
  | k + 1, n, f =>
      mk n (ofFun k (n + 1) fun x => f (Function.update x n false))
        (ofFun k (n + 1) fun x => f (Function.update x n true))

variable {f g : Bdd} {n m : ℕ} {x y : Assign}

theorem Ok.mono (h : f.Ok n) (hmn : m ≤ n) : f.Ok m := by
  cases f with
  | leaf b => trivial
  | node v lo hi => exact ⟨hmn.trans h.1, h.2⟩

theorem eval_mk (v : ℕ) (lo hi : Bdd) (x : Assign) :
    (mk v lo hi).eval x = if x v then hi.eval x else lo.eval x := by
  unfold mk
  split
  · next h => rw [h, ite_self]
  · rfl

theorem Ok.eval_congr (h : f.Ok n) (hxy : ∀ v, n ≤ v → x v = y v) : f.eval x = f.eval y := by
  induction f generalizing n with
  | leaf b => rfl
  | node v lo hi ihlo ihhi =>
      obtain ⟨hv, -, hlo, hhi⟩ := h
      unfold eval
      rw [hxy v hv, ihlo hlo fun w hw => hxy w (by omega), ihhi hhi fun w hw => hxy w (by omega)]

theorem eval_congr_bound (hxy : ∀ v, v < f.bound → x v = y v) : f.eval x = f.eval y := by
  induction f with
  | leaf b => rfl
  | node v lo hi ihlo ihhi =>
      unfold bound at hxy
      unfold eval
      rw [hxy v (by omega), ihlo fun w hw => hxy w (by omega), ihhi fun w hw => hxy w (by omega)]

/-- The two cofactors of a node, read off its function. -/
theorem Ok.eval_lo {v : ℕ} {lo hi : Bdd} (h : (node v lo hi).Ok n) (x : Assign) :
    (node v lo hi).eval (Function.update x v false) = lo.eval x := by
  show (if Function.update x v false v then _ else _) = _
  rw [Function.update_self, if_neg Bool.false_ne_true]
  exact h.2.2.1.eval_congr fun w hw => Function.update_of_ne (by omega) _ _

theorem Ok.eval_hi {v : ℕ} {lo hi : Bdd} (h : (node v lo hi).Ok n) (x : Assign) :
    (node v lo hi).eval (Function.update x v true) = hi.eval x := by
  show (if Function.update x v true v then _ else _) = _
  rw [Function.update_self, if_pos rfl]
  exact h.2.2.2.eval_congr fun w hw => Function.update_of_ne (by omega) _ _

/-- Reduced ordered diagrams are canonical. -/
theorem eq_of_eval : ∀ (f g : Bdd) {n : ℕ}, f.Ok n → g.Ok n → (∀ x, f.eval x = g.eval x) → f = g
  | leaf a, leaf b, _, _, _, h => congrArg leaf (h fun _ => false)
  | leaf a, node v lo hi, _, _, hg, h => by
      have hlo : ∀ x, lo.eval x = hi.eval x := fun x => by
        rw [← hg.eval_lo x, ← hg.eval_hi x, ← h, ← h]
        rfl
      exact absurd (eq_of_eval lo hi hg.2.2.1 hg.2.2.2 hlo) hg.2.1
  | node v lo hi, leaf b, _, hf, _, h => by
      have hlo : ∀ x, lo.eval x = hi.eval x := fun x => by
        rw [← hf.eval_lo x, ← hf.eval_hi x, h, h]
        rfl
      exact absurd (eq_of_eval lo hi hf.2.2.1 hf.2.2.2 hlo) hf.2.1
  | node v lo hi, node w lo' hi', _, hf, hg, h => by
      rcases Nat.lt_trichotomy v w with hlt | rfl | hlt
      · -- the right diagram does not know `v`
        have hlo : ∀ x, lo.eval x = hi.eval x := fun x => by
          rw [← hf.eval_lo x, ← hf.eval_hi x, h, h]
          apply Ok.eval_congr (show (node w lo' hi').Ok w from ⟨le_rfl, hg.2⟩)
          intro u hu
          rw [Function.update_of_ne (by omega), Function.update_of_ne (by omega)]
        exact absurd (eq_of_eval lo hi hf.2.2.1 hf.2.2.2 hlo) hf.2.1
      · have hlo := eq_of_eval lo lo' hf.2.2.1 hg.2.2.1 fun x => by
          rw [← hf.eval_lo x, ← hg.eval_lo x, h]
        have hhi := eq_of_eval hi hi' hf.2.2.2 hg.2.2.2 fun x => by
          rw [← hf.eval_hi x, ← hg.eval_hi x, h]
        rw [hlo, hhi]
      · have hlo : ∀ x, lo'.eval x = hi'.eval x := fun x => by
          rw [← hg.eval_lo x, ← hg.eval_hi x, ← h, ← h]
          apply Ok.eval_congr (show (node v lo hi).Ok v from ⟨le_rfl, hf.2⟩)
          intro u hu
          rw [Function.update_of_ne (by omega), Function.update_of_ne (by omega)]
        exact absurd (eq_of_eval lo' hi' hg.2.2.1 hg.2.2.2 hlo) hg.2.1
  termination_by f g => sizeOf f + sizeOf g

theorem ok_ofFun (k n : ℕ) (f : Assign → Bool) : (ofFun k n f).Ok n := by
  induction k generalizing n f with
  | zero => trivial
  | succ k ih =>
      unfold ofFun mk
      split
      · exact (ih _ _).mono (Nat.le_succ n)
      · next h => exact ⟨le_rfl, h, ih _ _, ih _ _⟩

theorem eval_ofFun (k n : ℕ) (f : Assign → Bool)
    (hf : ∀ x y : Assign, (∀ v, n ≤ v → v < n + k → x v = y v) → f x = f y) (x : Assign) :
    (ofFun k n f).eval x = f x := by
  induction k generalizing n f with
  | zero => exact hf _ _ fun v hv hv' => by omega
  | succ k ih =>
      have hb : ∀ b, (ofFun k (n + 1) fun x => f (Function.update x n b)).eval x =
          f (Function.update x n b) := by
        intro b
        apply ih
        intro y z hyz
        apply hf
        intro v hv hv'
        by_cases hvn : v = n
        · rw [hvn, Function.update_self, Function.update_self]
        · rw [Function.update_of_ne hvn, Function.update_of_ne hvn]
          exact hyz v (by omega) (by omega)
      rw [ofFun, eval_mk, hb, hb]
      cases hx : x n with
      | false => rw [if_neg Bool.false_ne_true, ← hx, Function.update_eq_self]
      | true => rw [if_pos rfl, ← hx, Function.update_eq_self]

end Bdd

/-- Reduced ordered diagrams. -/
def Robdd := { f : Bdd // f.Ok 0 }

namespace Robdd

instance : DecidableEq Robdd := fun f g => decidable_of_iff (f.1 = g.1) Subtype.ext_iff.symm

def eval (f : Robdd) (x : Assign) : Bool := f.1.eval x

def bound (f : Robdd) : ℕ := f.1.bound

/-- The diagram of a function of the first `n` variables. -/
def ofFun (n : ℕ) (f : Assign → Bool) : Robdd := ⟨Bdd.ofFun n 0 f, Bdd.ok_ofFun n 0 f⟩

theorem eval_inj {f g : Robdd} (h : ∀ x, f.eval x = g.eval x) : f = g :=
  Subtype.ext (Bdd.eq_of_eval f.1 g.1 f.2 g.2 h)

theorem eval_congr {f : Robdd} {x y : Assign} (h : ∀ v, v < f.bound → x v = y v) :
    f.eval x = f.eval y := Bdd.eval_congr_bound h

theorem eval_ofFun {n : ℕ} {f : Assign → Bool} (hf : DependsOn f { v | v < n }) (x : Assign) :
    (ofFun n f).eval x = f x :=
  Bdd.eval_ofFun n 0 f (fun _ _ h => hf fun v hv => h v (Nat.zero_le _) (by simpa using hv)) x

end Robdd

end ExtFolding
