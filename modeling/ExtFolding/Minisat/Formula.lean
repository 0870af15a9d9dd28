import ExtFolding.Lib.Sat
import ExtFolding.Minisat.Session

/-!
# `DIMACSWriter.cpp`: MiniSat for a formula

The writer makes a variable when a literal names it, adds the clauses one after the other and asks
once, without assumptions. What it is told of a formula is right.
-/

namespace ExtFolding.Minisat

open Cdcl LBool

variable {F : Type} [Double F]

/-! ## The clauses of a formula -/

open Std.Sat

/-- `(lit>0) ? mkLit(var, false) : ~mkLit(var, false)` -/
def toLit (l : Literal ℕ) : Lit := if l.2 then mkLit l.1 false else -mkLit l.1 false

namespace Solver

/-- `newVar()`, `n` times -/
def newVars : ℕ → Solver F → Solver F
  | 0, s => s
  | n + 1, s => newVars n (s.newVar true true).2

/-- `curMinisatClause` is behind the solver. -/
def addLitToCurrentClause (r : Solver F × List Lit) (lit : Literal ℕ) : Solver F × List Lit :=
  (r.1.newVars (lit.1 + 1 - r.1.nVars), r.2 ++ [toLit lit])

/-- The literals of a clause, and `addClause()`. -/
def addClause (s : Solver F) (c : CNF.Clause ℕ) : Option (Solver F) :=
  let r := c.foldl addLitToCurrentClause (s, [])
  (r.1.addClause_ r.2).map Prod.snd

end Solver

variable (F) in
/-- The solver after `buildCNF`. -/
def feed (cs : List (CNF.Clause ℕ)) : Option (Solver F) := cs.foldlM Solver.addClause Solver.new

@[simp] theorem var_toLit (l : Literal ℕ) : (toLit l).var = l.1 := by
  unfold toLit
  split <;> simp

theorem holds_toLit {m : ℕ → Bool} {l : Literal ℕ} : (valuation m).holds (toLit l) ↔
    m l.1 = l.2 := by
  show m (toLit l).var = !(toLit l).sign ↔ _
  rw [var_toLit]
  unfold toLit
  cases l.2 <;> simp

theorem sat_toLit {m : ℕ → Bool} {c : CNF.Clause ℕ} :
    (valuation m).Sat (c.map toLit) ↔ ∃ l ∈ c, m l.1 = l.2 := by
  simp [Valuation.Sat, holds_toLit, -Prod.exists]

/-- All variables may be decided. -/
def AllDecided (s : Solver F) : Prop := ∀ x < s.nVars, s.decision x = true

section

variable [LawfulDouble F] {N : Set (List Lit)} {s : Solver F}

theorem newVars_spec (n : ℕ) (h : Reachable N s) (hd : AllDecided s) :
    Reachable N (s.newVars n) ∧ AllDecided (s.newVars n) ∧ (s.newVars n).nVars = s.nVars + n := by
  induction n generalizing s with
  | zero => exact ⟨h, hd, rfl⟩
  | succ n ih =>
      obtain ⟨-, hn, hdec⟩ := newVar_spec h.idle true true
      have hd' : AllDecided (s.newVar true true).2 := fun x hx => by
        rw [hdec, Function.update_apply]
        split
        · rfl
        · next hne =>
            rw [hn] at hx
            exact hd x (Nat.lt_of_le_of_ne (Nat.le_of_lt_succ hx) hne)
      obtain ⟨h', hd'', hn'⟩ := ih (h.newVar true true) hd'
      refine ⟨h', hd'', hn'.trans ?_⟩
      omega

theorem foldl_addLit (c : CNF.Clause ℕ) (lits : List Lit) (h : Reachable N s) (hd : AllDecided s)
    (hlt : ∀ p ∈ lits, p.var < s.nVars) :
    ∃ s', c.foldl Solver.addLitToCurrentClause (s, lits) = (s', lits ++ c.map toLit) ∧
      Reachable N s' ∧
      AllDecided s' ∧ ∀ p ∈ lits ++ c.map toLit, p.var < s'.nVars := by
  induction c generalizing s lits with
  | nil => exact ⟨s, by simp, h, hd, by simpa using hlt⟩
  | cons l c ih =>
      obtain ⟨h', hd', hn⟩ := newVars_spec (l.1 + 1 - s.nVars) h hd
      obtain ⟨s', hrun, hpost⟩ := ih (s := s.newVars (l.1 + 1 - s.nVars)) (lits ++ [toLit l]) h' hd'
        fun p hp => by
          rw [hn]
          rcases List.mem_append.mp hp with hp | hp
          · exact (hlt p hp).trans_le (Nat.le_add_right _ _)
          · rw [List.mem_singleton.mp hp, var_toLit]
            omega
      refine ⟨s', ?_, ?_⟩
      · simpa [Solver.addLitToCurrentClause] using hrun
      · simpa using hpost

/-- The solver has all clauses of the formula, and no others. -/
theorem foldlM_addClause (cs : List (CNF.Clause ℕ)) (h : Reachable N s) (hd : AllDecided s) :
    ∃ s', cs.foldlM Solver.addClause s = some s' ∧
      Reachable (N ∪ {e | e ∈ cs.map (List.map toLit)}) s' ∧
      AllDecided s' := by
  induction cs generalizing N s with
  | nil => exact ⟨s, rfl, by simpa using h, hd⟩
  | cons c cs ih =>
      obtain ⟨s₁, hfold, h₁, hd₁, hlt⟩ := foldl_addLit c [] h hd (by simp)
      rw [List.nil_append] at hfold hlt
      obtain ⟨b, s₂, hrun, -, hn, hdec, -⟩ := addClause_idle h₁.idle hlt
      have hd₂ : AllDecided s₂ := fun x hx => by
        rw [hdec]
        exact hd₁ x (hn ▸ hx)
      obtain ⟨s₃, hrest, h₃, hd₃⟩ := ih (h₁.addClause hlt hrun) hd₂
      refine ⟨s₃, ?_, ?_, hd₃⟩
      · simp only [List.foldlM_cons, Solver.addClause, hfold, hrun, Option.map_some,
          Option.bind_eq_bind,
          Option.bind_some]
        exact hrest
      · refine (Set.ext fun e => ?_ : insert (c.map toLit) N ∪ {e | e ∈ cs.map (List.map toLit)} =
          N ∪ {e | e ∈ (c :: cs).map (List.map toLit)}) ▸ h₃
        simp only [Set.mem_union, Set.mem_insert_iff, Set.mem_ofPred_eq, List.map_cons,
          List.mem_cons]
        tauto

/-! ## A solver for formulas -/

theorem feed_spec (cs : List (CNF.Clause ℕ)) :
    ∃ s, feed F cs = some s ∧ Reachable {e | e ∈ cs.map (List.map toLit)} s ∧ AllDecided s := by
  obtain ⟨s, hrun, h, hd⟩ := foldlM_addClause cs (Reachable.new (F := F)) fun x hx =>
    absurd hx (Nat.not_lt_zero x)
  rw [Set.empty_union] at h
  exact ⟨s, hrun, h, hd⟩

/-- The assignment that is read off `S.model`. -/
def assignment (model : List LBool) (x : ℕ) : Bool := decide (model[x]? = some l_True)

variable (F) in
/-- `buildCNF`, `S.solveLimited(dummy)`, and the model when there is one. -/
def solveFormula (fuel : ℕ) (f : CNF ℕ) : Option (Option (ℕ → Bool)) := do
  let s ← feed F f.clauses.toList
  let r ← s.solveLimited fuel []
  return if r.1 = l_True then some (assignment r.2.model) else none

theorem agrees_assignment (model : List LBool) : Agrees (assignment model) model := by
  intro x b hx
  unfold assignment
  rw [hx]
  cases b <;> simp [ofBool]

/-- An answer is an assignment that satisfies the formula, or that there is none. -/
theorem solveFormula_right {fuel : ℕ} {f : CNF ℕ} {r : Option (ℕ → Bool)}
    (hrun : solveFormula F fuel f = some r) :
    match r with
      | some m => CNF.Sat m f
      | none => CNF.Unsat f := by
  obtain ⟨s, hfeed, hreach, hall⟩ := feed_spec (F := F) f.clauses.toList
  have hsat : ∀ m, CNF.Sat m f ↔ ∀ c ∈ f.clauses.toList, ∃ l ∈ c, m l.1 = l.2 := fun m =>
    Sat.sat_formula
  simp only [solveFormula, hfeed, Option.bind_eq_bind, Option.bind_some] at hrun
  obtain ⟨⟨b, s'⟩, hsolve, hrun⟩ := Option.bind_eq_some_iff.mp hrun
  cases hrun
  obtain ⟨hdec, ha, -, hsolved⟩ := answer_right hreach (by simp) hsolve
  cases b with
  | l_Undef => exact absurd hsolved not_false
  | l_True =>
      refine (hsat _).mpr fun c hc => sat_toLit.mp ?_
      have hmem : c.map toLit ∈ {e | e ∈ f.clauses.toList.map (List.map toLit)} :=
        List.mem_map_of_mem hc
      refine (hsolved.2 _ (agrees_assignment _)).2 _ hmem fun p hp => ?_
      rw [hdec]
      exact hall _ (hreach.idle.lt _ hmem p hp)
  | l_False =>
      by_contra hno
      obtain ⟨m, hm⟩ := Sat.satisfiable_iff_not_unsat.mpr hno
      obtain ⟨p, hp, -⟩ := hsolved.unsat (v := valuation m) fun e he => by
        obtain ⟨c, hc, rfl⟩ := List.mem_map.mp he
        exact sat_toLit.mpr ((hsat m).mp hm c hc)
      rw [ha] at hp
      exact absurd hp List.not_mem_nil

/-- What MiniSat answers is right: whether a formula is satisfiable, and an assignment that
satisfies it. There is no answer yet only if all limits so far were within the number of rounds. -/
theorem solveFormula_decides (fuel : ℕ) (f : CNF ℕ) :
    (∃ r, solveFormula F fuel f = some r ∧ (r.isSome ↔ Sat.Satisfiable f) ∧
      ∀ m, r = some m → CNF.Sat m f) ∨
    solveFormula F fuel f = none ∧ ∃ s, feed F f.clauses.toList = some s ∧
      ∀ k < fuel, 0 ≤ restartLimit F k ∧ restartLimit F k ≤ runBound s.nVars s.nVars := by
  obtain ⟨s, hfeed, hreach, -⟩ := feed_spec (F := F) f.clauses.toList
  cases hrun : solveFormula F fuel f with
  | some r =>
      have hright := solveFormula_right hrun
      refine Or.inl ⟨r, rfl, ?_, ?_⟩
      · cases r with
        | some m => exact iff_of_true rfl ⟨m, hright⟩
        | none =>
            exact iff_of_false Bool.false_ne_true fun hsat =>
              Sat.satisfiable_iff_not_unsat.mp hsat hright
      · rintro m rfl
        exact hright
  | none =>
      refine Or.inr ⟨rfl, s, hfeed, ?_⟩
      rcases solveLimited_spec fuel [] hreach.idle (by simp) with ⟨b, s', hsolve, -⟩ | ⟨-, hlim⟩
      · simp [solveFormula, hfeed, hsolve] at hrun
      · simpa using hlim

theorem solveFormula_decides_unit :
    (∃ r, solveFormula ℚ 1 (Sat.formula [[(0, true)], [(0, false), (1, true)]]) = some r ∧
      (r.isSome ↔ Sat.Satisfiable (Sat.formula [[(0, true)], [(0, false), (1, true)]])) ∧
      ∀ m, r = some m → CNF.Sat m (Sat.formula [[(0, true)], [(0, false), (1, true)]])) ∨
    solveFormula ℚ 1 (Sat.formula [[(0, true)], [(0, false), (1, true)]]) = none ∧
      ∃ s, feed ℚ (Sat.formula [[(0, true)], [(0, false), (1, true)]]).clauses.toList = some s ∧
        ∀ k < 1, 0 ≤ restartLimit ℚ k ∧ restartLimit ℚ k ≤ runBound s.nVars s.nVars :=
  solveFormula_decides 1 _

end

end ExtFolding.Minisat
