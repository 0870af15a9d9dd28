import Mathlib

/-!
# Satisfiability

Formulas are lists of clauses over variables of any type. Before a formula is solved its variables
are numbered in the order of their first use; this changes nothing about satisfiability.
-/

namespace ExtFolding.Sat

open Std.Sat

variable {α : Type} {cs ds : List (CNF.Clause α)} {a : α → Bool}

def Satisfiable (f : CNF α) : Prop := ∃ a, CNF.Sat a f

def formula (cs : List (CNF.Clause α)) : CNF α := ⟨cs.toArray⟩

/-- The positive literal. -/
def pos (v : α) : Literal α := (v, true)

/-- The negative literal. -/
def neg (v : α) : Literal α := (v, false)

theorem satisfiable_iff_not_unsat {f : CNF α} : Satisfiable f ↔ ¬ CNF.Unsat f := by
  simp [Satisfiable, CNF.sat_def, CNF.unsat_def]

theorem sat_formula : CNF.Sat a (formula cs) ↔ ∀ c ∈ cs, ∃ l ∈ c, a l.1 = l.2 := by
  simp [CNF.sat_def, CNF.eval, formula, CNF.Clause.eval]

theorem sat_append :
    CNF.Sat a (formula (cs ++ ds)) ↔ CNF.Sat a (formula cs) ∧ CNF.Sat a (formula ds) := by
  simp only [sat_formula, List.forall_mem_append]

/-! ## Numbering -/

variable [DecidableEq α]

/-- The variables in the order of their first use. -/
def varsOf (cs : List (CNF.Clause α)) : List α := (cs.flatten.map (·.1)).eraseDups

/-- The formula over the numbers of its variables. -/
def numbered (cs : List (CNF.Clause α)) : CNF ℕ := (formula cs).relabel (varsOf cs).idxOf

theorem mem_varsOf {v : α} : v ∈ varsOf cs ↔ CNF.VarMem v (formula cs) := by
  unfold varsOf CNF.VarMem CNF.Clause.Mem formula
  simp only [List.mem_eraseDups, List.mem_map, List.mem_flatten, List.mem_toArray]
  constructor
  · rintro ⟨⟨w, b⟩, ⟨c, hc, hl⟩, rfl⟩
    refine ⟨c, hc, ?_⟩
    cases b
    · exact Or.inl hl
    · exact Or.inr hl
  · rintro ⟨c, hc, hl | hl⟩
    · exact ⟨_, ⟨c, hc, hl⟩, rfl⟩
    · exact ⟨_, ⟨c, hc, hl⟩, rfl⟩

theorem nodup_eraseDups (l : List α) : l.eraseDups.Nodup := by
  induction hn : l.length using Nat.strong_induction_on generalizing l with
  | _ n ih =>
      cases l with
      | nil => exact List.nodup_nil
      | cons a l =>
          have hlt : (l.filter fun b => !b == a).length < n := by
            rw [← hn, List.length_cons]
            exact Nat.lt_succ_of_le (List.length_filter_le _ l)
          rw [List.eraseDups_cons]
          refine List.nodup_cons.mpr ⟨fun ha => ?_, ih _ hlt _ rfl⟩
          simp [List.mem_eraseDups] at ha

/-- An assignment of the numbers is one of the variables. -/
theorem sat_numbered {b : ℕ → Bool} :
    CNF.Sat b (numbered cs) ↔ CNF.Sat (b ∘ (varsOf cs).idxOf) (formula cs) := by
  rw [CNF.sat_def, CNF.sat_def, numbered, CNF.eval_relabel]

/-- The same with the other variables set to false. -/
theorem sat_of_numbered {b : ℕ → Bool} (h : CNF.Sat b (numbered cs)) :
    CNF.Sat (fun v => decide (v ∈ varsOf cs) && b ((varsOf cs).idxOf v)) (formula cs) := by
  rw [sat_numbered, CNF.sat_def] at h
  rw [CNF.sat_def, ← h]
  refine CNF.eval_congr _ _ _ fun v hv => ?_
  simp [mem_varsOf.mpr hv]

theorem satisfiable_numbered : Satisfiable (numbered cs) ↔ Satisfiable (formula cs) := by
  rw [satisfiable_iff_not_unsat, satisfiable_iff_not_unsat, not_iff_not]
  refine CNF.unsat_relabel_iff fun h₁ h₂ heq => ?_
  exact (List.idxOf_inj (mem_varsOf.mpr h₁)).mp heq

/-! ## Solvers -/

/-- A solver whose answers are right. -/
structure Solver where
  solve : CNF ℕ → Option (ℕ → Bool)
  sound : ∀ {f m}, solve f = some m → CNF.Sat m f
  complete : ∀ {f}, solve f = none → CNF.Unsat f

theorem Solver.isSome_iff (s : Solver) {f : CNF ℕ} : (s.solve f).isSome ↔ Satisfiable f := by
  rw [Option.isSome_iff_exists]
  constructor
  · rintro ⟨m, hm⟩
    exact ⟨m, s.sound hm⟩
  · rintro ⟨m, hm⟩
    cases hf : s.solve f with
    | some m' => exact ⟨m', rfl⟩
    | none =>
        have hno := s.complete hf m
        rw [CNF.sat_def, hno] at hm
        exact Bool.noConfusion hm

/-- All assignments of the first `n` variables. -/
def assignments : ℕ → List (List Bool)
  | 0 => [[]]
  | n + 1 => (assignments n).flatMap fun l => [true :: l, false :: l]

/-- The assignment that a list stands for. -/
def ofList (l : List Bool) (v : ℕ) : Bool := l.getD v false

theorem mem_assignments (m : ℕ → Bool) (n : ℕ) :
    ∃ l ∈ assignments n, ∀ v < n, ofList l v = m v := by
  induction n generalizing m with
  | zero => exact ⟨[], List.mem_singleton_self _, fun v hv => absurd hv (Nat.not_lt_zero v)⟩
  | succ n ih =>
      obtain ⟨l, hl, heq⟩ := ih fun v => m (v + 1)
      refine ⟨m 0 :: l, List.mem_flatMap.mpr ⟨l, hl, ?_⟩, fun v hv => ?_⟩
      · cases m 0 <;> simp
      · cases v with
        | zero => rfl
        | succ v => exact heq v (Nat.lt_of_succ_lt_succ hv)

/-- The solver that tries every assignment. -/
def tryAll : Solver where
  solve f := ((assignments f.numLiterals).find? fun l => f.eval (ofList l)).map ofList
  sound h := by
    obtain ⟨l, hl, rfl⟩ := Option.map_eq_some_iff.mp h
    have heval := List.find?_some hl
    exact heval
  complete {f} h m := by
    obtain ⟨l, hl, heq⟩ := mem_assignments m f.numLiterals
    have hno := List.find?_eq_none.mp (Option.map_eq_none_iff.mp h) l hl
    rw [Bool.not_eq_true] at hno
    rw [← hno]
    exact CNF.eval_congr _ _ f fun v hv => (heq v (CNF.lt_numLiterals hv)).symm

end ExtFolding.Sat
