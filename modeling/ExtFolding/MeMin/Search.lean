import ExtFolding.MeMin.Clique
import ExtFolding.MeMin.Cnf
import ExtFolding.MeMin.Split
import ExtFolding.MeMin.Unreachable

/-!
# `memin/minimizer.cpp`: the search for the number of classes

`MeMin_Command` from the machine that is read to the first satisfiable formula. Numbers of classes
are tried upwards from the size of the partial solution.
-/

namespace ExtFolding.MeMin

open Std.Sat ExtFolding.Sat

/-! ## The code -/

/-- What the run may depend on besides its input: orders of traversal, the sorting of equal keys,
and the models that the solver finds. -/
structure Choices where
  predOrder : ℕ → PredMap → PredMap
  predPerm : ∀ s m, (predOrder s m).Perm m
  hashing : ℕ → Hashing
  setOrders : SetOrders
  sortDesc : SortDesc
  solver : Solver

/-- The options `-np` and `-nl`. -/
structure Modes where
  noPartialSolutionInSat : Bool
  noLowerBound : Bool

/-- The variables before the loop over `nClasses`. -/
structure Problem where
  machine : List (List Trans)
  resetState : Option ℕ
  incompMatrix : List Bool
  tables : SplitMachine
  pairwiseIncStates : List ℕ

/-- `if (resetState!=-1) removeUnreachableStates(machine, resetState);` -/
def trim (m : Machine) : Option (List (List Trans) × Option ℕ) :=
  match m.resetState with
  | none => some (m.states, none)
  | some r => do
      let p ← removeUnreachableStates m.states r
      return (p.1, some p.2)

/-- `if (!noLowerBound) findPairwiseIncStates(pairwiseIncStates, incompMatrix, nStates);` -/
def partialSolution (sd : SortDesc) (modes : Modes) (nStates : ℕ) (incompMatrix : List Bool) :
    List ℕ :=
  if modes.noLowerBound then [] else findPairwiseIncStates sd nStates incompMatrix

/-- Everything before the loop. -/
def prepare (ch : Choices) (modes : Modes) (fuel : ℕ) (m : Machine) : Option Problem := do
  let (machine, resetState) ← trim m
  let nStates := machine.length
  let size ← matrixSize nStates
  let incompMatrix ← computeIncompMatrix ch.predOrder machine (List.replicate size false)
  let tables ← splitTransitions ch.hashing ch.setOrders fuel machine incompMatrix
  return ⟨machine, resetState, incompMatrix, tables,
    partialSolution ch.sortDesc modes nStates incompMatrix⟩

namespace Problem

/-- What `buildCNF` is called with; `-np` clears the partial solution first. -/
def cnf (p : Problem) (modes : Modes) (nClasses : ℕ) : CnfInput where
  numClasses := nClasses
  machineNextState := p.tables.nextStatesMap
  incompMatrix := p.incompMatrix
  pairwiseIncStates := if modes.noPartialSolutionInSat then [] else p.pairwiseIncStates
  numInputs := p.tables.inputIDToIncSpecSeq.length

/-- `steps` rounds of the loop from `nClasses` on: the number of classes that is found, with a
model. -/
def classLoop (p : Problem) (s : Solver) (modes : Modes) : ℕ → ℕ → Option (ℕ × (ℕ → Bool))
  | 0, _ => none
  | steps + 1, nClasses =>
      match s.solve (numbered (p.cnf modes nClasses).buildCNF) with
      | some model => some (nClasses, model)
      | none => classLoop p s modes steps (nClasses + 1)

/-- The loop from its start. -/
def search (p : Problem) (s : Solver) (modes : Modes) (steps : ℕ) : Option (ℕ × (ℕ → Bool)) :=
  p.classLoop s modes steps p.pairwiseIncStates.length

/-! ## The loop -/

variable {p : Problem} {s : Solver} {modes : Modes}

/-- The loop stops at the first satisfiable formula. -/
theorem classLoop_some {steps start k : ℕ} {model : ℕ → Bool}
    (h : p.classLoop s modes steps start = some (k, model)) :
    start ≤ k ∧ CNF.Sat model (numbered (p.cnf modes k).buildCNF) ∧
      ∀ j, start ≤ j → j < k → ¬ Satisfiable (numbered (p.cnf modes j).buildCNF) := by
  induction steps generalizing start with
  | zero => exact absurd h (by simp [classLoop])
  | succ steps ih =>
      rw [classLoop] at h
      cases hsolve : s.solve (numbered (p.cnf modes start).buildCNF) with
      | some m =>
          rw [hsolve] at h
          obtain ⟨rfl, rfl⟩ := Prod.mk.inj (Option.some.inj h)
          exact ⟨le_rfl, s.sound hsolve, fun j h₁ h₂ => absurd h₁ (Nat.not_le_of_lt h₂)⟩
      | none =>
          rw [hsolve] at h
          obtain ⟨hle, hsat, hbelow⟩ := ih h
          refine ⟨(Nat.le_succ start).trans hle, hsat, fun j h₁ h₂ => ?_⟩
          rcases Nat.eq_or_lt_of_le h₁ with rfl | hlt
          · rw [satisfiable_iff_not_unsat, not_not]
            exact s.complete hsolve
          · exact hbelow j hlt h₂

/-- Enough rounds reach a satisfiable formula. -/
theorem exists_classLoop {start k : ℕ} (hle : start ≤ k)
    (h : Satisfiable (numbered (p.cnf modes k).buildCNF)) {steps : ℕ} (hsteps : k - start < steps) :
    ∃ j model, j ≤ k ∧ p.classLoop s modes steps start = some (j, model) := by
  induction steps generalizing start with
  | zero => exact absurd hsteps (Nat.not_lt_zero _)
  | succ steps ih =>
      rw [classLoop]
      cases hsolve : s.solve (numbered (p.cnf modes start).buildCNF) with
      | some model => exact ⟨start, model, hle, rfl⟩
      | none =>
          have hne : start ≠ k := by
            rintro rfl
            obtain ⟨model, hm⟩ := Option.isSome_iff_exists.mp (s.isSome_iff.mpr h)
            exact Option.some_ne_none _ (hm.symm.trans hsolve)
          have hlt : start < k := Nat.lt_of_le_of_ne hle hne
          exact ih hlt (by omega)

end Problem

/-! ## What is prepared -/

variable {ni no : ℕ} {ch : Choices} {modes : Modes} {m : Machine} {p : Problem}

/-- The machine of the loop is the machine that was read, without its unreachable states if there is
a reset state. -/
def Trimmed (m : Machine) (machine : List (List Trans)) : Option ℕ → Prop
  | none => m.resetState = none ∧ machine = m.states
  | some r => ∃ r₀ f, m.resetState = some r₀ ∧ r = f r₀ ∧ Renamed m.states r₀ machine f

/-- What the earlier phases have established. -/
structure ProblemOk (ni no : ℕ) (m : Machine) (p : Problem) : Prop where
  trimmed : Trimmed m p.machine p.resetState
  pos : 0 < p.machine.length
  mach : MachOk ni no p.machine
  matrix : IncompMatrix ni p.machine p.incompMatrix
  tables : ∃ parts, TablesOk ni p.machine p.incompMatrix parts p.tables
  clique : Clique p.machine.length p.incompMatrix p.pairwiseIncStates

theorem exists_trimmed (hm : MachOk ni no m.states) (hne : m.states ≠ [])
    (hr : ∀ r, m.resetState = some r → r < m.states.length) :
    ∃ machine reset, trim m = some (machine, reset) ∧ Trimmed m machine reset ∧
      0 < machine.length ∧ MachOk ni no machine := by
  unfold trim
  cases hreset : m.resetState with
  | none => exact ⟨_, _, rfl, ⟨hreset, rfl⟩, List.length_pos_of_ne_nil hne, hm⟩
  | some r =>
      obtain ⟨machine, f, hrun, hf⟩ := exists_renamed hm.next (hr r hreset)
      refine ⟨machine, some (f r), by simp [hrun], ⟨r, f, hreset, rfl, hf⟩,
        Nat.zero_lt_of_lt hf.reset_lt, hf.machOk hm⟩

/-- The phases one by one. -/
theorem prepare_some {fuel : ℕ} (h : prepare ch modes fuel m = some p) :
    trim m = some (p.machine, p.resetState) ∧ p.machine.length ≤ 46340 ∧
      p.pairwiseIncStates =
        partialSolution ch.sortDesc modes p.machine.length p.incompMatrix := by
  obtain ⟨⟨machine, reset⟩, htrim, h⟩ := Option.bind_eq_some_iff.mp h
  obtain ⟨size, hsize, h⟩ := Option.bind_eq_some_iff.mp h
  obtain ⟨matrix, -, h⟩ := Option.bind_eq_some_iff.mp h
  obtain ⟨tables, -, h⟩ := Option.bind_eq_some_iff.mp h
  obtain rfl := Option.some.inj h
  refine ⟨htrim, ?_, rfl⟩
  by_contra hbig
  rw [matrixSize_none (Nat.lt_of_not_le hbig)] at hsize
  exact absurd hsize (by simp)

theorem exists_problem {machine : List (List Trans)} {reset : Option ℕ} (ch : Choices)
    (modes : Modes) (hm : MachOk ni no m.states) (hne : m.states ≠ [])
    (hr : ∀ r, m.resetState = some r → r < m.states.length)
    (htrim : trim m = some (machine, reset)) (hsize : machine.length ≤ 46340) :
    ∃ N, ∀ fuel ≥ N, ∃ p, prepare ch modes fuel m = some p ∧ ProblemOk ni no m p := by
  obtain ⟨machine', reset', htrim', htrimmed, hpos, hok⟩ := exists_trimmed hm hne hr
  obtain ⟨rfl, rfl⟩ := Prod.mk.inj (Option.some.inj (htrim.symm.trans htrim'))
  obtain ⟨matrix, hmatrix, hinc⟩ := exists_incompMatrix hok hsize ch.predPerm
  obtain ⟨N, hN⟩ := exists_split hok.input
    (fun s hs t ht hst => (hinc.symm ht hs).trans hst) ch.hashing ch.setOrders
  refine ⟨N, fun fuel hfuel => ?_⟩
  obtain ⟨tables, parts, hrun, htables⟩ := hN fuel hfuel
  refine ⟨⟨machine, reset, matrix, tables,
      partialSolution ch.sortDesc modes machine.length matrix⟩, ?_, htrimmed, hpos, hok, hinc,
        ⟨parts, htables⟩, ?_⟩
  · unfold prepare
    simp [htrim, matrixSize_some hsize, hmatrix, hrun]
  · show Clique machine.length matrix (partialSolution _ _ _ _)
    unfold partialSolution
    split
    · exact Clique.nil
    · exact findPairwiseIncStates_clique ch.sortDesc

theorem ProblemOk.succ (h : ProblemOk ni no m p) {s a t : ℕ}
    (hst : (p.tables.nextStatesMap.getD s []).getD a none = some t) :
    a < p.tables.inputIDToIncSpecSeq.length ∧ t < p.machine.length := by
  obtain ⟨parts, htab⟩ := h.tables
  have hs : s < p.machine.length := by
    by_contra hge
    rw [← htab.nextLength] at hge
    rw [List.getD_eq_default _ _ (Nat.le_of_not_lt hge)] at hst
    simp at hst
  obtain ⟨q, hq, hsq⟩ := htab.cover s hs
  have hinv := splitState_spec (htab.numbered q hq) fun t ht => h.mach.input_wf (s := s) ht
  rw [htab.next q hq s hsq] at hst
  refine ⟨?_, ?_⟩
  · by_contra hge
    rw [← hinv.nextLength] at hge
    rw [List.getD_eq_default _ _ (Nat.le_of_not_lt hge)] at hst
    exact absurd hst (by simp)
  · obtain ⟨row, hrow, rfl, -⟩ := hinv.entry a t hst
    exact h.mach.next.row_lt hrow

theorem ProblemOk.cnf_ok (h : ProblemOk ni no m p) (modes : Modes) (k : ℕ) :
    (p.cnf modes k).Ok := by
  obtain ⟨parts, htab⟩ := h.tables
  have hn : (p.cnf modes k).nStates = p.machine.length := htab.nextLength
  refine ⟨fun s hs t ht => ?_, fun hst => ?_, fun s hs => ?_⟩
  · rw [hn] at hs ht
    show p.incompMatrix.getD _ _ = p.incompMatrix.getD _ _
    rw [hn]
    exact h.matrix.symm hs ht
  · rw [hn]
    exact h.succ hst
  · rw [hn]
    have hs' : s ∈ if modes.noPartialSolutionInSat then [] else p.pairwiseIncStates := hs
    split at hs'
    · exact absurd hs' List.not_mem_nil
    · exact h.clique.lt s hs'

/-! ## The end of the search -/

/-- States apart in the formula are incompatible states. -/
theorem ProblemOk.apart_iff (h : ProblemOk ni no m p) (modes : Modes) (k : ℕ) {s t : ℕ}
    (hs : s < p.machine.length) (ht : t < p.machine.length) :
    (p.cnf modes k).Apart s t ↔ Incompatible ni p.machine s t := by
  obtain ⟨parts, htab⟩ := h.tables
  have hn : (p.cnf modes k).nStates = p.machine.length := htab.nextLength
  rw [← h.matrix s hs t ht, ← hn]
  rfl

/-- Some member of the partial solution in the formulas is incompatible with itself. -/
def SelfClash (ni : ℕ) (modes : Modes) (p : Problem) : Prop :=
  modes.noPartialSolutionInSat = false ∧ ∃ s ∈ p.pairwiseIncStates, Incompatible ni p.machine s s

theorem ProblemOk.satisfiable (h : ProblemOk ni no m p) (hself : ¬ SelfClash ni modes p) :
    Satisfiable (numbered (p.cnf modes p.machine.length).buildCNF) := by
  have hok := h.cnf_ok modes p.machine.length
  obtain ⟨parts, htab⟩ := h.tables
  have hn : (p.cnf modes p.machine.length).nStates = p.machine.length := htab.nextLength
  rw [CnfInput.satisfiable_iff hok]
  unfold CnfInput.Solution
  rw [hn]
  refine ClosedCover.exists_singletons (fun hst => hn ▸ (hok.succ hst).2)
    (fun s hs => hn ▸ hok.member s hs) ?_ fun s hs happart => hself ?_
  · show (if _ then _ else _ : List ℕ).Nodup
    split
    · exact List.nodup_nil
    · exact h.clique.nodup
  · have hs' : s ∈ if modes.noPartialSolutionInSat then [] else p.pairwiseIncStates := hs
    split at hs'
    · exact absurd hs' List.not_mem_nil
    · next hnp =>
        have hlt := h.clique.lt s hs'
        exact ⟨by simpa using hnp, s, hs', (h.apart_iff modes _ hlt hlt).mp happart⟩

theorem Problem.not_satisfiable (hlen : p.tables.nextStatesMap.length = p.machine.length)
    (hnp : modes.noPartialSolutionInSat = false) {s : ℕ} (hs : s ∈ p.pairwiseIncStates)
    (hlt : s < p.machine.length)
    (hself : p.incompMatrix.getD (ai s s p.machine.length) false = true) (k : ℕ) :
    ¬ Satisfiable (numbered (p.cnf modes k).buildCNF) := by
  have hn : (p.cnf modes k).nStates = p.machine.length := hlen
  refine CnfInput.not_satisfiable_of_self (p := s) ?_ (hn ▸ hlt) ?_
  · show s ∈ if modes.noPartialSolutionInSat then [] else p.pairwiseIncStates
    rwa [hnp]
  · show p.incompMatrix.getD _ _ = true
    rwa [hn]

/-- Where a member of the partial solution clashes with itself the loop does not end at all. -/
theorem Problem.search_none (hlen : p.tables.nextStatesMap.length = p.machine.length)
    (hnp : modes.noPartialSolutionInSat = false) {s : ℕ} (hs : s ∈ p.pairwiseIncStates)
    (hlt : s < p.machine.length)
    (hself : p.incompMatrix.getD (ai s s p.machine.length) false = true) (solver : Solver)
    (steps : ℕ) : p.search solver modes steps = none := by
  cases hrun : p.search solver modes steps with
  | none => rfl
  | some r =>
      exact absurd ⟨_, (classLoop_some hrun).2.1⟩ (not_satisfiable hlen hnp hs hlt hself r.1)

theorem ProblemOk.search_iff (h : ProblemOk ni no m p) (s : Solver) :
    (∃ steps nClasses model, p.search s modes steps = some (nClasses, model) ∧
        nClasses ≤ p.machine.length) ↔ ¬ SelfClash ni modes p := by
  constructor
  · rintro ⟨steps, nClasses, model, hrun, -⟩ ⟨hnp, t, ht, hinc⟩
    obtain ⟨parts, htab⟩ := h.tables
    have hlt := h.clique.lt t ht
    rw [Problem.search_none htab.nextLength hnp ht hlt ((h.matrix t hlt t hlt).mpr hinc)] at hrun
    exact absurd hrun (by simp)
  · intro hself
    obtain ⟨k, model, hk, hrun⟩ := Problem.exists_classLoop (s := s) h.clique.length_le
      (h.satisfiable hself) (Nat.lt_succ_self _)
    exact ⟨_, k, model, hrun, hk⟩

/-- All sets in the order of insertion, and the solver that tries every assignment. -/
def firstChoices : Choices where
  predOrder _ m := m
  predPerm _ _ := List.Perm.refl _
  hashing _ := inOrder
  setOrders := ⟨fun _ D => D, fun _ D => D, fun _ _ => List.Perm.refl _, fun _ _ =>
    List.Perm.refl _⟩
  sortDesc := insertionDesc
  solver := tryAll

def Choices.sortedBy (ch : Choices) (sd : SortDesc) : Choices := { ch with sortDesc := sd }

/-- Two states that exchange on 1. -/
def toggleText : List Char := "1 A B 0\n1 B A 1\n0 A A -\n".toList

/-- One state whose rows contradict each other. -/
def clashText : List Char := "1 A A 0\n1 A A 1\n".toList

/-- The loop ends at the number of states at the latest, whatever the orders of traversal are, just
when the matrix fits an `int` and no clique that the choice can end with has a member that is
incompatible with itself, or there are no classes for the clique. -/
theorem search_ends_iff {text : List Char} {firstStateReset : Bool}
    (hparse : parseKISSFile text firstStateReset = some m) (hne : m.states ≠ [])
    (hin : ∀ trans ∈ m.states, ∀ t ∈ trans, t.1.Wf ni)
    (hout : ∀ trans ∈ m.states, ∀ t ∈ trans, t.2.2.Wf no) (modes : Modes) :
    ∃ machine reset, trim m = some (machine, reset) ∧
      ((∀ ch : Choices, ∃ N, ∀ fuel ≥ N, ∃ p, prepare ch modes fuel m = some p ∧
          ∃ steps nClasses model, p.search ch.solver modes steps = some (nClasses, model) ∧
            nClasses ≤ machine.length) ↔
        machine.length ≤ 46340 ∧
          (modes.noPartialSolutionInSat = true ∨ modes.noLowerBound = true ∨
            ∀ K, GreedyClique ni machine K → ∀ s ∈ K, ¬ Incompatible ni machine s s)) := by
  obtain ⟨hnext, hreset⟩ := parseKISSFile_ok hparse
  have hm : MachOk ni no m.states := ⟨hnext, hin, hout⟩
  obtain ⟨machine, reset, htrim, -⟩ := exists_trimmed hm hne hreset
  have hmachine : ∀ {ch : Choices} {fuel : ℕ} {p : Problem}, prepare ch modes fuel m = some p →
      p.machine = machine := fun hprep =>
    (Prod.mk.inj (Option.some.inj ((prepare_some hprep).1.symm.trans htrim))).1
  refine ⟨machine, reset, htrim, fun hends => ?_, fun ⟨hsize, hclique⟩ ch => ?_⟩
  · have hsize : machine.length ≤ 46340 := by
      obtain ⟨N, hN⟩ := hends firstChoices
      obtain ⟨p, hprep, -⟩ := hN N le_rfl
      exact hmachine hprep ▸ (prepare_some hprep).2.1
    refine ⟨hsize, or_iff_not_imp_left.mpr fun hnp => or_iff_not_imp_left.mpr fun hnl =>
      fun K hK s hs hself => ?_⟩
    rw [Bool.not_eq_true] at hnp hnl
    -- the sorting that puts the clique first among equals finds it
    obtain ⟨N, hN⟩ := hends (firstChoices.sortedBy (firstOf K))
    obtain ⟨N', hN'⟩ :=
      exists_problem (firstChoices.sortedBy (firstOf K)) modes hm hne hreset htrim hsize
    obtain ⟨p, hprep, hend⟩ := hN (max N N') (le_max_left ..)
    obtain ⟨p', hprep', hp⟩ := hN' (max N N') (le_max_right ..)
    obtain rfl : p = p' := Option.some.inj (hprep.symm.trans hprep')
    obtain rfl := hmachine hprep
    refine (hp.search_iff _).mp hend ⟨hnp, s, ?_, hself⟩
    rw [(prepare_some hprep).2.2, partialSolution, hnl]
    exact hK.mem_firstOf hp.matrix hs
  · obtain ⟨N, hN⟩ := exists_problem ch modes hm hne hreset htrim hsize
    refine ⟨N, fun fuel hfuel => ?_⟩
    obtain ⟨p, hprep, hp⟩ := hN fuel hfuel
    obtain rfl := hmachine hprep
    refine ⟨p, hprep, (hp.search_iff ch.solver).mpr ?_⟩
    rintro ⟨hnp, s, hs, hself⟩
    rw [(prepare_some hprep).2.2, partialSolution] at hs
    split at hs
    · exact absurd hs List.not_mem_nil
    · next hnl =>
        rcases hclique with h | h | h
        · exact absurd (hnp.symm.trans h) Bool.false_ne_true
        · exact hnl h
        · exact h _ (findPairwiseIncStates_greedy hp.matrix ch.sortDesc) s
            (List.mem_toFinset.mpr hs) hself

theorem search_ends_iff_toggle :
    ∃ m, parseKISSFile toggleText true = some m ∧
      ∃ machine reset, trim m = some (machine, reset) ∧
        ((∀ ch : Choices, ∃ N, ∀ fuel ≥ N, ∃ p, prepare ch ⟨false, false⟩ fuel m = some p ∧
            ∃ steps nClasses model,
              p.search ch.solver ⟨false, false⟩ steps = some (nClasses, model) ∧
                nClasses ≤ machine.length) ↔
          machine.length ≤ 46340 ∧ (false = true ∨ false = true ∨
            ∀ K, GreedyClique 1 machine K → ∀ s ∈ K, ¬ Incompatible 1 machine s s)) := by
  have hwf : ∀ c : Char, (IncSpecSeq.ofString [c]).Wf 1 := fun c => IncSpecSeq.ofString_wf [c]
  have hstates : (parseKISSFile toggleText true).map (·.states) =
      some [[(IncSpecSeq.ofString ['1'], 1, IncSpecSeq.ofString ['0']),
        (IncSpecSeq.ofString ['0'], 0, IncSpecSeq.ofString ['-'])],
        [(IncSpecSeq.ofString ['1'], 0, IncSpecSeq.ofString ['1'])]] := by decide
  obtain ⟨m, hm, hms⟩ := Option.map_eq_some_iff.mp hstates
  have hout : ∀ trans ∈ m.states, ∀ t ∈ trans, t.2.2.Wf 1 := by
    rw [hms]
    simp [hwf, -Prod.forall]
  refine ⟨m, hm, search_ends_iff hm ?_ ?_ hout ⟨false, false⟩⟩
  · rw [hms]
    exact List.cons_ne_nil _ _
  · rw [hms]
    simp [hwf, -Prod.forall]

/-- The state is put into the partial solution and the loop does not end. -/
theorem search_clash :
    ∃ m p, parseKISSFile clashText true = some m ∧ m.states.length = 1 ∧
      prepare firstChoices ⟨false, false⟩ 1 m = some p ∧ p.machine.length = 1 ∧
      ∀ (s : Solver) (steps : ℕ), p.search s ⟨false, false⟩ steps = none := by
  have hrun : ((parseKISSFile clashText true).bind fun m =>
      (prepare firstChoices ⟨false, false⟩ 1 m).map fun p =>
        (m.states.length, p.machine.length, p.pairwiseIncStates, p.incompMatrix,
          p.tables.nextStatesMap.length)) = some (1, 1, [0], [true], 1) := by decide
  obtain ⟨m, hm, hp⟩ := Option.bind_eq_some_iff.mp hrun
  obtain ⟨p, hp, heq⟩ := Option.map_eq_some_iff.mp hp
  simp only [Prod.mk.injEq] at heq
  obtain ⟨hlen, hone, hclique, hmatrix, htab⟩ := heq
  refine ⟨m, p, hm, hlen, hp, hone, fun s steps => ?_⟩
  refine Problem.search_none (htab.trans hone.symm) rfl (s := 0) ?_ ?_ ?_ s steps
  · rw [hclique]
    exact List.mem_singleton_self 0
  · rw [hone]
    exact Nat.one_pos
  · rw [hmatrix, hone]
    rfl

end ExtFolding.MeMin
