import ExtFolding.MeMin.Minimize

/-!
# memin is exact

A machine that realises the one that was read gives a closed cover: a class for each of its states,
of the states that it stands for. So no such machine has fewer states than the result.
-/

namespace ExtFolding.MeMin

open Std.Sat ExtFolding.Sat

variable {ni no k : ℕ} {m : Machine} {p : Problem} {ch : Choices} {modes : Modes}

/-- A state of the machine and a state of another machine that some word leads to. -/
def Together (ni : ℕ) (p : Problem) (r : ℕ) (N : Mealy (Fin k) (Fin ni → Bool) Cube) (s : ℕ)
    (q : Fin k) : Prop :=
  ∃ w os ps, Run (rowStep ni p.machine) r w os s ∧ Run N.Step N.start w ps q

variable {r s : ℕ} {N : Mealy (Fin k) (Fin ni → Bool) Cube} {q : Fin k}

theorem Together.realises (hN : Realises Agrees (rowStep ni p.machine) r N.Step N.start)
    (h : Together ni p r N s q) : Realises Agrees (rowStep ni p.machine) s N.Step q := by
  obtain ⟨w, os, ps, hs, hq⟩ := h
  exact hN.after N.deterministic hs hq

theorem Together.step {a : Fin ni → Bool} {o o' : Cube} {t : ℕ} {q' : Fin k}
    (h : Together ni p r N s q) (hst : rowStep ni p.machine s a o t) (hq : N.Step q a o' q') :
    Together ni p r N t q' := by
  obtain ⟨w, os, ps, hs, hw⟩ := h
  exact ⟨w ++ [a], os ++ [o], ps ++ [o'], hs.append (.cons hst (.nil t)),
    hw.append (.cons hq (.nil q'))⟩

/-- The states of a machine that realises the old one are the classes of a closed cover. -/
theorem ProblemOk.covers_of_realises (h : ProblemOk ni no m p)
    (hreach : ∀ s < p.machine.length, ∃ w os, Run (rowStep ni p.machine) r w os s)
    (hN : Realises Agrees (rowStep ni p.machine) r N.Step N.start) :
    Covers ni p k fun s i => ∃ q : Fin k, q.val = i ∧ Together ni p r N s q := by
  obtain ⟨parts, htab⟩ := h.tables
  refine ⟨fun s hs => ?_, ?_, fun i hi a => ?_⟩
  · obtain ⟨w, os, hrun⟩ := hreach s hs
    obtain ⟨ps, q, hq⟩ := hN.exists_run hrun
    exact ⟨q, q.isLt, q, rfl, w, os, ps, hrun, hq⟩
  · rintro i hi s - t - - ⟨q, rfl, hsq⟩ ⟨q', hq', htq⟩
    obtain rfl : q' = q := Fin.ext hq'
    exact not_incompatible_of_realises N.deterministic (hsq.realises hN) (htq.realises hN)
  · by_cases hmove : ∃ s < p.machine.length, Together ni p r N s ⟨i, hi⟩ ∧
        ∃ t, p.tables.next s a = some t
    · -- a word of the input leads all members to their successors, and the state to one state
      obtain ⟨s, hs, hsi, t, hst⟩ := hmove
      obtain ⟨row, hrow, hrt, -, e, he, hewf, hsub⟩ := htab.row h.mach.input hs hst
      obtain ⟨w, hw⟩ := IncSpecSeq.words_nonempty hewf
      have hstep : rowStep ni p.machine s w row.2.2.cube row.2.1 := ⟨row, hrow, hsub hw, rfl, rfl⟩
      obtain ⟨ps, q', hq'⟩ := (hsi.realises hN).exists_run (.cons hstep (.nil _))
      cases hq' with
      | @cons _ _ o' _ _ _ _ hq' hnil =>
          cases hnil
          refine ⟨q', q'.isLt, fun s' hs' => ?_⟩
          rintro ⟨q, hq, hsq⟩ t' hst'
          obtain rfl : q = ⟨i, hi⟩ := Fin.ext hq
          obtain ⟨row', hrow', rfl, -, e', he', -, hsub'⟩ := htab.row h.mach.input hs' hst'
          obtain rfl : e = e' := Option.some.inj (he.symm.trans he')
          exact ⟨q', rfl, hsq.step ⟨row', hrow', hsub' hw, rfl, rfl⟩ hq'⟩
    · refine ⟨i, hi, fun s hs => ?_⟩
      rintro ⟨q, hq, hsq⟩ t hst
      obtain rfl : q = ⟨i, hi⟩ := Fin.ext hq
      exact absurd ⟨s, hs, hsq, t, hst⟩ hmove

/-! ## The least number of states -/

/-- A clique has its own classes in some cover of the same size. -/
theorem ProblemOk.exists_fixed (h : ProblemOk ni no m p) (hapart : RowsApart ni p.machine)
    {mem : ℕ → ℕ → Prop} (hcov : Covers ni p k mem) {l : List ℕ}
    (hl : Clique p.machine.length p.incompMatrix l) :
    l.length ≤ k ∧ ∃ mem', Covers ni p k mem' ∧
      Fixed p.machine.length (Incompatible ni p.machine) mem' l :=
  hcov.exists_fixed hl.lt hl.nodup
    (hl.pairwise.imp_of_mem fun hs ht hst => (h.matrix _ (hl.lt _ ht) _ (hl.lt _ hs)).mp hst)
    fun s _ => hapart.not_self s

theorem ProblemOk.cnf_clique (h : ProblemOk ni no m p) (modes : Modes) (k : ℕ) :
    Clique p.machine.length p.incompMatrix (p.cnf modes k).pairwiseIncStates := by
  show Clique _ _ (if modes.noPartialSolutionInSat then [] else p.pairwiseIncStates)
  split
  · exact Clique.nil
  · exact h.clique

/-- The numbers of states of the machines that realise the one that was read. -/
def sizes (ni : ℕ) (m : Machine) (r : ℕ) : Set ℕ :=
  {k | ∃ N : Mealy (Fin k) (Fin ni → Bool) Cube,
    Realises Agrees (rowStep ni m.states) r N.Step N.start}

namespace RunOk

variable {mem : ℕ → ℕ → Prop} {nm : NewMachine} {k' : ℕ}

theorem exists_covers (h : RunOk ni no m modes p k mem nm) (hm : MachOk ni no m.states)
    (hr : m.resetState = some r) (hk : k' ∈ sizes ni m r) : ∃ mem', Covers ni p k' mem' := by
  obtain ⟨f, -, hf⟩ := h.problem.trimmed.renamed hr
  obtain ⟨N, hN⟩ := hk
  exact ⟨_, h.problem.covers_of_realises (fun s hs => hf.exists_run hm hs)
    (hf.realises_iff.mpr hN)⟩

/-- The result has the least number of states. -/
theorem isLeast (h : RunOk ni no m modes p k mem nm) (hm : MachOk ni no m.states)
    (hr : m.resetState = some r) : IsLeast (sizes ni m r) k := by
  constructor
  · obtain ⟨r', hr', -, hreal⟩ := h.realises hr
    refine hreal.exists_mealy h.classes.apart.deterministic hr' ?_
    rintro i hi a o j ⟨q, hq, -, -, rfl⟩
    exact h.classes.next i hi q hq
  · intro k' hk
    obtain ⟨mem', hcov⟩ := h.exists_covers hm hr hk
    obtain ⟨hle, -⟩ := h.problem.exists_fixed h.apart hcov h.problem.clique
    by_contra hlt
    obtain ⟨-, mem'', hcov', hfix⟩ :=
      h.problem.exists_fixed h.apart hcov (h.problem.cnf_clique modes k')
    refine h.least k' hle (Nat.lt_of_not_le hlt) ?_
    rw [CnfInput.satisfiable_iff (h.problem.cnf_ok modes k')]
    exact ⟨mem'', h.problem.solution_of_covers hcov' hfix⟩

end RunOk

/-- The result has as many states as the smallest machine that realises the one that was read, in
all modes, as long as the matrix of incompatible states can be indexed; the partial solution is
never larger. -/
theorem memin_exact {text : List Char} {firstStateReset : Bool}
    (hparse : parseKISSFile text firstStateReset = some m) (hreset : m.resetState = some r)
    (hin : ∀ trans ∈ m.states, ∀ t ∈ trans, t.1.Wf ni)
    (hout : ∀ trans ∈ m.states, ∀ t ∈ trans, t.2.2.Wf no) (hapart : RowsApart ni m.states)
    (hsize : {s | Reachable m.states r s}.ncard ≤ 46340) :
    ∃ k, IsLeast (sizes ni m r) k ∧ ∀ (ch : Choices) (modes : Modes), ∃ F, ∀ fuel ≥ F,
      ∀ inputLength outputLength, ∃ p nm, prepare ch modes fuel m = some p ∧
        meminCommand ch modes fuel m inputLength outputLength = some nm ∧ nm.states.length = k ∧
        (findPairwiseIncStates ch.sortDesc p.machine.length p.incompMatrix).length ≤ k := by
  obtain ⟨hnext, hlt⟩ := parseKISSFile_ok hparse
  have hm : MachOk ni no m.states := ⟨hnext, hin, hout⟩
  have hr : r < m.states.length := hlt r hreset
  obtain ⟨F₀, hF₀⟩ := exists_run hm hreset hr hapart hsize firstChoices ⟨false, false⟩
  obtain ⟨_, k, _, _, -, -, hok₀⟩ := hF₀ F₀ le_rfl 0 0
  have hleast := hok₀.isLeast hm hreset
  refine ⟨k, hleast, fun ch modes => ?_⟩
  obtain ⟨F, hF⟩ := exists_run hm hreset hr hapart hsize ch modes
  refine ⟨F, fun fuel hfuel inputLength outputLength => ?_⟩
  obtain ⟨p, k', mem, nm, hprep, hrun, hok⟩ := hF fuel hfuel inputLength outputLength
  obtain rfl : k = k' := hleast.unique (hok.isLeast hm hreset)
  exact ⟨p, nm, hprep, hrun, hok.classes.length,
    (hok.problem.exists_fixed hok.apart hok.covers (findPairwiseIncStates_clique ch.sortDesc)).1⟩

theorem memin_exact_toggle : ∃ m, parseKISSFile toggleText true = some m ∧
    ∃ k, IsLeast (sizes 1 m 0) k ∧ ∀ (ch : Choices) (modes : Modes), ∃ F, ∀ fuel ≥ F,
      ∀ inputLength outputLength, ∃ p nm, prepare ch modes fuel m = some p ∧
        meminCommand ch modes fuel m inputLength outputLength = some nm ∧ nm.states.length = k ∧
        (findPairwiseIncStates ch.sortDesc p.machine.length p.incompMatrix).length ≤ k := by
  obtain ⟨m, hm, hreset, hin, hout, hapart, hsize⟩ := toggle_parsed
  exact ⟨m, hm, memin_exact hm hreset hin hout hapart hsize⟩

/-- One state is enough for the chain of 46341 states, and no mode finds it. -/
theorem memin_exact_46341 : ∃ m, parseKISSFile (chainText 46340) true = some m ∧
    m.resetState = some 0 ∧ (∀ trans ∈ m.states, ∀ t ∈ trans, t.1.Wf 1) ∧
    (∀ trans ∈ m.states, ∀ t ∈ trans, t.2.2.Wf 1) ∧ RowsApart 1 m.states ∧
    IsLeast (sizes 1 m 0) 1 ∧ ∀ ch modes fuel inputLength outputLength,
      meminCommand ch modes fuel m inputLength outputLength = none := by
  obtain ⟨hok, hapart⟩ := chain_ok (n := 46340)
  have hlt : 0 < (chainMachine 46340).states.length := length_chain.symm ▸ Nat.succ_pos _
  refine ⟨chainMachine 46340, parse_chain (by norm_num), rfl, hok.input, hok.output, hapart,
    ⟨chain_realised, fun k hk => ?_⟩, fun _ _ _ _ _ => meminCommand_none hok rfl hlt lt_ncard_chain⟩
  obtain ⟨N, -⟩ := hk
  exact Nat.pos_of_ne_zero fun h => (h ▸ N.start).elim0

end ExtFolding.MeMin
