import ExtFolding.MeMin.Build
import ExtFolding.MeMin.Chain
import ExtFolding.MeMin.Search

/-!
# `memin/minimizer.cpp`: `MeMin_Command`

From the machine that is read to the machine that is written. For machines whose rows are disjoint
the phases fit together: the classes of the first model make a machine that does what the old one
does.
-/

namespace ExtFolding.MeMin

open Std.Sat ExtFolding.Sat

/-- `MeMin_Command` after the file has been read. -/
def meminCommand (ch : Choices) (modes : Modes) (fuel : ℕ) (m : Machine)
    (inputLength outputLength : ℕ) : Option NewMachine := do
  let p ← prepare ch modes fuel m
  let (nClasses, model) ← p.search ch.solver modes fuel
  buildMachine nClasses model (p.cnf modes nClasses).literalToStateClass p.tables p.resetState
    inputLength outputLength

variable {ni no k i : ℕ} {m : Machine} {p : Problem} {ch : Choices} {modes : Modes}
  {mem : ℕ → ℕ → Prop}

/-! ## Covers of the machine -/

/-- A closed cover of the machine: no class has incompatible states. -/
def Covers (ni : ℕ) (p : Problem) (k : ℕ) (mem : ℕ → ℕ → Prop) : Prop :=
  ClosedCover p.machine.length k p.tables.next (Incompatible ni p.machine) mem

namespace ProblemOk

theorem covers_of_solution (h : ProblemOk ni no m p) (hsol : (p.cnf modes k).Solution mem) :
    Covers ni p k mem := by
  obtain ⟨parts, htab⟩ := h.tables
  have hn : (p.cnf modes k).nStates = p.machine.length := htab.nextLength
  have hcov := hsol.1
  rw [hn] at hcov
  exact hcov.mono fun s hs t ht => (h.apart_iff modes k hs ht).mpr

theorem solution_of_covers (h : ProblemOk ni no m p) (hcov : Covers ni p k mem)
    (hfix : Fixed p.machine.length (Incompatible ni p.machine) mem
      (p.cnf modes k).pairwiseIncStates) : (p.cnf modes k).Solution mem := by
  obtain ⟨parts, htab⟩ := h.tables
  have hn : (p.cnf modes k).nStates = p.machine.length := htab.nextLength
  have hok := h.cnf_ok modes k
  unfold CnfInput.Solution
  rw [hn]
  exact ⟨hcov.mono fun s hs t ht => (h.apart_iff modes k hs ht).mp,
    hfix.mono (fun s hs => hn ▸ hok.member s hs) fun s hs t ht => (h.apart_iff modes k hs ht).mp⟩

/-- States of one class belong to one part of the tables. -/
theorem compatible (h : ProblemOk ni no m p) (hcov : Covers ni p k mem) (hi : i < k) {s t : ℕ}
    (hs : s < p.machine.length) (ht : t < p.machine.length) (hsi : mem s i) (hti : mem t i) :
    s = t ∨ Compatible p.machine.length p.incompMatrix s t := by
  by_cases hst : s = t
  · exact Or.inl hst
  · refine Or.inr ?_
    rw [Compatible, ← Bool.not_eq_true, h.matrix s hs t ht]
    exact hcov.compat i hi s hs t ht hst hsi hti

/-- The outputs of the members of a class can be merged. -/
theorem outputsOk (h : ProblemOk ni no m p) (hcov : Covers ni p k mem) (hi : i < k) {l : List ℕ}
    (hl : ∀ s ∈ l, s < p.machine.length ∧ mem s i) (a : ℕ) : OutputsOk no p.tables a l := by
  obtain ⟨parts, htab⟩ := h.tables
  refine ⟨fun s hs hne => ?_, fun s hs t ht x y hx hy => ?_⟩
  · obtain ⟨u, hu⟩ := Option.ne_none_iff_exists'.mp hne
    obtain ⟨q, hq, -, hout, -⟩ := htab.row h.mach.input (hl s hs).1 hu
    exact ⟨q.2.2, hout, h.mach.output_wf hq⟩
  · by_cases hst : s = t
    · subst hst
      obtain rfl : x = y := Option.some.inj (hx.2.symm.trans hy.2)
      intro v b c hb hc
      exact Option.some.inj (hb.symm.trans hc)
    · -- a word of the input leads both states to their rows
      obtain ⟨u, hu⟩ := Option.ne_none_iff_exists'.mp hx.1
      obtain ⟨u', hu'⟩ := Option.ne_none_iff_exists'.mp hy.1
      obtain ⟨q, hq, -, hxq, e, he, hewf, hsub⟩ := htab.row h.mach.input (hl s hs).1 hu
      obtain ⟨r, hr, -, hyr, e', he', -, hsub'⟩ := htab.row h.mach.input (hl t ht).1 hu'
      obtain rfl : e = e' := Option.some.inj (he.symm.trans he')
      obtain rfl : x = q.2.2 := Option.some.inj (hx.2.symm.trans hxq)
      obtain rfl : y = r.2.2 := Option.some.inj (hy.2.symm.trans hyr)
      obtain ⟨w, hw⟩ := IncSpecSeq.words_nonempty hewf
      intro v b c hb hc
      by_contra hne
      exact hcov.compat i hi s (hl s hs).1 t (hl t ht).1 hst (hl s hs).2 (hl t ht).2
        ⟨[w], q, r, .last hq (hsub hw), .last hr (hsub' hw), v, b, c, hb, hc, hne⟩

end ProblemOk

/-! ## The new machine -/

/-- The classes of a cover as states: the rows are disjoint, and a class does what its members
do. -/
structure ClassMachine (ni : ℕ) (p : Problem) (k : ℕ) (mem : ℕ → ℕ → Prop) (nm : NewMachine) :
    Prop where
  length : nm.states.length = k
  apart : RowsApart ni nm.states
  next : ∀ i < k, ∀ q ∈ rowsOf nm.states i, q.2.1 < k
  step : ∀ i < k, ∀ s < p.machine.length, mem s i → ∀ a o t, rowStep ni p.machine s a o t →
    ∃ o' j, rowStep ni nm.states i a o' j ∧ Agrees o o' ∧ mem t j

theorem ProblemOk.exists_classMachine (h : ProblemOk ni no m p) (hapart : RowsApart ni p.machine)
    (hcov : Covers ni p k mem) (hrange : ∀ s i, mem s i → s < p.machine.length ∧ i < k)
    {model : ℕ → Bool} {literalToStateClass : List (Option (ℕ × ℕ))}
    (hd : DecodedOk p.tables.nextStatesMap.length k p.resetState mem
      (decode k p.tables.nextStatesMap.length literalToStateClass model p.resetState))
    (inputLength outputLength : ℕ) :
    ∃ nm, buildMachine k model literalToStateClass p.tables p.resetState inputLength outputLength =
        some nm ∧ ClassMachine ni p k mem nm ∧ ∀ r, p.resetState = some r → (∃ i, mem r i) →
          ∃ i, nm.resetState = some i ∧ mem r i := by
  obtain ⟨parts, htab⟩ := h.tables
  set d := decode k p.tables.nextStatesMap.length literalToStateClass model p.resetState with hdef
  have hmembers : ∀ i s, s ∈ d.members i → s < p.machine.length ∧ mem s i := fun i s hs =>
    ⟨(hrange s i ((hd.members s i).mp hs)).1, (hd.members s i).mp hs⟩
  have hentry : ∀ i < k, ∀ a, ∃ e, newEntry p.tables d k i a = some e ∧
      EntryOk no k p.tables mem a (d.members i) e := by
    intro i hi a
    refine newEntry_spec hd (h.outputsOk hcov hi (hmembers i) a) ?_
    obtain ⟨j, hj, hclosed⟩ := hcov.closed i hi a
    exact ⟨j, hj, fun s hs t hst => hclosed s (hrange s i hs).1 hs t hst⟩
  obtain ⟨nm, hbuild, hnm⟩ := exists_build hdef (fun i hi a _ => by
    obtain ⟨e, he, -⟩ := hentry i hi a
    exact ⟨e, he⟩) inputLength outputLength
  -- a row comes from an input under which some member has a successor
  have hrow : ∀ i < k, ∀ a q, nm.transOf i a = some q →
      p.tables.inputIDToIncSpecSeq[a]? = some q.1 ∧ q.2.1 < k ∧
      ∃ s ∈ d.members i, p.tables.next s a ≠ none := by
    intro i hi a q hq
    obtain ⟨hin, he⟩ := (hnm.transOf i hi a q).mp hq
    obtain ⟨e, he', hok⟩ := hentry i hi a
    rw [← Option.some.inj (he.symm.trans he')] at hok
    cases hok with
    | entry hj hs _ _ => exact ⟨hin, hj, hs⟩
  refine ⟨nm, hbuild, ⟨hnm.length, fun trans htrans => ?_, fun i hi q hq => ?_, ?_⟩,
    fun r hr hex => ?_⟩
  · obtain ⟨i, hi⟩ := List.mem_iff_getElem?.mp htrans
    have hik : i < k := hnm.length ▸ (List.getElem?_eq_some_iff.mp hi).1
    obtain rfl : trans = rowsOf nm.states i :=
      Option.some.inj (hi.symm.trans (getElem?_rowsOf (hnm.length.symm ▸ hik)))
    rw [hnm.rows i hik, List.pairwise_filterMap]
    refine List.nodup_range.imp fun hab q hq r hr => ?_
    obtain ⟨hqin, -, s, hs, hsa⟩ := hrow i hik _ q hq
    obtain ⟨hrin, -, t, ht, hta⟩ := hrow i hik _ r hr
    obtain ⟨u, hu⟩ := Option.ne_none_iff_exists'.mp hsa
    obtain ⟨v, hv⟩ := Option.ne_none_iff_exists'.mp hta
    obtain ⟨hsn, hsi⟩ := hmembers i s hs
    obtain ⟨htn, hti⟩ := hmembers i t ht
    exact htab.inputs_disjoint h.mach.input hapart hsn htn (h.compatible hcov hik hsn htn hsi hti)
      hu hv hab hqin hrin
  · rw [hnm.rows i hi] at hq
    obtain ⟨a, -, hq⟩ := List.mem_filterMap.mp hq
    exact (hrow i hi a q hq).2.1
  · rintro i hi s hs hsi w _ _ ⟨q, hq, hw, rfl, rfl⟩
    obtain ⟨a, e, hget, hwe, hst, hout⟩ := htab.input h.mach.input hapart hq hw
    have hsm : s ∈ d.members i := (hd.members s i).mpr hsi
    obtain ⟨entry, hentry', hok⟩ := hentry i hi a
    cases hok with
    | empty hnone => exact absurd (hst.symm.trans (hnone s hsm)) (Option.some_ne_none _)
    | @entry j o hj _ ho hall =>
        have htrans : nm.transOf i a = some (e, j, o) := (hnm.transOf i hi a _).mpr ⟨hget, hentry'⟩
        have ha : a < p.tables.inputIDToIncSpecSeq.length := (List.getElem?_eq_some_iff.mp hget).1
        refine ⟨o.cube, j, ⟨(e, j, o), ?_, hwe, rfl, rfl⟩, ?_, hall s hsm _ hst⟩
        · rw [hnm.rows i hi]
          exact List.mem_filterMap.mpr ⟨a, List.mem_range.mpr ha, htrans⟩
        · exact ho.agrees s hsm q.2.2 ⟨hst ▸ Option.some_ne_none _, hout⟩
  · rw [hnm.reset]
    exact hd.reset r hr hex

/-! ## The whole run -/

/-- A run of the command: a cover with as many classes as the first satisfiable formula asks for,
and its machine. -/
structure RunOk (ni no : ℕ) (m : Machine) (modes : Modes) (p : Problem) (k : ℕ)
    (mem : ℕ → ℕ → Prop) (nm : NewMachine) : Prop where
  problem : ProblemOk ni no m p
  apart : RowsApart ni p.machine
  covers : Covers ni p k mem
  classes : ClassMachine ni p k mem nm
  reset : ∀ r, p.resetState = some r → (∃ i, mem r i) → ∃ i < k, nm.resetState = some i ∧ mem r i
  least : ∀ j, p.pairwiseIncStates.length ≤ j → j < k →
    ¬ Satisfiable (numbered (p.cnf modes j).buildCNF)

theorem Trimmed.renamed {machine : List (List Trans)} {reset : Option ℕ} {r : ℕ}
    (h : Trimmed m machine reset) (hr : m.resetState = some r) :
    ∃ f, reset = some (f r) ∧ Renamed m.states r machine f := by
  cases reset with
  | none => exact absurd (hr.symm.trans h.1) (Option.some_ne_none r)
  | some r' =>
      obtain ⟨r₀, f, hr₀, rfl, hf⟩ := h
      obtain rfl : r = r₀ := Option.some.inj (hr.symm.trans hr₀)
      exact ⟨f, rfl, hf⟩

theorem Trimmed.rowsApart {machine : List (List Trans)} {reset : Option ℕ}
    (h : Trimmed m machine reset) (hapart : RowsApart ni m.states) : RowsApart ni machine := by
  cases reset with
  | none => exact h.2 ▸ hapart
  | some r =>
      obtain ⟨r₀, f, -, -, hf⟩ := h
      exact hf.rowsApart hapart

/-- The states that are left are those that the reset state reaches. -/
theorem Trimmed.length_eq {machine : List (List Trans)} {reset : Option ℕ} {r : ℕ}
    (h : Trimmed m machine reset) (hr : m.resetState = some r) :
    machine.length = {s | Reachable m.states r s}.ncard := by
  obtain ⟨f, -, hf⟩ := h.renamed hr
  have hset : {t | t < machine.length} = ↑(Finset.range machine.length) := by
    ext t
    simp
  rw [← hf.bij.injOn.ncard_image, hf.bij.image_eq, hset, Set.ncard_coe_finset,
    Finset.card_range]

theorem exists_run {r : ℕ} (hm : MachOk ni no m.states) (hreset : m.resetState = some r)
    (hr : r < m.states.length) (hapart : RowsApart ni m.states)
    (hsize : {s | Reachable m.states r s}.ncard ≤ 46340) (ch : Choices) (modes : Modes) :
    ∃ N, ∀ fuel ≥ N, ∀ inputLength outputLength, ∃ p k mem nm,
      prepare ch modes fuel m = some p ∧
      meminCommand ch modes fuel m inputLength outputLength = some nm ∧
      RunOk ni no m modes p k mem nm := by
  have hne : m.states ≠ [] := List.ne_nil_of_length_pos (Nat.zero_lt_of_lt hr)
  have hr' : ∀ r, m.resetState = some r → r < m.states.length := fun r' h =>
    Option.some.inj (hreset.symm.trans h) ▸ hr
  obtain ⟨machine, reset, htrim, htrimmed, -⟩ := exists_trimmed hm hne hr'
  rw [← htrimmed.length_eq hreset] at hsize
  obtain ⟨N, hN⟩ := exists_problem ch modes hm hne hr' htrim hsize
  refine ⟨N + machine.length + 1, fun fuel hfuel inputLength outputLength => ?_⟩
  obtain ⟨p, hprep, hp⟩ := hN fuel (by omega)
  have hmachine : p.machine = machine := by
    have := (prepare_some hprep).1.symm.trans htrim
    exact (Prod.mk.inj (Option.some.inj this)).1
  have hpapart : RowsApart ni p.machine := hp.trimmed.rowsApart hapart
  have hself : ¬ SelfClash ni modes p := fun ⟨_, s, _, hs⟩ => hpapart.not_self s hs
  obtain ⟨k, model, -, hsearch⟩ : ∃ k model, k ≤ p.machine.length ∧
      p.search ch.solver modes fuel = some (k, model) :=
    Problem.exists_classLoop hp.clique.length_le (hp.satisfiable hself) (by rw [hmachine]; omega)
  obtain ⟨hle, hsat, hleast⟩ := Problem.classLoop_some hsearch
  have hfit : (p.cnf modes k).pairwiseIncStates.length ≤ k := by
    show (if modes.noPartialSolutionInSat then [] else p.pairwiseIncStates).length ≤ k
    split
    · exact Nat.zero_le k
    · exact hle
  obtain ⟨mem, hsol, hrange, hd⟩ :=
    CnfInput.exists_decoded (hp.cnf_ok modes k) hfit hsat p.resetState
  obtain ⟨parts, htab⟩ := hp.tables
  have hrange' : ∀ s i, mem s i → s < p.machine.length ∧ i < k := fun s i hs =>
    ⟨htab.nextLength ▸ (hrange s i hs).1, (hrange s i hs).2⟩
  have hcov := hp.covers_of_solution hsol
  obtain ⟨nm, hbuild, hclasses, hreset⟩ :=
    hp.exists_classMachine hpapart hcov hrange' hd inputLength outputLength
  refine ⟨p, k, mem, nm, hprep, ?_, hp, hpapart, hcov, hclasses, fun r hr hex => ?_, hleast⟩
  · exact Option.bind_eq_some_iff.mpr
      ⟨p, hprep, Option.bind_eq_some_iff.mpr ⟨(k, model), hsearch, hbuild⟩⟩
  · obtain ⟨i, hi, hmi⟩ := hreset r hr hex
    exact ⟨i, (hrange' r i hmi).2, hi, hmi⟩

namespace RunOk

variable {nm : NewMachine} {r : ℕ}

/-- The new machine does what the old one does. -/
theorem realises (h : RunOk ni no m modes p k mem nm) (hr : m.resetState = some r) :
    ∃ r' < k, nm.resetState = some r' ∧
      Realises Agrees (rowStep ni m.states) r (rowStep ni nm.states) r' := by
  obtain ⟨f, hreset, hf⟩ := h.problem.trimmed.renamed hr
  obtain ⟨i, -, hmi⟩ := h.covers.cover (f r) hf.reset_lt
  obtain ⟨r', hr', hres, hmr'⟩ := h.reset (f r) hreset ⟨i, hmi⟩
  refine ⟨r', hr', hres, hf.realises_iff.mp ?_⟩
  refine Realises.of_simulation (fun s i => s < p.machine.length ∧ i < k ∧ mem s i) ?_
    ⟨hf.reset_lt, hr', hmr'⟩
  rintro s i a o t ⟨hs, hi, hsi⟩ hstep
  obtain ⟨o', j, hj, hle, htj⟩ := h.classes.step i hi s hs hsi a o t hstep
  refine ⟨o', j, hj, hle, ?_, ?_, htj⟩
  · obtain ⟨q, hq, -, -, rfl⟩ := hstep
    exact h.problem.mach.next.row_lt hq
  · obtain ⟨q, hq, -, -, rfl⟩ := hj
    exact h.classes.next i hi q hq

end RunOk

/-- The machine that is written realises the machine that was read, in all modes, as long as the
matrix of incompatible states can be indexed; its rows are disjoint, and the exit of `buildMachine`
is not taken. -/
theorem memin_realises {text : List Char} {firstStateReset : Bool} {r : ℕ}
    (hparse : parseKISSFile text firstStateReset = some m) (hreset : m.resetState = some r)
    (hin : ∀ trans ∈ m.states, ∀ t ∈ trans, t.1.Wf ni)
    (hout : ∀ trans ∈ m.states, ∀ t ∈ trans, t.2.2.Wf no) (hapart : RowsApart ni m.states)
    (hsize : {s | Reachable m.states r s}.ncard ≤ 46340) (ch : Choices) (modes : Modes) :
    ∃ N, ∀ fuel ≥ N, ∀ inputLength outputLength, ∃ nm r',
      meminCommand ch modes fuel m inputLength outputLength = some nm ∧
      nm.resetState = some r' ∧ RowsApart ni nm.states ∧
      Realises Agrees (rowStep ni m.states) r (rowStep ni nm.states) r' := by
  obtain ⟨hnext, hlt⟩ := parseKISSFile_ok hparse
  obtain ⟨N, hN⟩ := exists_run ⟨hnext, hin, hout⟩ hreset (hlt r hreset) hapart hsize ch modes
  refine ⟨N, fun fuel hfuel inputLength outputLength => ?_⟩
  obtain ⟨p, k, mem, nm, -, hrun, hok⟩ := hN fuel hfuel inputLength outputLength
  obtain ⟨r', -, hr', hreal⟩ := hok.realises hreset
  exact ⟨nm, r', hrun, hr', hok.classes.apart, hreal⟩

theorem ncard_reachable_le {states : List (List Trans)} (h : NextOk states) {r : ℕ}
    (hr : r < states.length) : {s | Reachable states r s}.ncard ≤ states.length := by
  have hsub : {s | Reachable states r s} ⊆ ↑(Finset.range states.length) := fun s hs => by
    simpa using h.reachable_lt hr hs
  simpa using Set.ncard_le_ncard hsub (Finset.finite_toSet _)

/-- The two states have columns of one bit and disjoint rows. -/
theorem toggle_parsed : ∃ m, parseKISSFile toggleText true = some m ∧ m.resetState = some 0 ∧
    (∀ trans ∈ m.states, ∀ t ∈ trans, t.1.Wf 1) ∧ (∀ trans ∈ m.states, ∀ t ∈ trans, t.2.2.Wf 1) ∧
    RowsApart 1 m.states ∧ {s | Reachable m.states 0 s}.ncard ≤ 46340 := by
  have hwf : ∀ c : Char, (IncSpecSeq.ofString [c]).Wf 1 := fun c => IncSpecSeq.ofString_wf [c]
  have hparse : (parseKISSFile toggleText true).map (fun m => (m.resetState, m.states)) =
      some (some 0, [[(IncSpecSeq.ofString ['1'], 1, IncSpecSeq.ofString ['0']),
        (IncSpecSeq.ofString ['0'], 0, IncSpecSeq.ofString ['-'])],
        [(IncSpecSeq.ofString ['1'], 0, IncSpecSeq.ofString ['1'])]]) := by decide
  obtain ⟨m, hm, heq⟩ := Option.map_eq_some_iff.mp hparse
  obtain ⟨hreset, hstates⟩ := Prod.mk.inj heq
  have hdis : Disjoint ((IncSpecSeq.ofString ['1']).words 1)
    ((IncSpecSeq.ofString ['0']).words 1) :=
    (IncSpecSeq.isDisjoint_iff_words (hwf '1') (hwf '0')).mp (by decide)
  refine ⟨m, hm, hreset, ?_, ?_, ?_, ?_⟩
  · rw [hstates]
    simp [hwf, -Prod.forall]
  · rw [hstates]
    simp [hwf, -Prod.forall]
  · rw [hstates]
    simp [RowsApart, hdis]
  · obtain ⟨hnext, hlt⟩ := parseKISSFile_ok hm
    have hle := ncard_reachable_le hnext (hlt 0 hreset)
    rw [hstates] at hle ⊢
    exact hle.trans (by simp)

theorem memin_realises_toggle : ∃ m, parseKISSFile toggleText true = some m ∧
    ∃ N, ∀ fuel ≥ N, ∀ inputLength outputLength, ∃ nm r',
      meminCommand firstChoices ⟨false, false⟩ fuel m inputLength outputLength = some nm ∧
      nm.resetState = some r' ∧ RowsApart 1 nm.states ∧
      Realises Agrees (rowStep 1 m.states) 0 (rowStep 1 nm.states) r' := by
  obtain ⟨m, hm, hreset, hin, hout, hapart, hsize⟩ := toggle_parsed
  exact ⟨m, hm, memin_realises hm hreset hin hout hapart hsize firstChoices ⟨false, false⟩⟩

/-! ## Too many states -/

theorem meminCommand_none {r fuel inputLength outputLength : ℕ} (hm : MachOk ni no m.states)
    (hreset : m.resetState = some r) (hr : r < m.states.length)
    (hbig : 46340 < {s | Reachable m.states r s}.ncard) :
    meminCommand ch modes fuel m inputLength outputLength = none := by
  have hne : m.states ≠ [] := List.ne_nil_of_length_pos (Nat.zero_lt_of_lt hr)
  obtain ⟨machine, reset, htrim, htrimmed, -⟩ := exists_trimmed hm hne fun r' h =>
    Option.some.inj (hreset.symm.trans h) ▸ hr
  cases hprep : prepare ch modes fuel m with
  | none => rw [meminCommand, hprep]; rfl
  | some p =>
      obtain ⟨htrim', hsize, -⟩ := prepare_some hprep
      rw [← (Prod.mk.inj (Option.some.inj (htrim'.symm.trans htrim))).1] at htrimmed
      rw [← htrimmed.length_eq hreset] at hbig
      exact absurd hbig (Nat.not_lt.mpr hsize)

/-- A chain of 46341 states: the size of the matrix is no `int`, and no machine is written. -/
theorem memin_46341 : ∃ m, parseKISSFile (chainText 46340) true = some m ∧ m.resetState = some 0 ∧
    (∀ trans ∈ m.states, ∀ t ∈ trans, t.1.Wf 1) ∧ (∀ trans ∈ m.states, ∀ t ∈ trans, t.2.2.Wf 1) ∧
    RowsApart 1 m.states ∧
    ∀ ch modes fuel inputLength outputLength,
      meminCommand ch modes fuel m inputLength outputLength = none := by
  obtain ⟨hok, hapart⟩ := chain_ok (n := 46340)
  have hlt : 0 < (chainMachine 46340).states.length := length_chain.symm ▸ Nat.succ_pos _
  exact ⟨chainMachine 46340, parse_chain (by norm_num), rfl, hok.input, hok.output, hapart,
    fun _ _ _ _ _ => meminCommand_none hok rfl hlt lt_ncard_chain⟩

end ExtFolding.MeMin
