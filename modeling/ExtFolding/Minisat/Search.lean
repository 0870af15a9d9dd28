import ExtFolding.Minisat.Decide

/-!
# `memin/minisat/core/Solver.cpp`: the search

Rounds of propagation, learning and deciding until the problem is solved or the limit of conflicts
is reached. A round that does not end the search makes a step that cannot be repeated, so a search
ends by itself; it is a run of the abstract search.
-/

namespace ExtFolding.Minisat

open Cdcl LBool Relation

variable {F : Type} [Double F]

/-! ## The code -/

namespace Solver

/-- `if (learnts.size()-nAssigns() >= max_learnts) reduceDB();` -/
def limitLearnts (s : Solver F) : Option (Solver F) :=
  if Double.le s.max_learnts (Double.ofInt ((s.learnts.length : ℤ) - s.nAssigns)) then s.reduceDB
  else some s

/-- `decisionLevel() == 0 && !simplify()`, the negation of it -/
def simplifyAtRoot (s : Solver F) : Option (Bool × Solver F) :=
  if s.decisionLevel = 0 then s.simplify else some (true, s)

/-- One round of the loop; a result ends it. -/
def searchRound (nof_conflicts conflictC : ℤ) (s : Solver F) :
    Option (Option LBool × ℤ × Solver F) := do
  let r ← s.propagate
  match r.1 with
  | some confl =>
      if r.2.decisionLevel = 0 then return (some l_False, conflictC + 1, r.2)
      else
        let s ← r.2.handleConflict confl
        return (none, conflictC + 1, s)
  | none =>
      if 0 ≤ nof_conflicts ∧ nof_conflicts ≤ conflictC then
        return (some l_Undef, conflictC, r.2.cancelUntil 0)
      else
        let t ← r.2.simplifyAtRoot
        if t.1 = false then return (some l_False, conflictC, t.2)
        else
          let s ← t.2.limitLearnts
          let r ← s.decide
          return (r.1, conflictC, r.2)

/-- The loop of `search`. -/
def searchLoop : ℕ → ℤ → ℤ → Solver F → Option (LBool × Solver F)
  | 0, _, _, _ => none
  | fuel + 1, nof_conflicts, conflictC, s => do
      let r ← searchRound nof_conflicts conflictC s
      match r.1 with
      | some b => return (b, r.2.2)
      | none => searchLoop fuel nof_conflicts r.2.1 r.2.2

/-- No search has as many rounds. -/
def rounds (s : Solver F) : ℕ := runBound s.nVars (s.assumptions.length + s.nVars)

/-- `search(nof_conflicts)` -/
def search (nof_conflicts : ℤ) (s : Solver F) : Option (LBool × Solver F) :=
  searchLoop (s.rounds + 1) nof_conflicts 0 s

end Solver

/-! ## What a round leaves alone -/

/-- The problem, but not what is known of it. -/
structure Same (s s' : Solver F) : Prop where
  nVars : s'.nVars = s.nVars
  decision : s'.decision = s.decision
  assumptions : s'.assumptions = s.assumptions

omit [Double F] in
theorem Frame.same {s s' : Solver F} (h : Frame s s') : Same s s' :=
    ⟨h.nVars, h.decision, h.assumptions⟩

omit [Double F] in
theorem Same.trans {s s' s'' : Solver F} (h : Same s s') (h' : Same s' s'') : Same s s'' :=
  ⟨h'.nVars.trans h.nVars, h'.decision.trans h.decision, h'.assumptions.trans h.assumptions⟩

/-! ## A round -/

/-- Before a round. -/
structure Round (N : Set (List Lit)) (s : Solver F) : Prop where
  ready : Ready N s
  conflict : s.conflict = []
  assumed : Assumed s.assumptions s.toAssignment
  lt : ∀ p ∈ s.assumptions, p.var < s.nVars

section

variable {N : Set (List Lit)} {s s' : Solver F} {nof_conflicts conflictC : ℤ}

theorem Assumed.propagated {s s' : Core} {A : List Lit} (h : Assumed A s.toAssignment)
    (hp : Propagated N s s') : Assumed A s'.toAssignment := by
  refine h.grow hp.grows fun p hpt hr _ => ?_
  by_cases hps : p ∈ s.trail
  · rw [hp.reason hps] at hr
    exact ⟨hps, hr⟩
  · exact absurd hr (hp.enqueued p hpt hps)

theorem Assumed.trimmed {s s' : Core} {A : List Lit} {P : Clause → Prop}
    (h : Assumed A s.toAssignment)
    (ht : TrailOk s.toAssignment) (htr : Trimmed P s s') : Assumed A s'.toAssignment := by
  refine h.grow htr.grows fun p hpt hr hpos => ?_
  rw [htr.trail] at hpt
  rcases htr.reason p.var with hx | h0
  · exact ⟨hpt, hx ▸ hr⟩
  · rw [htr.level, level_zero ht h0 hpt] at hpos
    exact absurd hpos (Nat.lt_irrefl 0)

/-- Nothing is above level 0 when the search has been taken back. -/
theorem restart_spec [LawfulDouble F] (h : SolverOk N s.trail s) :
    ∃ o f, s.cancelUntil 0 = { s with
        toAssignment := s.toAssignment.cancelUntil 0, order_heap := o, polarity := f } ∧
      Ready N (s.cancelUntil 0) ∧ (s.cancelUntil 0).decisionLevel = 0 ∧
      Move N s.abs (s.cancelUntil 0).abs := by
  obtain ⟨o, f, heq, -⟩ := cancelUntil_spec h.core.trail h.order 0
  have hpre := (h.core.trail.trail_cancelUntil 0).1
  have hassign : (s.cancelUntil 0).toAssignment = s.toAssignment.cancelUntil 0 := by rw [heq]
  obtain ⟨hok, -, -⟩ := h.cancelUntil (Nat.zero_le _) hpre.subset
  refine ⟨o, f, heq, ?_, ?_, ?_⟩
  · rw [← hassign] at hok
    exact hok.ready
  · rw [hassign]
    exact TrailOk.decisionLevel_cancelUntil (Nat.zero_le _)
  · rw [hassign, h.core.trail.abs_cancelUntil (Nat.zero_le _)]
    exact .restart

/-- Simplifying at level 0 changes nothing about the search. -/
theorem simplifyAtRoot_spec [LawfulDouble F] (h : SolverOk N s.trail s)
    (hq : s.qhead = s.trail.length)
    (ha : Assumed s.assumptions s.toAssignment) :
    ∃ b s', s.simplifyAtRoot = some (b, s') ∧ Frame s s' ∧ ReflTransGen (Step N) s.abs s'.abs ∧
      s.potential ≤ s'.potential ∧ if b then Searching N s' else s'.decisionLevel = 0 ∧
        Unsat N := by
  unfold Solver.simplifyAtRoot
  split
  · next h0 =>
      obtain ⟨b, s', hrun, hframe, hgrows, hsteps, hpost⟩ := simplify_spec h.ready h0
      refine ⟨b, s', hrun, hframe, hsteps,
        potential_le_of_extends hframe.nVars hframe.assumptions hgrows, ?_⟩
      cases b with
      | false => exact ⟨hgrows.decisionLevel.trans h0, hpost.1⟩
      | true => exact ⟨hpost.1, hpost.2, .zero hpost.1.core.trail (hgrows.decisionLevel.trans h0)⟩
  · exact ⟨true, s, rfl, .refl s, .refl, le_rfl, h, hq, ha⟩

/-- Learnt clauses may go; the search does not see it. -/
theorem limitLearnts_spec [LawfulDouble F] (h : Searching N s) :
    ∃ s', s.limitLearnts = some s' ∧ Frame s s' ∧ s'.abs = s.abs ∧ s.potential ≤ s'.potential ∧
      Searching N s' := by
  unfold Solver.limitLearnts
  split
  · obtain ⟨s', hrun, hok, hframe, htrim⟩ := reduceDB_spec h.solver
    refine ⟨s', hrun, hframe, htrim.abs,
      potential_le_of_extends hframe.nVars hframe.assumptions htrim.grows, ?_, ?_, ?_⟩
    · rw [htrim.trail]
      exact hok
    · rw [htrim.qhead, htrim.trail]
      exact h.qhead
    · rw [hframe.assumptions]
      exact h.assumed.trimmed h.solver.core.trail htrim
  · exact ⟨s, rfl, .refl s, rfl, le_rfl, h⟩

/-- A round ends the search, or comes closer to its end. -/
theorem searchRound_spec [LawfulDouble F] (nof_conflicts conflictC : ℤ) (h : Round N s) :
    ∃ r c s', Solver.searchRound nof_conflicts conflictC s = some (r, c, s') ∧ Same s s' ∧
      ReflTransGen (Move N) s.abs s'.abs ∧
      match r with
      | none => Round N s' ∧ s.potential < s'.potential ∧ c ≤ conflictC + 1
      | some b => Result N s' b ∧
          (b = l_Undef → 0 ≤ nof_conflicts ∧ nof_conflicts ≤ conflictC) := by
  obtain ⟨confl, s₁, hrun, hprop, hframe, hq, hpost⟩ := solver_propagate_spec h.ready
  have hassumed : Assumed s₁.assumptions s₁.toAssignment :=
    hframe.assumptions ▸ h.assumed.propagated hprop
  have hpot := potential_le_of_extends hframe.nVars hframe.assumptions hprop.grows
  have hconf : s₁.conflict = [] := hframe.conflict.trans h.conflict
  have hlt : ∀ {t : Solver F}, Same s₁ t → ∀ p ∈ t.assumptions, p.var < t.nVars := by
    intro t ht p hp
    rw [ht.assumptions, hframe.assumptions] at hp
    rw [ht.nVars, hframe.nVars]
    exact h.lt p hp
  unfold Solver.searchRound
  simp only [hrun, Option.bind_eq_bind, Option.bind_some]
  cases confl with
  | some cr =>
      obtain ⟨hok, hcr⟩ := hpost
      dsimp only
      by_cases h0 : s₁.decisionLevel = 0
      · rw [if_pos h0]
        exact ⟨some l_False, _, s₁, rfl, hframe.same, moves hprop.run,
          Or.inl ⟨hconf, h0, hcr.unsat hok.core h0⟩, fun heq => absurd heq (by decide)⟩
      · rw [if_neg h0]
        obtain ⟨-, p, rest, bt, s₂, source, -, han, hunit, hrun₂, hready, hframe₂, -,
          hstep, hassign,
            hsource⟩ :=
          handleConflict_spec hok hcr (Nat.pos_of_ne_zero h0)
            fun level hlev => cancelUntil_subset h.ready.core hprop hlev
        simp only [hrun₂, Option.bind_some]
        have ht := hok.core.trail
        refine ⟨none, _, s₂, rfl, hframe.same.trans hframe₂.same,
          (moves hprop.run).tail (.step hstep),
          ⟨hready, hframe₂.conflict.trans hconf, ?_, hlt hframe₂.same⟩,
          hpot.trans_lt (potential_le_of_step hframe₂.nVars hframe₂.assumptions ht hassumed hstep),
          le_rfl⟩
        rw [hframe₂.assumptions, hassign]
        refine (hassumed.cancelUntil ht han.lt.le).enqueue (ht.cancelUntil bt) hunit.undef
          fun hnone => ?_
        rw [TrailOk.decisionLevel_cancelUntil han.lt.le]
        exact hsource hnone
  | none =>
      dsimp only
      by_cases hlim : 0 ≤ nof_conflicts ∧ nof_conflicts ≤ conflictC
      · rw [if_pos hlim]
        obtain ⟨o, f, heq, hready, h0, hmove⟩ := restart_spec hpost
        have hsame : Same s₁ (s₁.cancelUntil 0) := by
          rw [heq]
          exact ⟨TrailOk.nVars_cancelUntil, rfl, rfl⟩
        have hconf' : (s₁.cancelUntil 0).conflict = [] := by rw [heq, hconf]
        exact ⟨some l_Undef, _, _, rfl, hframe.same.trans hsame, (moves hprop.run).tail hmove,
          ⟨hready, hconf', h0⟩, fun _ => hlim⟩
      · rw [if_neg hlim]
        obtain ⟨b, s₂, hrun₂, hframe₂, hsteps₂, hpot₂, hpost₂⟩ :=
          simplifyAtRoot_spec hpost hq hassumed
        simp only [hrun₂, Option.bind_some]
        cases b with
        | false =>
            rw [if_pos rfl]
            exact ⟨some l_False, _, s₂, rfl, hframe.same.trans hframe₂.same,
              moves (hprop.run.trans hsteps₂), Or.inl ⟨hframe₂.conflict.trans hconf, hpost₂⟩,
              fun heq => absurd heq (by decide)⟩
        | true =>
            rw [if_neg (by simp)]
            obtain ⟨s₃, hrun₃, hframe₃, habs₃, hpot₃, hsearch⟩ := limitLearnts_spec hpost₂
            have hframe₁₃ := hframe₂.trans hframe₃
            simp only [hrun₃, Option.bind_some]
            obtain ⟨r, s₄, hrun₄, hn, hd, ha, hsteps₄, hpost₄⟩ :=
              decide_spec hsearch (hframe₁₃.conflict.trans hconf) (hlt hframe₁₃.same)
            rw [habs₃] at hsteps₄
            have hsame₄ : Same s₁ s₄ := hframe₁₃.same.trans ⟨hn, hd, ha⟩
            simp only [hrun₄, Option.bind_some]
            refine ⟨r, _, s₄, rfl, hframe.same.trans hsame₄,
              moves (hprop.run.trans (hsteps₂.trans hsteps₄)), ?_⟩
            cases r with
            | none =>
                obtain ⟨hready, hconf₄, hassumed₄, hpot₄⟩ := hpost₄
                exact ⟨⟨hready, hconf₄, hassumed₄, hlt hsame₄⟩,
                  (hpot.trans (hpot₂.trans hpot₃)).trans_lt hpot₄, (Int.le_add_one le_rfl)⟩
            | some b =>
                exact ⟨hpost₄.1, fun heq => absurd heq hpost₄.2⟩

/-! ## A search -/

/-- The next search starts where the last one gave up. -/
theorem Round.restarted (h : Round N s) (hsame : Same s s') (hres : Result N s' l_Undef) :
    Round N s' := by
  obtain ⟨hready, hconf, h0⟩ := hres
  refine ⟨hready, hconf, .zero hready.core.trail h0, fun p hp => ?_⟩
  rw [hsame.nVars]
  exact h.lt p (hsame.assumptions ▸ hp)

theorem Round.potential_le (h : Round N s) : s.potential ≤ s.rounds :=
  Cdcl.potential_le (length_abs.le.trans h.ready.core.trail.length_le)
    (h.assumed.level_le h.ready.core.trail)

omit [Double F] in
theorem Same.rounds (h : Same s s') : s'.rounds = s.rounds := by
  unfold Solver.rounds
  rw [h.nVars, h.assumptions]

/-- The loop ends, and only for a reason. -/
theorem searchLoop_spec [LawfulDouble F] {fuel : ℕ} (h : Round N s) (hc : conflictC ≤ s.potential)
    (hfuel : s.rounds - s.potential < fuel) :
    ∃ b s', Solver.searchLoop fuel nof_conflicts conflictC s = some (b, s') ∧ Same s s' ∧
      ReflTransGen (Move N) s.abs s'.abs ∧ Result N s' b ∧
      (b = l_Undef → 0 ≤ nof_conflicts ∧ nof_conflicts ≤ s.rounds) := by
  induction fuel generalizing s conflictC with
  | zero => exact absurd hfuel (Nat.not_lt_zero _)
  | succ fuel ih =>
      obtain ⟨r, c, s₁, hrun, hsame, hmoves, hpost⟩ :=
        searchRound_spec nof_conflicts conflictC h
      simp only [Solver.searchLoop, hrun, Option.bind_eq_bind, Option.bind_some]
      cases r with
      | some b =>
          obtain ⟨hres, hundef⟩ := hpost
          have hle : (s.potential : ℤ) ≤ s.rounds := by exact_mod_cast h.potential_le
          exact ⟨b, s₁, rfl, hsame, hmoves, hres,
            fun heq => ⟨(hundef heq).1, ((hundef heq).2.trans hc).trans hle⟩⟩
      | none =>
          obtain ⟨h₁, hpot, hc₁⟩ := hpost
          have hle := h₁.potential_le
          have hrounds := hsame.rounds
          have hc' : c ≤ s₁.potential := by omega
          have hfuel' : s₁.rounds - s₁.potential < fuel := by omega
          obtain ⟨b, s₂, hrun₂, hsame₂, hmoves₂, hres, hundef⟩ := ih h₁ hc' hfuel'
          refine ⟨b, s₂, hrun₂, hsame.trans hsame₂, hmoves.trans hmoves₂, hres, fun heq => ?_⟩
          rw [← hrounds]
          exact hundef heq

/-- A search ends. It gives up only when its limit is not negative and not above the number of
rounds. -/
theorem search_spec [LawfulDouble F] (h : Round N s) :
    ∃ b s', s.search nof_conflicts = some (b, s') ∧ Same s s' ∧ ReflTransGen (Move N) s.abs s'.abs ∧
      Result N s' b ∧ (b = l_Undef → 0 ≤ nof_conflicts ∧ nof_conflicts ≤ s.rounds) :=
  searchLoop_spec h (Int.natCast_nonneg _) (Nat.lt_succ_of_le (Nat.sub_le _ _))

end

end ExtFolding.Minisat
