import ExtFolding.Minisat.Solve

/-!
# MiniSat in use

A solver is made, gets variables and clauses, is simplified and is asked, in any order and any
number of times. In every state that can come of it the clauses it keeps say what those that were
added say, and what it answers is right. It answers as soon as a search may have as many conflicts
as it has rounds.
-/

namespace ExtFolding.Minisat

open Cdcl LBool Relation

/-! ## Numbers that are not rounded -/

instance : Double ℚ where
  lt a b := decide (a < b)
  le a b := decide (a ≤ b)
  ofInt n := n
  toInt a := if 0 ≤ a then ⌊a⌋ else ⌈a⌉
  single a := a
  pow a b := a ^ ⌊b⌋

instance : LawfulDouble ℚ where
  asymm a b h := decide_eq_false (not_lt_of_gt (of_decide_eq_true h))
  connected a b c h := by
    rcases lt_or_ge a b with hab | hba
    · exact Or.inl (decide_eq_true hab)
    · exact Or.inr (decide_eq_true (hba.trans_lt (of_decide_eq_true h)))
  add_le a b h := by
    have hb : (0 : ℚ) ≤ b := not_lt.mp (of_decide_eq_false h)
    exact decide_eq_false (not_lt.mpr (le_add_of_nonneg_right hb))
  mul_le a b c h hab := by
    have hc : (0 : ℚ) ≤ c := not_lt.mp (of_decide_eq_false h)
    exact decide_eq_false
      (not_lt.mpr (mul_le_mul_of_nonneg_right (not_lt.mp (of_decide_eq_false hab)) hc))
  mul_nonneg a b ha hb := by
    have ha' : (0 : ℚ) ≤ a := not_lt.mp (of_decide_eq_false ha)
    have hb' : (0 : ℚ) ≤ b := not_lt.mp (of_decide_eq_false hb)
    exact decide_eq_false (not_lt.mpr (mul_nonneg ha' hb'))
  one_nonneg := rfl
  decay_nonneg := decide_eq_false (by
    change ¬ ((1 : ℤ) : ℚ) / (0.95 : ℚ) < ((0 : ℤ) : ℚ)
    norm_num)
  rescale_nonneg := decide_eq_false (by
    change ¬ (1e-100 : ℚ) < ((0 : ℤ) : ℚ)
    norm_num)

/-! ## Runs -/

variable {F : Type} [Double F]

/-- The states of a solver to which the clauses in `N` were added. -/
inductive Reachable : Set (List Lit) → Solver F → Prop
  | new : Reachable ∅ Solver.new
  | newVar {N s} (h : Reachable N s) (sign dvar : Bool) : Reachable N (s.newVar sign dvar).2
  | addClause {N s ps b s'} (h : Reachable N s) (hps : ∀ p ∈ ps, p.var < s.nVars)
      (hrun : s.addClause_ ps = some (b, s')) : Reachable (insert ps N) s'
  | simplify {N s b s'} (h : Reachable N s) (hrun : s.simplify = some (b, s')) : Reachable N s'
  | solve {N s fuel assumps b s'} (h : Reachable N s) (hA : ∀ p ∈ assumps, p.var < s.nVars)
      (hrun : s.solveLimited fuel assumps = some (b, s')) : Reachable N s'

section

variable [LawfulDouble F] {N : Set (List Lit)} {s s' : Solver F} {ps assumps : List Lit}

theorem Reachable.idle (h : Reachable N s) : Idle N s := by
  induction h with
  | new => exact .new
  | newVar h sign dvar ih => exact (newVar_spec ih sign dvar).1
  | addClause h hps hrun ih =>
      obtain ⟨b, s', hrun', hidle, -⟩ := addClause_idle ih hps
      rw [hrun] at hrun'
      cases hrun'
      exact hidle
  | simplify h hrun ih =>
      obtain ⟨b, s', hrun', hidle, -⟩ := simplify_idle ih
      rw [hrun] at hrun'
      cases hrun'
      exact hidle
  | @solve N s fuel assumps b s' h hA hrun ih =>
      rcases solveLimited_spec fuel assumps ih hA with ⟨b', s'', hrun', -, -, -, hidle,
        -⟩ | ⟨hnone, -⟩
      · rw [hrun] at hrun'
        cases hrun'
        exact hidle
      · rw [hrun] at hnone
        cases hnone

theorem Reachable.ready (h : Reachable N s) (hok : s.ok = true) : Ready N s := by
  rcases h.idle.state with hr | ⟨hno, -⟩
  · exact hr
  · rw [hok] at hno
    cases hno

theorem Reachable.unsat (h : Reachable N s) (hno : s.ok = false) : Unsat N := by
  rcases h.idle.state with hr | ⟨-, hunsat⟩
  · rw [hr.ok] at hno
    cases hno
  · exact hunsat

/-- What an answer says. -/
theorem answer_right {fuel : ℕ} {b : LBool} (h : Reachable N s)
    (hA : ∀ p ∈ assumps, p.var < s.nVars)
    (hrun : s.solveLimited fuel assumps = some (b, s')) :
    s'.decision = s.decision ∧ s'.assumptions = assumps ∧ ReflTransGen (Move N) s.abs s'.abs ∧
      Solved N s' b := by
  rcases solveLimited_spec fuel assumps h.idle hA with
    ⟨b', s'', hrun', -, hdec, ha, -, hmoves, hsolved⟩ | ⟨hnone, -⟩
  · rw [hrun] at hrun'
    cases hrun'
    exact ⟨hdec, ha, hmoves, hsolved⟩
  · rw [hrun] at hnone
    cases hnone

end

/-! ## Two variables and a clause -/

def pair : Solver ℚ := ((Solver.new.newVar true true).2.newVar true true).2

def either : List Lit := [mkLit 0 false, mkLit 1 false]

theorem pair_reachable : Reachable ∅ pair := (Reachable.new.newVar true true).newVar true true

theorem either_lt : ∀ p ∈ either, p.var < pair.nVars := by decide +kernel

/-- The clause is true when all variables are. -/
theorem either_models : (valuation fun _ => true).Models {either} := by
  rintro c rfl
  exact ⟨mkLit 0 false, List.mem_cons_self, rfl⟩

theorem pair_either : ∃ s, pair.addClause_ either = some (true, s) ∧ Reachable {either} s ∧
    s.ok = true ∧
    Live s.ca 0 ⟨either, false, false⟩ := by
  have heval : (pair.addClause_ either).map (fun r => (r.1, r.2.ok, r.2.ca 0)) =
      some (true, true, some ⟨either, false, false⟩) := by decide +kernel
  obtain ⟨⟨b, s⟩, hrun, heq⟩ := Option.map_eq_some_iff.mp heval
  obtain ⟨rfl, hok, hca⟩ : b = true ∧ s.ok = true ∧ s.ca 0 = some ⟨either, false, false⟩ := by
    simpa using heq
  have hreach := pair_reachable.addClause either_lt hrun
  rw [insert_empty_eq] at hreach
  exact ⟨s, hrun, hreach, hok, hca, rfl⟩

/-! ## Answers -/

section

variable [LawfulDouble F] {N : Set (List Lit)} {s s' : Solver F} {ps assumps : List Lit}

/-- A clause can always be added, and it is refused only when the problem has no model. -/
theorem addClause_answers (h : Reachable N s) (hps : ∀ p ∈ ps, p.var < s.nVars) :
    ∃ b s', s.addClause_ ps = some (b, s') ∧ Reachable (insert ps N) s' ∧ s'.ok = b ∧
      (b = false → Unsat (insert ps N)) := by
  obtain ⟨b, s', hrun, -, -, -, hok, hunsat⟩ := addClause_idle h.idle hps
  exact ⟨b, s', hrun, h.addClause hps hrun, hok, hunsat⟩

theorem addClause_answers_pair : ∃ b s', pair.addClause_ either = some (b, s') ∧
    Reachable (insert either ∅) s' ∧ s'.ok = b ∧ (b = false → Unsat (insert either ∅)) :=
  addClause_answers pair_reachable either_lt

/-- Simplification adds nothing to the problem. It leaves no clause that is false or has one literal
left, or the problem has no model. -/
theorem simplify_answers (h : Reachable N s) :
    ∃ b s', s.simplify = some (b, s') ∧ Reachable N s' ∧ s'.ok = b ∧
      if b then ∀ cr c, Live s'.ca cr c → (∃ p ∈ c.lits, s'.value p = l_True) ∨
        ∃ p ∈ c.lits, ∃ q ∈ c.lits, p ≠ q ∧ s'.value p = l_Undef ∧ s'.value q = l_Undef
      else Unsat N := by
  obtain ⟨b, s', hrun, -, -, -, hok, hunsat⟩ := simplify_idle h.idle
  refine ⟨b, s', hrun, h.simplify hrun, hok, ?_⟩
  cases b with
  | false =>
      rw [if_neg Bool.false_ne_true]
      exact hunsat rfl
  | true =>
      have hs : s.ok = true := by
        by_contra hno
        rw [Solver.simplify, if_neg (not_not.mpr h.idle.level),
          if_pos (Bool.not_eq_true _ |>.mp hno)] at hrun
        cases hrun
      obtain ⟨b', s'', hrun', -, -, -, hpost⟩ := simplify_spec (h.ready hs) h.idle.level
      rw [hrun] at hrun'
      cases hrun'
      rw [if_pos rfl] at hpost ⊢
      exact fun cr c hc => hpost.1.two_open hc

theorem simplify_answers_either : ∃ s : Solver ℚ, Reachable {either} s ∧
    ∃ b s', s.simplify = some (b, s') ∧ Reachable {either} s' ∧ s'.ok = b ∧
      if b then ∀ cr c, Live s'.ca cr c → (∃ p ∈ c.lits, s'.value p = l_True) ∨
        ∃ p ∈ c.lits, ∃ q ∈ c.lits, p ≠ q ∧ s'.value p = l_Undef ∧ s'.value q = l_Undef
      else Unsat {either} := by
  obtain ⟨s, -, hreach, -⟩ := pair_either
  exact ⟨s, hreach, simplify_answers hreach⟩

/-- What was done before does not matter: with an answer, a model makes the assumptions true and all
clauses over variables that may be decided, and without a model the complements of some assumptions
follow. There is none yet only if all limits so far were within the number of rounds. -/
theorem solver_answers (fuel : ℕ) (h : Reachable N s) (hA : ∀ p ∈ assumps, p.var < s.nVars) :
    (∃ b s', s.solveLimited fuel assumps = some (b, s') ∧ Reachable N s' ∧
      match b with
      | l_True => ∀ m, Agrees m s'.model → (∀ p ∈ assumps, (valuation m).holds p) ∧
          ∀ e ∈ N, (∀ p ∈ e, s.decision p.var = true) → (valuation m).Sat e
      | l_False => Entails N s'.conflict ∧ ∀ q ∈ s'.conflict, -q ∈ assumps
      | l_Undef => False) ∨
    s.solveLimited fuel assumps = none ∧ ∀ k < fuel, 0 ≤ restartLimit F k ∧
      restartLimit F k ≤ runBound s.nVars (assumps.length + s.nVars) := by
  rcases solveLimited_spec fuel assumps h.idle hA with ⟨b, s', hrun, -⟩ | hlim
  · refine Or.inl ⟨b, s', hrun, h.solve hA hrun, ?_⟩
    obtain ⟨hdec, ha, -, hsolved⟩ := answer_right h hA hrun
    cases b with
    | l_True =>
        intro m hm
        rw [← ha, ← hdec]
        exact hsolved.2 m hm
    | l_False =>
        rw [← ha]
        exact hsolved
    | l_Undef => exact hsolved
  · exact Or.inr hlim

theorem solver_answers_pair :
    (∃ b s', pair.solveLimited 1 either = some (b, s') ∧ Reachable ∅ s' ∧
      match b with
      | l_True => ∀ m, Agrees m s'.model → (∀ p ∈ either, (valuation m).holds p) ∧
          ∀ e ∈ (∅ : Set (List Lit)), (∀ p ∈ e, pair.decision p.var = true) → (valuation m).Sat e
      | l_False => Entails ∅ s'.conflict ∧ ∀ q ∈ s'.conflict, -q ∈ either
      | l_Undef => False) ∨
    pair.solveLimited 1 either = none ∧ ∀ k < 1, 0 ≤ restartLimit ℚ k ∧
      restartLimit ℚ k ≤ runBound pair.nVars (either.length + pair.nVars) :=
  solver_answers 1 pair_reachable either_lt

/-! ## The rounds of a question -/

/-- The solver before the rounds of `solveLimited(assumps)`, with the number of restarts and the
conflicts since the last one. -/
inductive Asked (s : Solver F) (assumps : List Lit) : ℕ → ℤ → Solver F → Prop
  | start (hok : s.ok = true) : Asked s assumps 0 0
      (Solver.startSolve { s with assumptions := assumps, model := [], conflict := [] })
  | round {k c c' t t'} (h : Asked s assumps k c t)
      (hrun : Solver.searchRound (restartLimit F k) c t = some (none, c', t')) :
      Asked s assumps k c' t'
  | restart {k c c' t t'} (h : Asked s assumps k c t)
      (hrun : Solver.searchRound (restartLimit F k) c t = some (some l_Undef, c', t')) :
      Asked s assumps (k + 1) 0 t'

theorem Asked.spec {k : ℕ} {c : ℤ} {t : Solver F} (h : Reachable N s)
    (hA : ∀ p ∈ assumps, p.var < s.nVars) (hv : Asked s assumps k c t) :
    Round N t ∧ ReflTransGen (Move N) s.abs t.abs := by
  induction hv with
  | start hok => exact ⟨(h.ready hok).round_start h.idle.level hA, .refl⟩
  | @round k c c' t t' _ hrun ih =>
      obtain ⟨r, _, _, hrun', -, hmoves, hpost⟩ := searchRound_spec (restartLimit F k) c ih.1
      cases hrun.symm.trans hrun'
      exact ⟨hpost.1, ih.2.trans hmoves⟩
  | @restart k c c' t t' _ hrun ih =>
      obtain ⟨r, _, _, hrun', hsame, hmoves, hpost⟩ := searchRound_spec (restartLimit F k) c ih.1
      cases hrun.symm.trans hrun'
      exact ⟨ih.1.restarted hsame hpost.1, ih.2.trans hmoves⟩

section

omit [LawfulDouble F]

theorem Asked.searchLoop {k fuel : ℕ} {b : LBool} {c : ℤ} {t u : Solver F}
    (hv : Asked s assumps k c t)
    (hrun : Solver.searchLoop fuel (restartLimit F k) c t = some (b, u)) :
    ∃ c₁ c₂ t', Asked s assumps k c₁ t' ∧
      Solver.searchRound (restartLimit F k) c₁ t' = some (some b, c₂, u) := by
  induction fuel generalizing c t with
  | zero => cases hrun
  | succ fuel ih =>
      obtain ⟨⟨r, c', t'⟩, hround, hrest⟩ := Option.bind_eq_some_iff.mp hrun
      cases r with
      | none => exact ih (hv.round hround) hrest
      | some b' =>
          cases hrest
          exact ⟨c, c', t, hv, hround⟩

theorem Asked.solveLoop {k fuel : ℕ} {b : LBool} {t u : Solver F} (hv : Asked s assumps k 0 t)
    (hrun : Solver.solveLoop fuel k t = some (b, u)) :
    ∃ k' c₁ c₂ t', Asked s assumps k' c₁ t' ∧
      Solver.searchRound (restartLimit F k') c₁ t' = some (some b, c₂, u) := by
  induction fuel generalizing k t with
  | zero => cases hrun
  | succ fuel ih =>
      obtain ⟨⟨b', t'⟩, hsearch, hrest⟩ := Option.bind_eq_some_iff.mp hrun
      obtain ⟨c₁, c₂, t₁, hv₁, hround⟩ := hv.searchLoop hsearch
      by_cases hb : b' = l_Undef
      · subst hb
        rw [if_pos rfl] at hrest
        exact ih (hv₁.restart hround) hrest
      · rw [if_neg hb] at hrest
        cases hrest
        exact ⟨k, c₁, c₂, t₁, hv₁, hround⟩

/-- The answer is that of the last round. -/
theorem exists_last_round {fuel : ℕ} {b : LBool} (hok : s.ok = true)
    (hrun : s.solveLimited fuel assumps = some (b, s')) :
    ∃ k c c' t u, Asked s assumps k c t ∧
      Solver.searchRound (restartLimit F k) c t = some (some b, c', u) ∧ s' = u.endSolve b := by
  unfold Solver.solveLimited Solver.solve_ at hrun
  dsimp only at hrun
  rw [if_neg (by rw [hok]; decide)] at hrun
  obtain ⟨⟨b', u⟩, hloop, hend⟩ := Option.bind_eq_some_iff.mp hrun
  cases hend
  have hstart : Asked s assumps 0 0 _ := .start hok
  obtain ⟨k, c, c', t, hv, hround⟩ := hstart.solveLoop hloop
  exact ⟨k, c, c', t, u, hv, hround, rfl⟩

end

/-- All that solving visits are states of a run of the transition system that satisfy its invariant.
Each round ends, as a run of the system that comes closer to the end or with a result, and the
answer is that of the last one. -/
theorem solve_moves (h : Reachable N s) (hA : ∀ p ∈ assumps, p.var < s.nVars) :
    (∀ k c t, Asked s assumps k c t → ReflTransGen (Move N) s.abs t.abs ∧ Ok N t.abs ∧
      ∃ r c' t', Solver.searchRound (restartLimit F k) c t = some (r, c', t') ∧
        ReflTransGen (Move N) t.abs t'.abs ∧ Ok N t'.abs ∧
        match r with
        | none => t.potential < t'.potential
        | some b => Result N t' b) ∧
    ∀ fuel b s', s.ok = true → s.solveLimited fuel assumps = some (b, s') →
      ReflTransGen (Move N) s.abs s'.abs ∧ Ok N s'.abs ∧ ∃ k c c' t u, Asked s assumps k c t ∧
        Solver.searchRound (restartLimit F k) c t = some (some b, c', u) ∧ s' = u.endSolve b := by
  constructor
  · intro k c t hv
    obtain ⟨hround, hmoves⟩ := hv.spec h hA
    obtain ⟨r, c', t', hrun, -, hmoves', hpost⟩ := searchRound_spec (restartLimit F k) c hround
    have hok := hround.ready.core.search
    refine ⟨hmoves, hok, r, c', t', hrun, hmoves', hok.run hmoves', ?_⟩
    cases r with
    | none => exact hpost.2.1
    | some b => exact hpost.1
  · intro fuel b s' hok hrun
    obtain ⟨-, -, hmoves, -⟩ := answer_right h hA hrun
    exact ⟨hmoves, (h.ready hok).core.search.run hmoves, exists_last_round hok hrun⟩

theorem solve_moves_either : ∃ s : Solver ℚ, Reachable {either} s ∧
    (∀ k c t, Asked s [] k c t → ReflTransGen (Move {either}) s.abs t.abs ∧ Ok {either} t.abs ∧
      ∃ r c' t', Solver.searchRound (restartLimit ℚ k) c t = some (r, c', t') ∧
        ReflTransGen (Move {either}) t.abs t'.abs ∧ Ok {either} t'.abs ∧
        match r with
        | none => t.potential < t'.potential
        | some b => Result {either} t' b) ∧
    ∀ fuel b s', s.ok = true → s.solveLimited fuel [] = some (b, s') →
      ReflTransGen (Move {either}) s.abs s'.abs ∧ Ok {either} s'.abs ∧
      ∃ k c c' t u, Asked s [] k c t ∧
        Solver.searchRound (restartLimit ℚ k) c t = some (some b, c', u) ∧ s' = u.endSolve b := by
  obtain ⟨s, -, hreach, -⟩ := pair_either
  exact ⟨s, hreach, solve_moves hreach fun p hp => absurd hp List.not_mem_nil⟩

/-! ## What the solver keeps -/

/-- The literals that are known and the clauses that are kept have the models of the clauses that
were added. -/
theorem kept_equivalent (h : Reachable N s) (v : Valuation Lit) :
    v.Models N ↔ s.ok = true ∧ (∀ p ∈ s.trail, v.holds p) ∧ ∀ cr c, Live s.ca cr c →
      v.Sat c.lits := by
  constructor
  · intro hv
    have hok : s.ok = true := by
      by_contra hno
      exact h.unsat (Bool.not_eq_true _ |>.mp hno) v hv
    have hr := h.ready hok
    refine ⟨hok, fun p hp => ?_, fun cr c hc => hr.core.implied cr c hc v hv⟩
    have hroot := level_zero hr.core.trail h.idle.level hp
    obtain ⟨q, hq, hvq⟩ := hr.core.search.root (p, 0) (TrailOk.mem_abs.mpr ⟨hp, hroot⟩) rfl v hv
    rwa [List.mem_singleton.mp hq] at hvq
  · rintro ⟨hok, htrail, hlive⟩ e he
    rcases (h.ready hok).orig e he with ⟨p, hp, hpt, -⟩ | ⟨p, hp, hneg⟩ | ⟨cr, c, hc, -, hsub⟩
    · exact ⟨p, hp, htrail p hpt⟩
    · by_cases hvp : v.holds p
      · exact ⟨p, hp, hvp⟩
      · exact ⟨-p, hneg, (v.neg p).mpr hvp⟩
    · obtain ⟨p, hp, hvp⟩ := hlive cr c hc
      exact ⟨p, hsub hp, hvp⟩

theorem kept_equivalent_either : ∃ s, pair.addClause_ either = some (true, s) ∧
    (s.ok = true ∧ (∀ p ∈ s.trail, (valuation fun _ => true).holds p) ∧
      ∀ cr c, Live s.ca cr c → (valuation fun _ => true).Sat c.lits) := by
  obtain ⟨s, hrun, hreach, -⟩ := pair_either
  exact ⟨s, hrun, (kept_equivalent hreach (valuation fun _ => true)).mp either_models⟩

/-- Each clause that is kept has at least two literals, is in its list once, and its first two
literals, no others, watch it once. -/
theorem watches_exact (h : Reachable N s) (hok : s.ok = true) {cr : ℕ} {c : Clause}
    (hc : Live s.ca cr c) :
    c.lits.Nodup ∧ (s.refs c.learnt).count cr = 1 ∧
      ∃ a b tail, c.lits = a :: b :: tail ∧
        ∀ p, ((s.watches p).map Watcher.cref).count cr = if p = -a ∨ p = -b then 1 else 0 := by
  have hcore := (h.ready hok).core
  obtain ⟨a, b, tail, hlits⟩ := exists_lits (hcore.db.two hc.1)
  refine ⟨hcore.db.nodup hc, ?_, a, b, tail, hlits, fun p => ?_⟩
  · exact List.count_eq_one_of_mem (hcore.db.refs_nodup _)
      ((hcore.db.mem_refs _ cr).mpr ⟨c, hc, rfl⟩)
  · have hmem : cr ∈ (s.watches p).map Watcher.cref ↔ p = -a ∨ p = -b := by
      rw [hcore.watch.mem hc p, Clause.watched, hlits]
      simp [neg_eq_iff_eq_neg]
    rw [List.Nodup.count (hcore.watch.nodup p)]
    exact if_congr hmem rfl rfl

theorem watches_exact_either : ∃ s, pair.addClause_ either = some (true, s) ∧
    either.Nodup ∧ (s.refs false).count 0 = 1 ∧
      ∃ a b tail, either = a :: b :: tail ∧
        ∀ p, ((s.watches p).map Watcher.cref).count 0 = if p = -a ∨ p = -b then 1 else 0 := by
  obtain ⟨s, hrun, hreach, hok, hlive⟩ := pair_either
  exact ⟨s, hrun, watches_exact hreach hok hlive⟩

/-! ## The parts of a search -/

omit [LawfulDouble F] in
/-- Propagation is a run of the transition system. It ends with a clause that is false, or when each
clause is true or has two literals without values. -/
theorem propagate_fixpoint (h : Ready N s) :
    ∃ confl s', s.propagate = some (confl, s') ∧ ReflTransGen (Step N) s.abs s'.abs ∧
      s.trail <+: s'.trail ∧
      match confl with
      | some cr => ∃ c, Live s'.ca cr c ∧ ∀ p ∈ c.lits, s'.value p = l_False
      | none => Ready N s' ∧ ∀ cr c, Live s'.ca cr c → (∃ p ∈ c.lits, s'.value p = l_True) ∨
          ∃ p ∈ c.lits, ∃ q ∈ c.lits, p ≠ q ∧ s'.value p = l_Undef ∧ s'.value q = l_Undef := by
  obtain ⟨confl, s', hrun, hprop, -, -, hpost⟩ := solver_propagate_spec h
  refine ⟨confl, s', hrun, hprop.run, hprop.trail, ?_⟩
  cases confl with
  | some cr =>
      obtain ⟨hok, c, hc, hfalse, -⟩ := hpost
      exact ⟨c, hc, fun p hp => (hok.core.trail.value_false p).mpr (hfalse p hp)⟩
  | none =>
      have hok : SolverOk N s'.trail s' := hpost
      exact ⟨hok.ready, fun cr c hc => hok.two_open hc⟩

theorem propagate_fixpoint_either : ∃ s : Solver ℚ, Ready {either} s ∧
    ∃ confl s', s.propagate = some (confl, s') ∧ ReflTransGen (Step {either}) s.abs s'.abs ∧
      s.trail <+: s'.trail ∧
      match confl with
      | some cr => ∃ c, Live s'.ca cr c ∧ ∀ p ∈ c.lits, s'.value p = l_False
      | none => Ready {either} s' ∧ ∀ cr c, Live s'.ca cr c → (∃ p ∈ c.lits, s'.value p = l_True) ∨
          ∃ p ∈ c.lits, ∃ q ∈ c.lits, p ≠ q ∧ s'.value p = l_Undef ∧ s'.value q = l_Undef := by
  obtain ⟨s, -, hreach, hok, -⟩ := pair_either
  exact ⟨s, hreach.ready hok, propagate_fixpoint (hreach.ready hok)⟩

/-- A conflict teaches a clause that follows from the problem, is false now and has one literal
without a value where the search goes back to; the search jumps back there and enqueues this
literal. -/
theorem conflict_learns {cr : ℕ} (h : Ready N s) (hrun : s.propagate = some (some cr, s'))
    (hk : 0 < s'.decisionLevel) :
    ∃ s₁ p rest bt, s'.analyze cr = some (s₁, p :: rest, bt) ∧ Entails N (p :: rest) ∧
      (∀ q ∈ p :: rest, s'.value q = l_False) ∧ bt < s'.decisionLevel ∧
      (s'.toAssignment.cancelUntil bt).value p = l_Undef ∧
      (∀ q ∈ rest, (s'.toAssignment.cancelUntil bt).value q = l_False) ∧
      ∃ s₂, s'.handleConflict cr = some s₂ ∧ Ready N s₂ ∧ Step N s'.abs s₂.abs ∧
        s₂.abs = ⟨(p, bt) :: s'.abs.trail.cut bt, bt⟩ := by
  obtain ⟨confl, s'', hrun', hprop, -, -, hpost⟩ := solver_propagate_spec h
  rw [hrun] at hrun'
  cases hrun'
  obtain ⟨hok, hconf⟩ := hpost
  have ht := hok.core.trail
  obtain ⟨s₁, p, rest, bt, s₂, -, hanalyze, han, hunit, hhandle, hready, -, habs, hstep, -⟩ :=
    handleConflict_spec hok hconf hk fun level hlev => cancelUntil_subset h.core hprop hlev
  exact ⟨s₁, p, rest, bt, hanalyze, han.follows,
    fun q hq => (ht.value_false q).mpr (han.neg_trail q hq), han.lt, hunit.undef,
    fun q hq => ((ht.cancelUntil bt).value_false q).mpr (hunit.neg_trail q hq),
    s₂, hhandle, hready, hstep, habs⟩

/-- With a second clause, the decision that `x₀` is false leads to a conflict. -/
theorem clash_ready : ∃ s cr s', Ready {[mkLit 0 false, mkLit 1 true], either} s ∧
    Solver.propagate s = some (some cr, s') ∧ 0 < s'.decisionLevel ∧
      (pair.addClause_ either).bind (fun r => (r.2.addClause_ [mkLit 0 false, mkLit 1 true]).map
        fun t => t.2.decideLit (mkLit 0 true)) = some s := by
  have heval : ((pair.addClause_ either).bind fun r =>
      (r.2.addClause_ [mkLit 0 false, mkLit 1 true]).bind fun t =>
        (t.2.decideLit (mkLit 0 true)).propagate.map fun u =>
          ((t.2.ok, t.2.trail, t.2.qhead), (t.2.nVars, t.2.assumptions), u.1, u.2.decisionLevel)) =
      some ((true, [], 0), (2, []), some 1, 1) := by decide +kernel
  obtain ⟨⟨b, s⟩, hrun, hrest⟩ := Option.bind_eq_some_iff.mp heval
  obtain ⟨⟨b', t⟩, hrun', hrest⟩ := Option.bind_eq_some_iff.mp hrest
  obtain ⟨⟨confl, u⟩, hprop, heq⟩ := Option.map_eq_some_iff.mp hrest
  obtain ⟨⟨hok, htrail, hq⟩, ⟨hn, hassume⟩, rfl, hlev⟩ :
      (t.ok = true ∧ t.trail = [] ∧ t.qhead = 0) ∧ (t.nVars = 2 ∧ t.assumptions = []) ∧
        confl = some 1 ∧ u.decisionLevel = 1 := by simpa using heq
  have hreach := pair_reachable.addClause either_lt hrun
  have hlt : ∀ p ∈ [mkLit 0 false, mkLit 1 true], p.var < s.nVars := by
    have hvars : (pair.addClause_ either).map (fun r => r.2.nVars) = some 2 := by decide +kernel
    rw [hrun] at hvars
    have hn : s.nVars = 2 := Option.some.inj hvars
    rw [hn]
    decide
  have hreach' := hreach.addClause hlt hrun'
  rw [insert_empty_eq] at hreach'
  have hready := hreach'.ready hok
  have hsearch : Searching {[mkLit 0 false, mkLit 1 true], either} t :=
    ⟨hready.mono (by simp [htrail]), by rw [hq, htrail]; rfl,
      .zero hready.core.trail hreach'.idle.level⟩
  have hu : t.value (mkLit 0 true) = l_Undef :=
    (hready.core.trail.value_undef _).mpr (by simp [htrail])
  refine ⟨_, 1, u, (decideLit_spec hsearch hu (by rw [hn]; decide) hready.order.ok hready.order.lt
    hready.order.ordered (fun x hx hd hux => Or.inl (hready.order.mem x hx hd hux))
      fun hlt => ?_).1, hprop,
    by rw [hlev]; decide, ?_⟩
  · rw [hassume] at hlt
    exact absurd hlt (Nat.not_lt_zero _)
  · simp [hrun, hrun']

theorem conflict_learns_clash : ∃ (s : Solver ℚ) (cr : ℕ) (s' : Solver ℚ),
    s.propagate = some (some cr, s') ∧ ∃ s₁ p rest bt, s'.analyze cr = some (s₁, p :: rest, bt) ∧
      Entails {[mkLit 0 false, mkLit 1 true], either} (p :: rest) ∧
      (∀ q ∈ p :: rest, s'.value q = l_False) ∧ bt < s'.decisionLevel ∧
      (s'.toAssignment.cancelUntil bt).value p = l_Undef ∧
      (∀ q ∈ rest, (s'.toAssignment.cancelUntil bt).value q = l_False) ∧
      ∃ s₂, s'.handleConflict cr = some s₂ ∧ Ready {[mkLit 0 false, mkLit 1 true], either} s₂ ∧
        Step {[mkLit 0 false, mkLit 1 true], either} s'.abs s₂.abs ∧
        s₂.abs = ⟨(p, bt) :: s'.abs.trail.cut bt, bt⟩ := by
  obtain ⟨s, cr, s', hready, hrun, hk, -⟩ := clash_ready
  exact ⟨s, cr, s', hrun, conflict_learns hready hrun hk⟩

/-- Only learnt clauses are removed, and the search goes on where it was. -/
theorem reduceDB_keeps (h : Ready N s) :
    ∃ s', s.reduceDB = some s' ∧ Ready N s' ∧ s'.abs = s.abs ∧
      ∀ cr c, (Live s'.ca cr c → Live s.ca cr c) ∧
        (Live s.ca cr c → Live s'.ca cr c ∨ c.learnt = true) := by
  obtain ⟨s', hrun, hok, -, ht⟩ := reduceDB_spec h
  refine ⟨s', hrun, ?_, ht.abs, fun cr c => ⟨ht.live, ht.gone⟩⟩
  unfold Ready
  rw [ht.trail, ht.qhead]
  exact hok

theorem reduceDB_keeps_either : ∃ s : Solver ℚ, Ready {either} s ∧
    ∃ s', s.reduceDB = some s' ∧ Ready {either} s' ∧ s'.abs = s.abs ∧
      ∀ cr c, (Live s'.ca cr c → Live s.ca cr c) ∧
        (Live s.ca cr c → Live s'.ca cr c ∨ c.learnt = true) := by
  obtain ⟨s, -, hreach, hok, -⟩ := pair_either
  exact ⟨s, hreach.ready hok, reduceDB_keeps (hreach.ready hok)⟩

/-- The next decision is a variable without a value, and none that can be decided is more active. -/
theorem pickBranchLit_most_active (ho : OrderOk s) :
    ∃ r s', s.pickBranchLit = some (r, s') ∧ s'.toCore = s.toCore ∧
      match r with
      | none => ∀ x < s.nVars, s.decision x = true → s.valueVar x ≠ l_Undef
      | some p => s.valueVar p.var = l_Undef ∧ s.decision p.var = true ∧ p.sign = s.polarity p.var ∧
          ∀ y < s.nVars, s.decision y = true → s.valueVar y = l_Undef →
            Double.lt (s.activity p.var) (s.activity y) = false := by
  obtain ⟨r, o, hrun, -, -, -, hmem, hpost⟩ := pickBranchVar_spec ho (Nat.lt_succ_self _)
  unfold Solver.pickBranchLit
  rw [hrun]
  refine ⟨_, _, rfl, rfl, ?_⟩
  cases r with
  | none =>
      have hnil : o.heap = [] := hpost
      intro x hx hd hu
      rcases hmem x hx hd hu with hxo | heq
      · rw [hnil] at hxo
        exact List.not_mem_nil hxo
      · cases heq
  | some x =>
      obtain ⟨hu, hd, -, hleast⟩ := hpost
      simp only [Option.map_some, Lit.var_mkLit, Lit.sign_mkLit]
      exact ⟨hu, hd, trivial, fun y hy hdy huy => Bool.not_eq_true _ |>.mp (hleast y hy hdy huy)⟩

theorem pickBranchLit_most_active_pair : ∃ r s', pair.pickBranchLit = some (r, s') ∧
    s'.toCore = pair.toCore ∧
      match r with
      | none => ∀ x < pair.nVars, pair.decision x = true → pair.valueVar x ≠ l_Undef
      | some p => pair.valueVar p.var = l_Undef ∧ pair.decision p.var = true ∧
          p.sign = pair.polarity p.var ∧
          ∀ y < pair.nVars, pair.decision y = true → pair.valueVar y = l_Undef →
            Double.lt (pair.activity p.var) (pair.activity y) = false :=
  pickBranchLit_most_active (pair_reachable.ready (by decide +kernel)).order

/-- A search without a limit, or with one above the number of rounds, ends with an answer. -/
theorem search_decides {nof_conflicts : ℤ} (h : Round N s)
    (hlim : nof_conflicts < 0 ∨ (s.rounds : ℤ) < nof_conflicts) :
    ∃ b s', s.search nof_conflicts = some (b, s') ∧ ReflTransGen (Move N) s.abs s'.abs ∧
      Result N s' b ∧
      b ≠ l_Undef := by
  obtain ⟨b, s', hrun, -, hmoves, hres, hundef⟩ := @search_spec F _ N s nof_conflicts _ h
  refine ⟨b, s', hrun, hmoves, hres, fun hb => ?_⟩
  obtain ⟨hpos, hle⟩ := hundef hb
  omega

theorem search_decides_pair : ∃ b s', pair.search (-1) = some (b, s') ∧
    ReflTransGen (Move ∅) pair.abs s'.abs ∧ Result ∅ s' b ∧ b ≠ l_Undef := by
  have hready : Ready ∅ pair := pair_reachable.ready (by decide +kernel)
  have hassume : pair.assumptions = [] := by decide +kernel
  exact search_decides ⟨hready, by decide +kernel,
    .zero hready.core.trail pair_reachable.idle.level,
    fun p hp => absurd (hassume ▸ hp) List.not_mem_nil⟩ (Or.inl (by decide))

end

end ExtFolding.Minisat
