import ExtFolding.Minisat.Restart

/-!
# `memin/minisat/core/Solver.cpp`: solving

The operations of the solver in any order: new variables, new clauses, and solving under
assumptions. Between them the solver is at level 0 and keeps its invariant, or knows that the
problem has no model. Its answers are right, and it ends when a restart has room for all rounds of a
search.
-/

namespace ExtFolding.Minisat

open Cdcl LBool Relation

variable {F : Type} [Double F]

/-! ## The code -/

namespace Solver

/-- The loop of `solve_`; `none` when `fuel` restarts do not suffice. -/
def solveLoop : ℕ → ℕ → Solver F → Option (LBool × Solver F)
  | 0, _, _ => none
  | fuel + 1, curr_restarts, s => do
      let r ← s.search (restartLimit F curr_restarts)
      if r.1 = l_Undef then solveLoop fuel (curr_restarts + 1) r.2 else return r

/-- `solve_` before its loop. -/
def startSolve (s : Solver F) : Solver F :=
  { s with
    max_learnts := Double.ofInt s.clauses.length * learntsize_factor
    learntsize_adjust_confl := Double.ofInt learntsize_adjust_start_confl
    learntsize_adjust_cnt := Double.toInt (Double.ofInt learntsize_adjust_start_confl : F) }

/-- `solve_` after its loop. -/
def endSolve (s : Solver F) (status : LBool) : Solver F :=
  cancelUntil (
    if status = l_True then { s with model := (List.range s.nVars).map s.valueVar }
    else if status = l_False ∧ s.conflict = [] then { s with ok := false }
    else s) 0

def solve_ (fuel : ℕ) (s : Solver F) : Option (LBool × Solver F) :=
  let s' : Solver F := { s with model := [], conflict := [] }
  if s'.ok = false then some (l_False, s')
  else do
    let r ← solveLoop fuel 0 s'.startSolve
    return (r.1, r.2.endSolve r.1)

/-- `solveLimited(assumps)` without a budget -/
def solveLimited (fuel : ℕ) (assumps : List Lit) (s : Solver F) : Option (LBool × Solver F) :=
  solve_ fuel { s with assumptions := assumps }

end Solver

/-! ## Between two operations -/

/-- `N` are the clauses that were added. -/
structure Idle (N : Set (List Lit)) (s : Solver F) : Prop where
  lt : ∀ e ∈ N, ∀ p ∈ e, p.var < s.nVars
  level : s.decisionLevel = 0
  state : Ready N s ∨ s.ok = false ∧ Unsat N

section

variable {N : Set (List Lit)} {s s' : Solver F} {p : Lit} {ps : List Lit}

theorem Idle.new [LawfulDouble F] : Idle ∅ (Solver.new : Solver F) := by
  have hnone : ∀ {cr c}, ¬ Live (Solver.new : Solver F).ca cr c := fun h => by cases h.1
  have htrail : TrailOk (Solver.new : Solver F).toAssignment := by
    refine ⟨by simp [Solver.new], by simp [Solver.new], fun p => ?_, by simp [Solver.new],
      by simp [Solver.new], le_rfl, by simp [Solver.new]⟩
    simp [Solver.new, Assignment.value, LBool.xor]
  refine ⟨fun e he => absurd he (Set.notMem_empty e), rfl, Or.inl ⟨⟨htrail, ?_, ?_, ?_, ?_, ?_, ?_⟩,
    fun hc => absurd hc hnone, fun e he => absurd he (Set.notMem_empty e), ?_, fun _ => rfl, rfl⟩⟩
  · refine ⟨fun _ _ => rfl, fun hc => absurd hc (Option.some_ne_none _).symm, fun hc =>
      absurd hc hnone,
      fun hc => absurd hc hnone, fun b cr => ?_, fun b => ?_⟩
    · constructor
      · cases b <;> simp [Solver.new, Database.refs]
      · rintro ⟨c, hc, -⟩
        exact absurd hc hnone
    · cases b <;> simp [Solver.new, Database.refs]
  · exact ⟨fun hc => absurd hc hnone, fun hw => absurd hw List.not_mem_nil, fun _ => List.nodup_nil⟩
  · exact ⟨fun p w hw => absurd hw List.not_mem_nil, fun p hp => absurd hp Bool.false_ne_true⟩
  · exact ⟨fun hi => by simp [Solver.new] at hi, fun hi => by simp [Solver.new] at hi⟩
  · exact fun cr c hc => absurd hc hnone
  · exact ⟨List.Pairwise.nil, by simp [Solver.new, Assignment.abs], by simp [Solver.new,
      Assignment.abs]⟩
  · exact ⟨Heap.empty_ok, by simp [Solver.new, Heap.empty], fun x hx =>
      absurd hx (Nat.not_lt_zero x),
      Heap.ordered_empty, LawfulDouble.one_nonneg⟩

/-! ## A new variable -/

/-- The assignment with a variable more. -/
def Assignment.grown (s : Assignment) : Assignment :=
  { s with
    nVars := s.nVars + 1
    assigns := Function.update s.assigns s.nVars l_Undef
    vardata := Function.update s.vardata s.nVars ⟨none, 0⟩ }

theorem grown_vardata {s : Assignment} {x : ℕ} (hx : x < s.nVars) : s.grown.vardata x =
    s.vardata x :=
  Function.update_of_ne hx.ne _ _

theorem TrailOk.grown {s : Assignment} (h : TrailOk s) : TrailOk s.grown := by
  refine ⟨fun p hp => (h.lt p hp).trans (Nat.lt_succ_self _), h.nodup, fun p => ?_,
    h.lim_sorted, h.lim_le,
    h.qhead_le, fun i p hi => ?_⟩
  · by_cases hp : p.var = s.nVars
    · have hundef : s.grown.value p = l_Undef := by
        simp [Assignment.value, Assignment.grown, hp, LBool.xor]
      rw [hundef]
      refine ⟨fun heq => absurd heq (by decide), fun hpt => ?_⟩
      exact absurd (h.lt p hpt) (by rw [hp]; exact Nat.lt_irrefl _)
    · have hsame : s.grown.value p = s.value p := by
        simp [Assignment.value, Assignment.grown, Function.update_of_ne hp]
      rw [hsame]
      exact h.value p
  · exact (congrArg VarData.level (grown_vardata (h.lt p (List.mem_of_getElem? hi)))).trans
      (h.level i p hi)

theorem abs_grown {s : Assignment} (h : TrailOk s) : s.grown.abs = s.abs := by
  have hmap : (s.trail.map fun p => (p, s.grown.level p.var)) = s.trail.map fun p =>
    (p, s.level p.var) :=
    List.map_congr_left fun p hp =>
      congrArg (fun d => (p, VarData.level d)) (grown_vardata (h.lt p hp))
  show State.mk (s.trail.map fun p => (p, s.grown.level p.var)).reverse s.decisionLevel = _
  rw [hmap]
  rfl

theorem CoreOk.grown {s : Core} (h : CoreOk N s) :
    CoreOk N { s with toAssignment := s.toAssignment.grown } := by
  refine ⟨h.trail.grown, ⟨h.db.fresh, h.db.two, h.db.nodup, fun hc p hp => ?_, h.db.mem_refs,
    h.db.refs_nodup⟩, h.watch, h.removed, ⟨fun hi hr => ?_, fun hi hr => ?_⟩, h.implied, ?_⟩
  · exact (h.db.lt hc p hp).trans (Nat.lt_succ_self _)
  · rw [Assignment.reason, grown_vardata (h.trail.lt _ (List.mem_of_getElem? hi))] at hr
    exact h.reason.clause hi hr
  · rw [Assignment.reason, grown_vardata (h.trail.lt _ (List.mem_of_getElem? hi))] at hr
    rw [Assignment.level, grown_vardata (h.trail.lt _ (List.mem_of_getElem? hi))]
    exact h.reason.decision hi hr
  · show Ok N s.toAssignment.grown.abs
    rw [abs_grown h.trail]
    exact h.search

/-- A new variable is in the order if it may be decided. -/
theorem newVar_spec [LawfulDouble F] (h : Idle N s) (sign dvar : Bool) :
    Idle N (s.newVar sign dvar).2 ∧ (s.newVar sign dvar).2.nVars = s.nVars + 1 ∧
      (s.newVar sign dvar).2.decision = Function.update s.decision s.nVars dvar := by
  obtain ⟨o, ho⟩ : ∃ o, (s.newVar sign dvar).2 = { s with
      toAssignment := s.toAssignment.grown
      activity := Function.update s.activity s.nVars (Double.ofInt 0)
      seen := Function.update s.seen s.nVars false
      polarity := Function.update s.polarity s.nVars sign
      decision := Function.update s.decision s.nVars dvar
      order_heap := o } := by
    unfold Solver.newVar Solver.setDecisionVar Solver.insertVarOrder
    dsimp only
    split
    · exact ⟨_, rfl⟩
    · exact ⟨_, rfl⟩
  refine ⟨?_, by rw [ho]; rfl, by rw [ho]⟩
  rcases h.state with hr | ⟨hno, hunsat⟩
  · have ht := hr.core.trail
    -- the new activity is that of no variable in the order
    have hsame : ∀ x ∈ s.order_heap.heap,
        Function.update s.activity s.nVars (Double.ofInt 0) x = s.activity x := fun x hx =>
      Function.update_of_ne (hr.order.lt x hx).ne _ _
    obtain ⟨o', ho', hok, hord, hmem⟩ := insertVarOrder_spec (x := s.nVars) (s := { s with
      toAssignment := s.toAssignment.grown
      activity := Function.update s.activity s.nVars (Double.ofInt 0)
      seen := Function.update s.seen s.nVars false
      polarity := Function.update s.polarity s.nVars sign
      decision := Function.update s.decision s.nVars dvar }) hr.order.ok
      (hr.order.ordered.mono _ fun x hx y hy hlt => by
        change Double.lt (Function.update s.activity s.nVars (Double.ofInt 0) y)
          (Function.update s.activity s.nVars (Double.ofInt 0) x) = true at hlt
        rwa [hsame x hx, hsame y hy] at hlt)
    obtain rfl : o = o' := congrArg Solver.order_heap (ho.symm.trans ho')
    rw [ho]
    have hlevel : ∀ {p}, p ∈ s.trail → s.grown.level p.var = s.level p.var := fun hp =>
      congrArg VarData.level (grown_vardata (ht.lt _ hp))
    refine ⟨fun e he p hp => (h.lt e he p hp).trans (Nat.lt_succ_self _), h.level,
      Or.inl ⟨hr.core.grown, fun hc l hl hd => ?_, ?_,
        ⟨hok, fun x hx => ?_, fun x hx hd hu => ?_, hord, hr.order.inc⟩, fun x => ?_, hr.ok⟩⟩
    · obtain ⟨r, hrc, hrt, hlev⟩ := hr.prop hc l hl hd
      have hl' : -l ∈ s.trail := List.mem_of_mem_take hd
      refine ⟨r, hrc, hrt, ?_⟩
      show s.grown.level r.var ≤ s.grown.level l.var
      rw [hlevel hrt, ← Lit.var_neg l, hlevel hl', Lit.var_neg]
      exact hlev
    · exact hr.orig.mono (fun p hp hlev => ⟨hp, (hlevel hp).trans hlev⟩)
        fun {cr c} hc hl => Or.inr ⟨cr, c, hc, hl, List.Subset.refl _⟩
    · rcases (hmem x).mp hx with hx | ⟨rfl, -⟩
      · exact (hr.order.lt x hx).trans (Nat.lt_succ_self _)
      · exact Nat.lt_succ_self _
    · refine (hmem x).mpr ?_
      rcases Nat.lt_succ_iff_lt_or_eq.mp hx with hlt | rfl
      · change Function.update s.decision s.nVars dvar x = true at hd
        change Function.update s.assigns s.nVars l_Undef x = l_Undef at hu
        rw [Function.update_of_ne hlt.ne] at hd hu
        exact Or.inl (hr.order.mem x hlt hd hu)
      · exact Or.inr ⟨rfl, hd⟩
    · show Function.update s.seen s.nVars false x = false
      rw [Function.update_apply]
      split
      · rfl
      · exact hr.seen x
  · rw [ho]
    exact ⟨fun e he p hp => (h.lt e he p hp).trans (Nat.lt_succ_self _), h.level,
      Or.inr ⟨hno, hunsat⟩⟩

/-! ## A new clause -/

theorem addClause_idle (h : Idle N s) (hps : ∀ p ∈ ps, p.var < s.nVars) :
    ∃ b s', s.addClause_ ps = some (b, s') ∧ Idle (insert ps N) s' ∧ s'.nVars = s.nVars ∧
      s'.decision = s.decision ∧ s'.ok = b ∧ (b = false → Unsat (insert ps N)) := by
  have hlt : ∀ e ∈ insert ps N, ∀ p ∈ e, p.var < s.nVars := by
    rintro e (rfl | he)
    · exact hps
    · exact h.lt e he
  rcases h.state with hr | ⟨hno, hunsat⟩
  · obtain ⟨b, s', hrun, hframe, h0, hpost⟩ := addClause_spec hr h.level hps
    refine ⟨b, s', hrun, ⟨hframe.nVars ▸ hlt, h0, ?_⟩, hframe.nVars, hframe.decision, ?_,
      fun hb => ?_⟩
    · cases b with
      | true => exact Or.inl hpost
      | false => exact Or.inr ⟨hpost.2, hpost.1⟩
    · cases b with
      | true => exact SolverOk.ok hpost
      | false => exact hpost.2
    · subst hb
      exact hpost.1
  · have hunsat' := hunsat.superset (Set.subset_insert ps N)
    refine ⟨false, s, ?_, ⟨hlt, h.level, Or.inr ⟨hno, hunsat'⟩⟩, rfl, rfl, hno, fun _ => hunsat'⟩
    rw [Solver.addClause_, if_neg (not_not.mpr h.level), if_pos hno]

/-! ## Simplification -/

theorem simplify_idle [LawfulDouble F] (h : Idle N s) :
    ∃ b s', s.simplify = some (b, s') ∧ Idle N s' ∧ s'.nVars = s.nVars ∧ s'.decision = s.decision ∧
      s'.ok = b ∧ (b = false → Unsat N) := by
  rcases h.state with hr | ⟨hno, hunsat⟩
  · obtain ⟨b, s', hrun, hframe, hgrows, -, hpost⟩ := simplify_spec hr h.level
    have h0 : s'.decisionLevel = 0 := (congrArg List.length hgrows.trail_lim).trans h.level
    refine ⟨b, s', hrun, ⟨hframe.nVars ▸ h.lt, h0, ?_⟩, hframe.nVars, hframe.decision, ?_⟩
    · cases b with
      | true => exact Or.inl (SolverOk.ready hpost.1)
      | false => exact Or.inr ⟨hpost.2, hpost.1⟩
    · cases b with
      | true => exact ⟨hpost.1.ok, fun hb => absurd hb (by decide)⟩
      | false => exact ⟨hpost.2, fun _ => hpost.1⟩
  · refine ⟨false, s, ?_, h, rfl, rfl, hno, fun _ => hunsat⟩
    rw [Solver.simplify, if_neg (not_not.mpr h.level), if_pos hno]

/-! ## What the answers say -/

/-- The valuation gives the variables the values of the model. -/
def Agrees (m : ℕ → Bool) (model : List LBool) : Prop :=
  ∀ x b, model[x]? = some (ofBool b) → m x = b

/-- What `solve_` says about the clauses and the assumptions. -/
def Solved (N : Set (List Lit)) (s : Solver F) : LBool → Prop
  | l_True => s.model.length = s.nVars ∧ ∀ m, Agrees m s.model →
      (∀ p ∈ s.assumptions, (valuation m).holds p) ∧
        ∀ e ∈ N, (∀ p ∈ e, s.decision p.var = true) → (valuation m).Sat e
  | l_False => Entails N s.conflict ∧ ∀ q ∈ s.conflict, -q ∈ s.assumptions
  | l_Undef => False

omit [Double F] in
/-- Without a model of the clauses in which the assumptions hold. -/
theorem Solved.unsat (h : Solved N s l_False) {v : Valuation Lit} (hv : v.Models N) :
    ∃ p ∈ s.assumptions, ¬ v.holds p := by
  obtain ⟨q, hq, hvq⟩ := h.1 v hv
  exact ⟨-q, h.2 q hq, fun hneg => (v.neg q).mp hneg hvq⟩

omit [Double F] in
theorem Agrees.holds {m : ℕ → Bool} (hm : Agrees m ((List.range s.nVars).map s.valueVar))
    (ht : TrailOk s.toAssignment) (hp : p ∈ s.trail) : (valuation m).holds p := by
  have hv : s.valueVar p.var = ofBool (!p.sign) := by
    have := (ht.value p).mpr hp
    unfold Assignment.value at this
    unfold Assignment.valueVar
    revert this
    cases s.assigns p.var <;> cases p.sign <;> simp [LBool.xor, ofBool]
  refine hm p.var (!p.sign) ?_
  rw [← hv, List.getElem?_map, List.getElem?_range (ht.lt p hp)]
  rfl

/-- When all variables that may be decided have values and all literals have been propagated, the
clauses over these variables are true. -/
theorem SolverOk.sat (h : SolverOk N s.trail s)
    (hall : ∀ x < s.nVars, s.decision x = true → s.valueVar x ≠ l_Undef) {v : Valuation Lit}
    (hv : ∀ p ∈ s.trail, v.holds p) {e : List Lit} (he : e ∈ N)
    (hdec : ∀ p ∈ e, s.decision p.var = true) (hlt : ∀ p ∈ e, p.var < s.nVars) : v.Sat e := by
  rcases h.orig e he with ⟨p, hp, hpt, -⟩ | ⟨p, hp, hneg⟩ | ⟨cr, c, hc, -, hsub⟩
  · exact ⟨p, hp, hv p hpt⟩
  · by_cases hvp : v.holds p
    · exact ⟨p, hp, hvp⟩
    · exact ⟨-p, hneg, (v.neg p).mpr hvp⟩
  · rcases h.two_open hc with ⟨p, hp, hpt⟩ | ⟨p, hp, -, -, -, hu, -⟩
    · exact ⟨p, hsub hp, hv p ((h.core.trail.value p).mp hpt)⟩
    · refine absurd ((h.core.trail.valueVar_undef _).mpr fun q hq => ?_)
        (hall p.var (hlt p (hsub hp)) (hdec p (hsub hp)))
      exact ReasonOk.ne_var h.core.trail hu hq

/-! ## Solving -/

/-- The loop ends with an answer, or all its restarts were too short. -/
theorem solveLoop_spec [LawfulDouble F] {fuel curr_restarts : ℕ} (h : Round N s) :
    (∃ b s', Solver.solveLoop fuel curr_restarts s = some (b, s') ∧ Same s s' ∧
      ReflTransGen (Move N) s.abs s'.abs ∧ Result N s' b ∧ b ≠ l_Undef) ∨
    Solver.solveLoop fuel curr_restarts s = none ∧ ∀ j < fuel,
      0 ≤ restartLimit F (curr_restarts + j) ∧ restartLimit F (curr_restarts + j) ≤ s.rounds := by
  induction fuel generalizing s curr_restarts with
  | zero => exact Or.inr ⟨rfl, fun j hj => absurd hj (Nat.not_lt_zero j)⟩
  | succ fuel ih =>
      obtain ⟨b, s₁, hrun, hsame, hmoves, hres, hundef⟩ :=
        @search_spec F _ N s (restartLimit F curr_restarts) _ h
      simp only [Solver.solveLoop, hrun, Option.bind_eq_bind, Option.bind_some]
      by_cases hb : b = l_Undef
      · subst hb
        rw [if_pos rfl]
        rcases @ih s₁ (curr_restarts + 1) (h.restarted hsame hres) with
          ⟨b, s₂, hrun₂, hsame₂, hmoves₂, hres₂⟩ | ⟨hnone, hlim⟩
        · exact Or.inl ⟨b, s₂, hrun₂, hsame.trans hsame₂, hmoves.trans hmoves₂, hres₂⟩
        · refine Or.inr ⟨hnone, fun j hj => ?_⟩
          cases j with
          | zero => exact hundef rfl
          | succ j =>
              rw [← hsame.rounds, show curr_restarts + (j + 1) = curr_restarts + 1 + j by omega]
              exact hlim j (Nat.lt_of_succ_lt_succ hj)
      · rw [if_neg hb]
        exact Or.inl ⟨b, s₁, rfl, hsame, hmoves, hres, hb⟩

/-- A solver with a result, taken back to level 0. -/
theorem idle_cancelUntil [LawfulDouble F] (h : SolverOk N s.trail s)
    (hlt : ∀ e ∈ N, ∀ p ∈ e, p.var < s.nVars) :
    Idle N (s.cancelUntil 0) ∧ Same s (s.cancelUntil 0) ∧ Move N s.abs (s.cancelUntil 0).abs ∧
      (s.cancelUntil 0).model = s.model ∧ (s.cancelUntil 0).conflict = s.conflict := by
  obtain ⟨o, f, heq, hready, h0, hmove⟩ := restart_spec h
  have hn : (s.cancelUntil 0).nVars = s.nVars := by
    rw [heq]
    exact TrailOk.nVars_cancelUntil
  exact ⟨⟨hn ▸ hlt, h0, Or.inl hready⟩, ⟨hn, by rw [heq], by rw [heq]⟩,
    hmove, by rw [heq], by rw [heq]⟩

/-- What is done with the result of the search. -/
theorem endSolve_spec [LawfulDouble F] {b : LBool} (h : Result N s b) (hb : b ≠ l_Undef)
    (hlt : ∀ e ∈ N, ∀ p ∈ e, p.var < s.nVars) :
    Idle N (s.endSolve b) ∧ Same s (s.endSolve b) ∧ ReflTransGen (Move N) s.abs (s.endSolve b).abs ∧
      Solved N (s.endSolve b) b := by
  unfold Solver.endSolve
  cases b with
  | l_Undef => exact absurd rfl hb
  | l_True =>
      obtain ⟨hok, -, hassume, hall⟩ := h
      rw [if_pos rfl]
      have hok' : SolverOk N s.trail { s with model := (List.range s.nVars).map s.valueVar } :=
        hok.congr rfl rfl rfl rfl rfl rfl rfl
      obtain ⟨hidle, hsame, hmove, hmodel, -⟩ :=
        idle_cancelUntil (s := { s with model := (List.range s.nVars).map s.valueVar }) hok' hlt
      refine ⟨hidle, ⟨hsame.nVars, hsame.decision, hsame.assumptions⟩, .single hmove, ?_,
        fun m hm => ?_⟩
      · rw [hmodel, hsame.nVars]
        simp
      · rw [hmodel] at hm
        have hholds : ∀ p ∈ s.trail, (valuation m).holds p := fun p hp => hm.holds hok.core.trail hp
        refine ⟨fun p hp => hholds p (hassume p (hsame.assumptions ▸ hp)), fun e he hdec => ?_⟩
        exact hok.sat hall hholds he (fun p hp => hsame.decision ▸ hdec p hp) (hlt e he)
  | l_False =>
      rw [if_neg (by simp)]
      rcases h with ⟨hconf, h0, hunsat⟩ | ⟨hok, hne, hent, hneg⟩
      · rw [if_pos ⟨rfl, hconf⟩]
        have heq : Solver.cancelUntil { s with ok := false } 0 = { s with ok := false } := by
          rw [Solver.cancelUntil, if_neg (by rw [h0]; exact Nat.lt_irrefl 0)]
        rw [heq]
        refine ⟨⟨hlt, h0, Or.inr ⟨rfl, hunsat⟩⟩, ⟨rfl, rfl, rfl⟩, .refl, fun v hv =>
          absurd hv (hunsat v), ?_⟩
        rw [hconf]
        exact fun q hq => absurd hq List.not_mem_nil
      · rw [if_neg (fun h => hne h.2)]
        obtain ⟨hidle, hsame, hmove, -, hconf⟩ := idle_cancelUntil hok hlt
        refine ⟨hidle, hsame, .single hmove, ?_, ?_⟩
        · rw [hconf]
          exact hent
        · rw [hconf, hsame.assumptions]
          exact hneg

/-- Before the first round of a search. -/
theorem Ready.round_start {assumps : List Lit} (h : Ready N s) (h0 : s.decisionLevel = 0)
    (hA : ∀ p ∈ assumps, p.var < s.nVars) :
    Round N (Solver.startSolve { s with assumptions := assumps, model := [], conflict := [] }) :=
  ⟨SolverOk.congr h rfl rfl rfl rfl rfl rfl rfl, rfl, .zero h.core.trail h0, hA⟩

/-- The answer is right, and the solver ready for more; or all restarts were too short. -/
theorem solveLimited_spec [LawfulDouble F] (fuel : ℕ) (assumps : List Lit) (h : Idle N s)
    (hA : ∀ p ∈ assumps, p.var < s.nVars) :
    (∃ b s', s.solveLimited fuel assumps = some (b, s') ∧ s'.nVars = s.nVars ∧
      s'.decision = s.decision ∧
      s'.assumptions = assumps ∧ Idle N s' ∧ ReflTransGen (Move N) s.abs s'.abs ∧ Solved N s' b) ∨
    s.solveLimited fuel assumps = none ∧ ∀ j < fuel, 0 ≤ restartLimit F j ∧
      restartLimit F j ≤ runBound s.nVars (assumps.length + s.nVars) := by
  unfold Solver.solveLimited Solver.solve_
  rcases h.state with hr | ⟨hno, hunsat⟩
  · set t : Solver F :=
      Solver.startSolve { s with assumptions := assumps, model := [], conflict := [] } with ht
    have hround : Round N t := hr.round_start h.level hA
    dsimp only
    rw [if_neg (by rw [hr.ok]; decide)]
    rcases @solveLoop_spec F _ N t _ fuel 0 hround with
      ⟨b, s', hrun, hsame, hmoves, hres, hb⟩ | ⟨hnone, hlim⟩
    · obtain ⟨hidle, hsame', hmoves', hsolved⟩ := endSolve_spec hres hb (hsame.nVars ▸ h.lt)
      have hall := hsame.trans hsame'
      refine Or.inl ⟨b, s'.endSolve b, ?_, hall.nVars, hall.decision, hall.assumptions, hidle,
        hmoves.trans hmoves', hsolved⟩
      simp only [← ht, hrun, Option.bind_eq_bind, Option.bind_some]
      rfl
    · refine Or.inr ⟨?_, fun j hj => ?_⟩
      · simp only [← ht, hnone, Option.bind_eq_bind, Option.bind_none]
      · have := hlim j hj
        rwa [Nat.zero_add] at this
  · dsimp only
    rw [if_pos hno]
    exact Or.inl ⟨l_False, _, rfl, rfl, rfl, rfl, ⟨h.lt, h.level, Or.inr ⟨hno, hunsat⟩⟩, .refl,
      fun v hv => absurd hv (hunsat v), fun q hq => absurd hq List.not_mem_nil⟩

end

end ExtFolding.Minisat
