import ExtFolding.Minisat.Analyze
import ExtFolding.Minisat.Clauses

/-!
# `memin/minisat/core/Solver.cpp`: the problem and its simplification

`addClause_` sorts the literals of a clause and drops those that are false or occur twice;
`simplify` removes the clauses that are true at level 0; `reduceDB` removes learnt clauses. All keep
the invariant of the solver, and what they report is right: `false` is returned only for a problem
without a model. The calls of `checkGarbage` that end `simplify` and `reduceDB` are left out; they
move clauses to other addresses.
-/

namespace ExtFolding.Minisat

open Cdcl LBool

/-! ## The code -/

/-- The loop of `addClause_` with `p` the last literal that was kept; `none` for `return true`. -/
def Assignment.stripClause (s : Assignment) : Option Lit → List Lit → Option (List Lit)
  | _, [] => some []
  | p, q :: ps =>
      if s.value q = l_True ∨ p = some (-q) then none
      else if s.value q ≠ l_False ∧ p ≠ some q then
        (s.stripClause (some q) ps).map fun c => q :: c
      else s.stripClause p ps

namespace Solver

variable {F : Type} [Double F] (s : Solver F)

def addClause_ (ps : List Lit) : Option (Bool × Solver F) :=
  if s.decisionLevel ≠ 0 then none
  else if s.ok = false then some (false, s)
  else do
    let ps ← sort (fun p q => decide (p.x < q.x)) ps
    match s.stripClause none ps with
    | none => some (true, s)
    | some [] => some (false, { s with ok := false })
    | some [p] => do
        let r ← (s.uncheckedEnqueue p none).propagate
        let ok := decide (r.1 = none)
        return (ok, { r.2 with ok := ok })
    | some (p :: q :: ps) => do
        let r ← s.store (p :: q :: ps) false
        return (true, { s with toDatabase := r.2 })

/-- `ca[cr].size()`; a clause that is not there is not asked for. -/
def size (cr : ℕ) : ℕ := ((s.ca cr).map fun c => c.lits.length).getD 2

def reduceDB_lt (x y : ℕ) : Bool :=
  decide (2 < s.size x) && (decide (s.size y = 2) || Double.lt (s.claActivity x) (s.claActivity y))

def reduceDB : Option (Solver F) := do
  let extra_lim := s.cla_inc / Double.ofInt s.learnts.length
  let learnts ← sort s.reduceDB_lt s.learnts
  let r ← Core.removeWhere (fun i core cr c => decide (2 < c.lits.length) && !core.locked cr c &&
    (decide (i < s.learnts.length / 2) || Double.lt (s.claActivity cr) extra_lim)) 0
      learnts s.toCore
  return { s with toCore := { r.2 with learnts := r.1 } }

def rebuildOrderHeap : Solver F :=
  let vs := (List.range s.nVars).filter fun v => s.decision v && s.valueVar v = l_Undef
  { s with order_heap := s.order_heap.build s.varOrderLt vs }

def simplify : Option (Bool × Solver F) :=
  if s.decisionLevel ≠ 0 then none
  else if s.ok = false then some (false, s)
  else do
    let r ← s.propagate
    if r.1 ≠ none then return (false, { r.2 with ok := false })
    else
      let s := r.2
      if (s.nAssigns : ℤ) = s.simpDB_assigns ∨ 0 < s.simpDB_props then return (true, s)
      else
        let l ← s.toCore.removeSatisfied s.learnts
        let core : Core := { l.2 with learnts := l.1 }
        let c ← core.removeSatisfied core.clauses
        let s := rebuildOrderHeap { s with toCore := { c.2 with clauses := c.1 } }
        return (true, { s with
          simpDB_assigns := s.nAssigns
          simpDB_props := (s.clauses_literals : ℤ) + s.learnts_literals })

end Solver

/-! ## The invariant -/

/-- The clauses in `N` were added, the literals in `done` have been propagated. -/
structure SolverOk {F : Type} [Double F] (N : Set (List Lit)) (done : List Lit)
    (s : Solver F) : Prop where
  core : CoreOk N s.toCore
  prop : PropInv s.toAssignment s.ca done
  orig : OrigOk N s.toCore
  order : OrderOk s
  seen : ∀ x, s.seen x = false
  ok : s.ok = true

/-- All literals before the queue have been propagated. -/
def Ready {F : Type} [Double F] (N : Set (List Lit)) (s : Solver F) : Prop :=
  SolverOk N (s.trail.take s.qhead) s

section

variable {N M : Set (List Lit)} {s s' : Core}

/-- Literals of level 0 and clauses of the problem may only be replaced by something stronger. -/
theorem OrigOk.mono (h : OrigOk N s)
    (hroot : ∀ p ∈ s.trail, s.level p.var = 0 → p ∈ s'.trail ∧ s'.level p.var = 0)
    (hlive : ∀ {cr c}, Live s.ca cr c → c.learnt = false →
      (∃ p ∈ c.lits, p ∈ s'.trail ∧ s'.level p.var = 0) ∨
        ∃ cr' c', Live s'.ca cr' c' ∧ c'.learnt = false ∧ c'.lits ⊆ c.lits) :
    OrigOk N s' := by
  intro e he
  rcases h e he with ⟨p, hp, hpt, hlev⟩ | htaut | ⟨cr, c, hc, hl, hsub⟩
  · exact Or.inl ⟨p, hp, hroot p hpt hlev⟩
  · exact Or.inr (Or.inl htaut)
  · rcases hlive hc hl with ⟨p, hp, hpt⟩ | ⟨cr', c', hc', hl', hsub'⟩
    · exact Or.inl ⟨p, hsub hp, hpt⟩
    · exact Or.inr (Or.inr ⟨cr', c', hc', hl', List.Subset.trans hsub' hsub⟩)

theorem OrigOk.propagated (h : OrigOk N s) (hp : Propagated M s s') : OrigOk N s' := by
  refine h.mono (fun p hpt hlev => ⟨hp.trail.subset hpt, (hp.level hpt).trans hlev⟩) ?_
  intro cr c hc hl
  obtain ⟨c', hc', hperm, hl'⟩ := hp.ca.live hc
  exact Or.inr ⟨cr, c', hc', hl'.trans hl, hperm.subset⟩

theorem OrigOk.trimmed {P : Clause → Prop} (h : OrigOk N s) (ht : Trimmed P s s')
    (hP : ∀ c, P c → c.learnt = false → ∃ p ∈ c.lits, p ∈ s.trail ∧ s.level p.var = 0) :
    OrigOk N s' := by
  have hkeep : ∀ p ∈ s.trail, s.level p.var = 0 → p ∈ s'.trail ∧ s'.level p.var = 0 := by
    intro p hpt hlev
    rw [ht.trail, ht.level]
    exact ⟨hpt, hlev⟩
  refine h.mono hkeep fun {cr c} hc hl => ?_
  rcases ht.gone hc with hc' | hPc
  · exact Or.inr ⟨cr, c, hc', hl, List.Subset.refl _⟩
  · obtain ⟨p, hp, hpt, hlev⟩ := hP c hPc hl
    exact Or.inl ⟨p, hp, hkeep p hpt hlev⟩

/-- A new clause takes nothing away. -/
theorem OrigOk.store {d : Database} {c : Clause} (h : OrigOk N s) (hs : CoreOk M s)
    (hm : c.mark = false)
    (hca : d.ca = Function.update s.ca s.nextRef (some c)) :
      OrigOk N { s with toDatabase := d } := by
  refine h.mono (fun r hr hl => ⟨hr, hl⟩) fun {cr c'} hc hl => ?_
  refine Or.inr ⟨cr, c', ?_, hl, List.Subset.refl _⟩
  show Live d.ca cr c'
  rw [hca]
  refine (live_update hm).mpr (Or.inr ⟨?_, hc⟩)
  rintro rfl
  have hfresh : s.ca s.nextRef = none := hs.db.fresh _ le_rfl
  exact absurd hc.1 (by rw [hfresh]; exact (Option.some_ne_none c').symm)

theorem OrigOk.insert (h : OrigOk N s) {e : List Lit}
    (he : (∃ p ∈ e, p ∈ s.trail ∧ s.level p.var = 0) ∨ (∃ p ∈ e, -p ∈ e) ∨
      ∃ cr c, Live s.ca cr c ∧ c.learnt = false ∧ c.lits ⊆ e) : OrigOk (insert e N) s := by
  rintro e' (rfl | he')
  · exact he
  · exact h e' he'

end

section

variable {F : Type} [Double F] {N : Set (List Lit)} {s s' s'' : Solver F} {done : List Lit}

theorem SolverOk.mono {done' : List Lit} (h : SolverOk N done s) (hsub : done' ⊆ done) :
    SolverOk N done' s := ⟨h.core, PropInv.mono h.prop hsub, h.orig, h.order, h.seen, h.ok⟩

theorem SolverOk.ready (h : SolverOk N s.trail s) : Ready N s := h.mono (List.take_subset _ _)

/-- When all literals have been propagated, no clause is false or has one literal left. -/
theorem SolverOk.two_open (h : SolverOk N s.trail s) {cr : ℕ} {c : Clause} (hc : Live s.ca cr c) :
    (∃ p ∈ c.lits, s.value p = l_True) ∨
      ∃ p ∈ c.lits, ∃ q ∈ c.lits, p ≠ q ∧ s.value p = l_Undef ∧ s.value q = l_Undef := by
  have ht := h.core.trail
  refine or_iff_not_imp_left.mpr fun hno => ?_
  have hout : ∀ p ∈ c.lits, p ∉ s.trail := fun p hp hpt => hno ⟨p, hp, (ht.value p).mpr hpt⟩
  obtain ⟨a, b, tail, hlits⟩ := exists_lits (h.core.db.two hc.1)
  have ha : a ∈ c.lits := by simp [hlits]
  have hb : b ∈ c.lits := by simp [hlits]
  have hne : a ≠ b := by
    rintro rfl
    have hnodup := h.core.db.nodup hc
    simp [hlits] at hnodup
  rcases PropInv.not_unit h.prop hc hlits with ⟨r, hr, hrt⟩ | ⟨hna, hnb⟩
  · exact absurd hrt (hout r hr)
  · exact ⟨a, ha, b, hb, hne, (ht.value_undef a).mpr ⟨hout a ha, hna⟩,
      (ht.value_undef b).mpr ⟨hout b hb, hnb⟩⟩

/-- What else the solver holds does not matter. -/
theorem SolverOk.congr (h : SolverOk N done s) (hcore : s'.toCore = s.toCore)
    (hheap : s'.order_heap = s.order_heap) (hdec : s'.decision = s.decision)
    (hact : s'.activity = s.activity) (hinc : s'.var_inc = s.var_inc) (hseen : s'.seen = s.seen)
    (hok : s'.ok = s.ok) : SolverOk N done s' := by
  have horder : OrderOk s' := h.order.congr hheap (by rw [hcore]) (by rw [hcore]) hdec hact hinc
  refine ⟨?_, ?_, ?_, horder, fun x => hseen ▸ h.seen x, hok.trans h.ok⟩
  · rw [hcore]
    exact h.core
  · rw [hcore]
    exact h.prop
  · rw [hcore]
    exact h.orig

/-- What an operation leaves alone. -/
structure Frame (s s' : Solver F) : Prop where
  nVars : s'.nVars = s.nVars
  decision : s'.decision = s.decision
  assumptions : s'.assumptions = s.assumptions
  conflict : s'.conflict = s.conflict

omit [Double F] in
theorem Frame.refl (s : Solver F) : Frame s s := ⟨rfl, rfl, rfl, rfl⟩

omit [Double F] in
theorem Frame.trans (h : Frame s s') (h' : Frame s' s'') : Frame s s'' :=
  ⟨h'.nVars.trans h.nVars, h'.decision.trans h.decision, h'.assumptions.trans h.assumptions,
    h'.conflict.trans h.conflict⟩

/-- What is in the order is not disturbed when more literals are assigned. -/
theorem OrderOk.grow (h : OrderOk s) (ht : TrailOk s.toAssignment) (ht' : TrailOk s'.toAssignment)
    (hsub : s.trail ⊆ s'.trail) (ho : s'.order_heap = s.order_heap) (hn : s'.nVars = s.nVars)
    (hd : s'.decision = s.decision) (ha : s'.activity = s.activity) (hi : s'.var_inc = s.var_inc) :
    OrderOk s' := by
  have hlt : s'.varOrderLt = s.varOrderLt := by
    unfold Solver.varOrderLt
    rw [ha]
  refine ⟨ho ▸ h.ok, fun x hx => ?_, fun x hx hdx hu => ?_, by rw [ho, hlt]; exact h.ordered,
    hi ▸ h.inc⟩
  · rw [hn]
    exact h.lt x (ho ▸ hx)
  · rw [ho]
    refine h.mem x (hn ▸ hx) (hd ▸ hdx) ((ht.valueVar_undef x).mpr fun p hp => ?_)
    exact (ht'.valueVar_undef x).mp hu p (hsub hp)

theorem solver_propagate_spec (h : Ready N s) :
    ∃ confl s', s.propagate = some (confl, s') ∧ Propagated N s.toCore s'.toCore ∧ Frame s s' ∧
      s'.qhead = s'.trail.length ∧
      match confl with
      | none => SolverOk N s'.trail s'
      | some cr => SolverOk N (s.trail.take s.qhead) s' ∧ Conflict s'.toCore cr := by
  obtain ⟨confl, n, core, hrun, hprop, hcore, hq, hpost⟩ := propagate_spec h.core h.prop
  have horder : OrderOk { s with toCore := core, simpDB_props := s.simpDB_props - n } :=
    h.order.grow h.core.trail hcore.trail hprop.trail.subset rfl hprop.nVars rfl rfl rfl
  refine ⟨confl, { s with toCore := core, simpDB_props := s.simpDB_props - n },
    by rw [Solver.propagate, hrun]; rfl, hprop, ⟨hprop.nVars, rfl, rfl, rfl⟩, hq, ?_⟩
  cases confl with
  | none => exact ⟨hcore, hpost, h.orig.propagated hprop, horder, h.seen, h.ok⟩
  | some cr =>
      exact ⟨⟨hcore, hpost.1, h.orig.propagated hprop, horder, h.seen, h.ok⟩, hpost.2⟩

/-- A clause that is false at level 0 refutes the problem. -/
theorem Conflict.unsat {s : Core} {cr : ℕ} (h : Conflict s cr) (hs : CoreOk N s)
    (h0 : s.decisionLevel = 0) : Unsat N := by
  obtain ⟨c, hc, hfalse, -⟩ := h
  have hok := hs.search
  rw [show s.abs = ⟨s.abs.trail, 0⟩ by rw [← h0]; rfl] at hok
  exact hok.unsat (hs.implied cr c hc) fun q hq => TrailOk.isTrue_abs.mpr (hfalse q hq)

end

/-! ## Adding a clause -/

section

variable {s : Assignment} {p q : Lit} {ps c : List Lit} {prev : Option Lit}

theorem stripClause_none (h : s.stripClause prev ps = none) :
    (∃ q ∈ ps, s.value q = l_True) ∨ ∃ q ∈ ps, prev = some (-q) ∨ -q ∈ ps := by
  induction ps generalizing prev with
  | nil => cases h
  | cons q ps ih =>
      rw [Assignment.stripClause] at h
      have hlift : ∀ r, (∃ q ∈ ps, s.value q = l_True) ∨ (∃ q ∈ ps, r = some (-q) ∨ -q ∈ ps) →
          (r = some q ∨ r = prev) → (∃ q' ∈ q :: ps, s.value q' = l_True) ∨
            ∃ q' ∈ q :: ps, prev = some (-q') ∨ -q' ∈ q :: ps := by
        rintro r (⟨q', hq', hv⟩ | ⟨q', hq', heq | hmem⟩) hr
        · exact Or.inl ⟨q', List.mem_cons_of_mem _ hq', hv⟩
        · rcases hr with hr | hr
          · rw [hr] at heq
            exact Or.inr ⟨q', List.mem_cons_of_mem _ hq',
              Or.inr (Option.some.inj heq ▸ List.mem_cons_self)⟩
          · exact Or.inr ⟨q', List.mem_cons_of_mem _ hq', Or.inl (hr ▸ heq)⟩
        · exact Or.inr ⟨q', List.mem_cons_of_mem _ hq', Or.inr (List.mem_cons_of_mem _ hmem)⟩
      split at h
      · next hq =>
          rcases hq with hq | hq
          · exact Or.inl ⟨q, List.mem_cons_self, hq⟩
          · exact Or.inr ⟨q, List.mem_cons_self, Or.inl hq⟩
      · split at h
        · exact hlift _ (ih (Option.map_eq_none_iff.mp h)) (Or.inl rfl)
        · exact hlift _ (ih h) (Or.inr rfl)

/-- What is kept: each literal once, none of them assigned; the others are false or occur before. -/
theorem stripClause_some (h : s.stripClause prev ps = some c)
    (hsorted : ps.Pairwise fun p q => p.x ≤ q.x)
      (hprev : ∀ p, prev = some p → ∀ q ∈ ps, p.x ≤ q.x) :
    c ⊆ ps ∧ c.Pairwise (fun p q => p.x < q.x) ∧ (∀ p, prev = some p → ∀ q ∈ c, p.x < q.x) ∧
      (∀ q ∈ c, s.value q = l_Undef) ∧
      ∀ q ∈ ps, q ∈ c ∨ s.value q = l_False ∨ prev = some q := by
  induction ps generalizing prev c with
  | nil =>
      cases h
      simp
  | cons q ps ih =>
      obtain ⟨hq, hsorted⟩ := List.pairwise_cons.mp hsorted
      rw [Assignment.stripClause] at h
      split at h
      · cases h
      · next hno =>
          split at h
          · next hkeep =>
              obtain ⟨c', hc', rfl⟩ := Option.map_eq_some_iff.mp h
              obtain ⟨hsub, hlt, hgt, hundef, hall⟩ := ih hc' hsorted fun p hp => by
                cases hp
                exact hq
              have hgt' : ∀ r ∈ c', q.x < r.x := hgt q rfl
              refine ⟨List.cons_subset_cons q hsub, List.pairwise_cons.mpr ⟨hgt', hlt⟩,
                fun p hp r hr => ?_,
                fun r hr => ?_, fun r hr => ?_⟩
              · have hpq : p.x < q.x := by
                  refine Nat.lt_of_le_of_ne (hprev p hp q List.mem_cons_self) fun heq => hkeep.2 ?_
                  rw [hp, show p = q by cases p; cases q; simpa using heq]
                rcases List.mem_cons.mp hr with rfl | hr
                · exact hpq
                · exact hpq.trans (hgt' r hr)
              · rcases List.mem_cons.mp hr with rfl | hr
                · cases hv : s.value r
                  · exact absurd (Or.inl hv) hno
                  · exact absurd hv hkeep.1
                  · rfl
                · exact hundef r hr
              · rcases List.mem_cons.mp hr with rfl | hr
                · exact Or.inl List.mem_cons_self
                · rcases hall r hr with hr | hr | hr
                  · exact Or.inl (List.mem_cons_of_mem _ hr)
                  · exact Or.inr (Or.inl hr)
                  · cases hr
                    exact Or.inl List.mem_cons_self
          · next hskip =>
              obtain ⟨hsub, hlt, hgt, hundef, hall⟩ := ih h hsorted fun p hp r hr =>
                hprev p hp r (List.mem_cons_of_mem _ hr)
              refine ⟨List.subset_cons_of_subset q hsub, hlt, hgt, hundef, fun r hr => ?_⟩
              rcases List.mem_cons.mp hr with rfl | hr
              · by_cases hv : s.value r = l_False
                · exact Or.inr (Or.inl hv)
                · exact Or.inr (Or.inr (not_not.mp fun hp => hskip ⟨hv, hp⟩))
              · exact hall r hr

end

instance : Std.Asymm (Less fun p q : Lit => decide (p.x < q.x)) :=
  ⟨fun p q h h' => by
    have h₁ : p.x < q.x := of_decide_eq_true h
    have h₂ : q.x < p.x := of_decide_eq_true h'
    omega⟩

instance : IsOrderConnected Lit (Less fun p q : Lit => decide (p.x < q.x)) :=
  ⟨fun p q r h => by
    have h₁ : p.x < r.x := of_decide_eq_true h
    by_cases h₂ : p.x < q.x
    · exact Or.inl (decide_eq_true h₂)
    · exact Or.inr (decide_eq_true (by omega))⟩

section

variable {F : Type} [Double F] {N : Set (List Lit)} {s s' : Solver F} {p : Lit} {ps : List Lit}
  {source : Option ℕ}

/-- A literal is put on the trail. -/
theorem CoreOk.enqueue {s : Core} (hs : CoreOk N s) (hu : s.value p = l_Undef)
    (hp : p.var < s.nVars)
    (hreason : ReasonOk (s.uncheckedEnqueue p source) s.ca)
    (hsearch : Ok N (s.uncheckedEnqueue p source).abs) :
    CoreOk N { s with toAssignment := s.uncheckedEnqueue p source } :=
  ⟨hs.trail.enqueue hu hp, hs.db, hs.watch, hs.removed, hreason, hs.implied, hsearch⟩

theorem OrigOk.enqueue {s : Core} (h : OrigOk N s) (ht : TrailOk s.toAssignment)
    (hu : s.value p = l_Undef) :
    OrigOk N { s with toAssignment := s.uncheckedEnqueue p source } :=
  h.mono (fun _ hq hlev => ⟨List.mem_append_left _ hq, (ht.level_enqueue hu hq).trans hlev⟩)
    fun {cr c} hc hl => Or.inr ⟨cr, c, hc, hl, List.Subset.refl _⟩

theorem SolverOk.enqueue {done : List Lit} (h : SolverOk N done s) (hu : s.value p = l_Undef)
    (hp : p.var < s.nVars) (hreason : ReasonOk (s.toAssignment.uncheckedEnqueue p source) s.ca)
    (hsearch : Ok N (s.toAssignment.uncheckedEnqueue p source).abs) (hdone : done ⊆ s.trail) :
    SolverOk N done (s.uncheckedEnqueue p source) :=
  ⟨h.core.enqueue hu hp hreason hsearch, PropInv.enqueue h.prop h.core.trail hu hdone,
    h.orig.enqueue h.core.trail hu, h.order.grow h.core.trail (h.core.trail.enqueue hu hp)
      (List.subset_append_left _ _) rfl rfl rfl rfl rfl, h.seen, h.ok⟩

theorem level_zero {s : Assignment} (ht : TrailOk s) (h0 : s.decisionLevel = 0) {q : Lit}
    (hq : q ∈ s.trail) : s.level q.var = 0 := Nat.le_zero.mp (h0 ▸ ht.level_le hq)

theorem SolverOk.insert {done : List Lit} (h : SolverOk N done s)
    (he : (∃ p ∈ ps, p ∈ s.trail ∧ s.level p.var = 0) ∨ (∃ p ∈ ps, -p ∈ ps) ∨
      ∃ cr c, Live s.ca cr c ∧ c.learnt = false ∧ c.lits ⊆ ps) :
    SolverOk (insert ps N) done s :=
  ⟨h.core.superset (Set.subset_insert _ _), h.prop, h.orig.insert he, h.order, h.seen, h.ok⟩

/-- At level 0, what is stripped follows from the clause and what was there before. -/
theorem CoreOk.entails_strip {s : Core} (hs : CoreOk N s) (h0 : s.decisionLevel = 0)
    {ps' c : List Lit}
    (hperm : ps'.Perm ps) (hall : ∀ q ∈ ps', q ∈ c ∨ s.value q = l_False) :
      Entails (insert ps N) c := by
  refine (Entails.of_mem (Set.mem_insert ps N)).strip fun q hq => ?_
  refine (hall q (hperm.symm.subset hq)).imp_right fun hv => ?_
  have hneg := (hs.trail.value_false q).mp hv
  exact (hs.search.root (-q, 0) (TrailOk.mem_abs.mpr ⟨hneg, level_zero hs.trail h0 hneg⟩)
    rfl).superset
    (Set.subset_insert _ _)

theorem addClause_spec (h : Ready N s) (h0 : s.decisionLevel = 0)
    (hlt : ∀ p ∈ ps, p.var < s.nVars) :
    ∃ b s', s.addClause_ ps = some (b, s') ∧ Frame s s' ∧ s'.decisionLevel = 0 ∧
      if b then Ready (insert ps N) s' else Unsat (insert ps N) ∧ s'.ok = false := by
  have hdone : s.trail.take s.qhead ⊆ s.trail := List.take_subset _ _
  obtain ⟨ps', hsort, hperm, hsorted⟩ := sort_sorted (fun p q : Lit => decide (p.x < q.x)) ps
  have hle : ps'.Pairwise fun p q => p.x ≤ q.x :=
    hsorted.imp fun h => Nat.le_of_not_lt fun hlt => h (decide_eq_true hlt)
  unfold Solver.addClause_
  rw [if_neg (not_not.mpr h0), if_neg (by rw [h.ok]; decide)]
  simp only [hsort, Option.bind_eq_bind, Option.bind_some]
  cases hstrip : s.stripClause none ps' with
  | none =>
      refine ⟨true, s, rfl, .refl s, h0, ?_⟩
      rw [if_pos rfl]
      refine SolverOk.insert h ?_
      rcases stripClause_none hstrip with ⟨q, hq, hv⟩ | ⟨q, hq, heq | hneg⟩
      · have hqt := (h.core.trail.value q).mp hv
        exact Or.inl ⟨q, hperm.subset hq, hqt, level_zero h.core.trail h0 hqt⟩
      · cases heq
      · exact Or.inr (Or.inl ⟨q, hperm.subset hq, hperm.subset hneg⟩)
  | some c =>
      obtain ⟨hsub, hstrict, -, hundef, hall⟩ := stripClause_some hstrip hle fun p hp => by cases hp
      have hent : Entails (insert ps N) c := h.core.entails_strip h0 hperm fun q hq => by
        rcases hall q hq with hq | hq | hq
        · exact Or.inl hq
        · exact Or.inr hq
        · cases hq
      have hsub' : c ⊆ ps := fun q hq => hperm.subset (hsub hq)
      match c with
      | [] =>
          refine ⟨false, _, rfl, ⟨rfl, rfl, rfl, rfl⟩, h0, ?_⟩
          rw [if_neg Bool.false_ne_true]
          exact ⟨unsat_of_entails_nil hent, rfl⟩
      | [p] =>
          have hp : p ∈ ps := hsub' List.mem_cons_self
          have hu := hundef p List.mem_cons_self
          have hcore := h.core.superset (Set.subset_insert ps N)
          have hsearch : Ok (insert ps N) (s.toAssignment.uncheckedEnqueue p none).abs := by
            rw [hcore.trail.abs_enqueue hu]
            exact hcore.search.push (hcore.trail.undef_abs.mpr hu) fun _ => hent
          have htake : (s.uncheckedEnqueue p none).trail.take s.qhead = s.trail.take s.qhead :=
            List.take_append_of_le_length h.core.trail.qhead_le
          have hready : Ready (insert ps N) (s.uncheckedEnqueue p none) := by
            refine ⟨hcore.enqueue hu (hlt p hp)
              (hcore.reason.enqueue_none hcore.trail hu (Or.inl h0))
              hsearch, ?_, (h.orig.enqueue h.core.trail hu).insert (Or.inl ⟨p, hp, ?_, ?_⟩),
              h.order.grow h.core.trail (h.core.trail.enqueue hu (hlt p hp))
                (List.subset_append_left _ _) rfl rfl rfl rfl rfl, h.seen, h.ok⟩
            · show PropInv _ _ ((s.uncheckedEnqueue p none).trail.take s.qhead)
              rw [htake]
              exact PropInv.enqueue h.prop h.core.trail hu hdone
            · exact List.mem_append_right _ List.mem_cons_self
            · exact TrailOk.level_enqueue_self.trans h0
          obtain ⟨confl, s', hrun, hprop, hframe, -, hpost⟩ := solver_propagate_spec hready
          have h0' : s'.decisionLevel = 0 := hprop.decisionLevel.trans h0
          simp only [hrun, Option.bind_some]
          refine ⟨_, _, rfl, ⟨hframe.nVars, hframe.decision, hframe.assumptions, hframe.conflict⟩,
            h0', ?_⟩
          cases confl with
          | none =>
              rw [if_pos (decide_eq_true rfl)]
              have hok := hpost.ready
              exact ⟨hok.core, hok.prop, hok.orig, hok.order.congr rfl rfl rfl rfl rfl rfl,
                hok.seen, rfl⟩
          | some cr =>
              rw [if_neg (by simp)]
              exact ⟨hpost.2.unsat hpost.1.core h0', rfl⟩
      | p :: q :: tail =>
          have hcore := h.core.superset (Set.subset_insert ps N)
          have hnodup : (p :: q :: tail).Nodup := hstrict.imp fun hpq heq =>
            absurd (heq ▸ hpq) (Nat.lt_irrefl _)
          obtain ⟨d, hstore, hok, hca⟩ := store_spec false hcore
            (by simp) hnodup (fun r hr => hlt r (hsub' hr)) hent
          simp only [hstore, Option.bind_some]
          refine ⟨true, _, rfl, ⟨rfl, rfl, rfl, rfl⟩, h0, ?_⟩
          rw [if_pos rfl]
          have hlive : ∀ {cr c}, Live d.ca cr c ↔ cr = s.nextRef ∧
            c = ⟨p :: q :: tail, false, false⟩ ∨
              cr ≠ s.nextRef ∧ Live s.ca cr c := by
            intro cr c
            rw [hca]
            exact live_update rfl
          have horig := h.orig.store h.core rfl hca
          refine ⟨hok, fun {cr c} hc l hl hd => ?_, horig.insert ?_,
            h.order.congr rfl rfl rfl rfl rfl rfl, h.seen, h.ok⟩
          · rcases hlive.mp hc with ⟨-, rfl⟩ | ⟨-, hc⟩
            · -- the literals of the new clause are not assigned
              have hu := hundef l (Clause.watched_subset _ hl)
              exact absurd (hdone hd) ((h.core.trail.value_undef l).mp hu).2
            · exact h.prop hc l hl hd
          · exact Or.inr (Or.inr ⟨s.nextRef, _, hlive.mpr (Or.inl ⟨rfl, rfl⟩), rfl, hsub'⟩)

end

/-! ## Removing clauses -/

section

variable {F : Type} [Double F] {N : Set (List Lit)} {s s' : Solver F} {done : List Lit}

/-- Removing clauses keeps the invariant: those of the problem are true at level 0. -/
theorem SolverOk.trimmed {P : Clause → Prop} {core : Core} (h : SolverOk N done s)
    (hcore : CoreOk N core)
    (ht : Trimmed P s.toCore core)
    (hP : ∀ c, P c → c.learnt = false → ∃ p ∈ c.lits, p ∈ s.trail ∧ s.level p.var = 0) :
    SolverOk N done { s with toCore := core } :=
  ⟨hcore, ht.propInv h.prop, h.orig.trimmed ht hP,
    @OrderOk.grow F _ s { s with toCore := core } h.order h.core.trail hcore.trail
      (by rw [ht.trail]; exact List.Subset.refl _) rfl ht.nVars rfl rfl rfl, h.seen, h.ok⟩

omit [Double F] in
theorem size_ge (h : CoreOk N s.toCore) (cr : ℕ) : 2 ≤ s.size cr := by
  unfold Solver.size
  cases hc : s.ca cr with
  | none => simp
  | some c => simpa using h.db.two hc

theorem reduceDB_lt_iff {x y : ℕ} : Less s.reduceDB_lt x y ↔
    2 < s.size x ∧ (s.size y = 2 ∨ Double.lt (s.claActivity x) (s.claActivity y) = true) := by
  simp [Less, Solver.reduceDB_lt]

variable [LawfulDouble F]

theorem reduceDB_lt_asymm : Std.Asymm (Less s.reduceDB_lt) := by
  refine ⟨fun x y h h' => ?_⟩
  obtain ⟨hx, hxy⟩ := reduceDB_lt_iff.mp h
  obtain ⟨hy, hyx⟩ := reduceDB_lt_iff.mp h'
  have h₁ := hxy.resolve_left hy.ne'
  have h₂ := hyx.resolve_left hx.ne'
  rw [LawfulDouble.asymm _ _ h₁] at h₂
  cases h₂

theorem reduceDB_lt_connected (h : CoreOk N s.toCore) :
    IsOrderConnected ℕ (Less s.reduceDB_lt) := by
  refine ⟨fun x y z hxz => ?_⟩
  obtain ⟨hx, hcase⟩ := reduceDB_lt_iff.mp hxz
  rcases Nat.eq_or_lt_of_le (size_ge h y) with hy | hy
  · exact Or.inl (reduceDB_lt_iff.mpr ⟨hx, Or.inl hy.symm⟩)
  · rcases hcase with hz | hlt
    · exact Or.inr (reduceDB_lt_iff.mpr ⟨hy, Or.inl hz⟩)
    · rcases LawfulDouble.connected _ (s.claActivity y) _ hlt with hlt | hlt
      · exact Or.inl (reduceDB_lt_iff.mpr ⟨hx, Or.inr hlt⟩)
      · exact Or.inr (reduceDB_lt_iff.mpr ⟨hy, Or.inr hlt⟩)

/-- `reduceDB` removes learnt clauses that are no reasons. -/
theorem reduceDB_spec (h : SolverOk N done s) :
    ∃ s', s.reduceDB = some s' ∧ SolverOk N done s' ∧ Frame s s' ∧
      Trimmed (fun c => c.learnt = true) s.toCore s'.toCore := by
  have := reduceDB_lt_asymm (s := s)
  have := reduceDB_lt_connected h.core
  obtain ⟨learnts, hsort, hperm, -⟩ := sort_sorted s.reduceDB_lt s.learnts
  obtain ⟨cs, core, hrun, hok, ht⟩ := removeWhere_refs (s := s.toCore)
    (fun i core cr c => decide (2 < c.lits.length) && !core.locked cr c &&
      (decide (i < s.learnts.length / 2) || Double.lt (s.claActivity cr)
        (s.cla_inc / Double.ofInt s.learnts.length)))
    (P := fun c => c.learnt = true) true h.core hperm
    (fun i s' cr c _ ht => by
      rw [Bool.and_eq_true, Bool.and_eq_true, Bool.not_eq_true'] at ht
      exact Or.inr ht.1.2)
    (fun i s' cr c _ hl _ _ => hl)
  refine ⟨_, ?_, h.trimmed hok (s := s) ⟨ht.assignment, ht.level, ht.live, ht.gone, ht.reason⟩
    fun c hl hf => ?_, ⟨ht.nVars, rfl, rfl, rfl⟩,
    ⟨ht.assignment, ht.level, ht.live, ht.gone, ht.reason⟩⟩
  · unfold Solver.reduceDB
    simp only [hsort, Option.bind_eq_bind, Option.bind_some, hrun]
    rfl
  · rw [hl] at hf
    cases hf

/-- The order is built anew from the variables that may be decided. -/
theorem rebuildOrderHeap_spec (h : SolverOk N done s) :
    SolverOk N done s.rebuildOrderHeap ∧ Frame s s.rebuildOrderHeap := by
  obtain ⟨hok, hmem⟩ := Heap.build_ok s.varOrderLt h.order.ok
    (List.nodup_range.filter fun v => s.decision v && s.valueVar v = l_Undef)
  refine ⟨⟨h.core, h.prop, h.orig, ⟨hok, fun x hx => ?_, fun x hx hd hu => (hmem x).mpr ?_,
    Heap.build_ordered _, h.order.inc⟩, h.seen, h.ok⟩, ⟨rfl, rfl, rfl, rfl⟩⟩
  · exact List.mem_range.mp (List.mem_filter.mp ((hmem x).mp hx)).1
  · refine List.mem_filter.mpr ⟨List.mem_range.mpr hx, ?_⟩
    have hd' : s.decision x = true := hd
    have hu' : s.valueVar x = l_Undef := hu
    simp [hd', hu']

omit [LawfulDouble F] in
/-- One of the lists is freed of the clauses that are true at level 0. -/
theorem removeSatisfied_spec (h : SolverOk N done s) (h0 : s.decisionLevel = 0) (b : Bool) :
    ∃ cs core, s.toCore.removeSatisfied (s.refs b) = some (cs, core) ∧
      SolverOk N done { s with toCore := core.withRefs fun b' =>
        if b' = b then cs else core.refs b' } ∧
      Trimmed (fun c => ∃ p ∈ c.lits, s.value p = l_True) s.toCore
        (core.withRefs fun b' => if b' = b then cs else core.refs b') := by
  obtain ⟨cs, core, hrun, hok, ht⟩ := removeWhere_refs (s := s.toCore)
    (fun _ s _ c => s.satisfied c) (P := fun c => ∃ p ∈ c.lits, s.value p = l_True) b h.core
    (List.Perm.refl _) (fun i s' cr c hd _ => Or.inl (hd.trans h0))
    (fun i s' cr c _ _ hv ht => by
      obtain ⟨p, hp, hpv⟩ := List.any_eq_true.mp ht
      exact ⟨p, hp, (hv p).symm.trans (of_decide_eq_true hpv)⟩)
  have ht' : Trimmed (fun c => ∃ p ∈ c.lits, s.value p = l_True) s.toCore
      (core.withRefs fun b' => if b' = b then cs else core.refs b') :=
    ⟨ht.assignment, ht.level, ht.live, ht.gone, ht.reason⟩
  refine ⟨cs, core, hrun, h.trimmed hok ht' fun c hc _ => ?_, ht'⟩
  obtain ⟨p, hp, hv⟩ := hc
  have hpt := (h.core.trail.value p).mp hv
  exact ⟨p, hp, hpt, level_zero h.core.trail h0 hpt⟩

/-- `simplify` keeps the invariant and leaves nothing to propagate, or the problem has no model. -/
theorem simplify_spec (h : Ready N s) (h0 : s.decisionLevel = 0) :
    ∃ b s', s.simplify = some (b, s') ∧ Frame s s' ∧ Extends s.toAssignment s'.toAssignment ∧
      Relation.ReflTransGen (Step N) s.abs s'.abs ∧
      if b then SolverOk N s'.trail s' ∧ s'.qhead = s'.trail.length
      else Unsat N ∧ s'.ok = false := by
  obtain ⟨confl, s₁, hrun, hprop, hframe, hq, hpost⟩ := solver_propagate_spec h
  have h0₁ : s₁.decisionLevel = 0 := hprop.decisionLevel.trans h0
  unfold Solver.simplify
  rw [if_neg (not_not.mpr h0), if_neg (by rw [h.ok]; decide)]
  simp only [hrun, Option.bind_eq_bind, Option.bind_some]
  cases confl with
  | some cr =>
      rw [if_pos (by simp)]
      refine ⟨false, _, rfl, ⟨hframe.nVars, hframe.decision, hframe.assumptions, hframe.conflict⟩,
        hprop.grows, hprop.run, ?_⟩
      rw [if_neg Bool.false_ne_true]
      exact ⟨hpost.2.unsat hpost.1.core h0₁, rfl⟩
  | none =>
      rw [if_neg (not_not.mpr rfl)]
      by_cases hskip : (s₁.nAssigns : ℤ) = s₁.simpDB_assigns ∨ 0 < s₁.simpDB_props
      · rw [if_pos hskip]
        refine ⟨true, s₁, rfl, hframe, hprop.grows, hprop.run, ?_⟩
        rw [if_pos rfl]
        exact ⟨hpost, hq⟩
      · rw [if_neg hskip]
        have hok₁ : SolverOk N s₁.trail s₁ := hpost
        obtain ⟨ls, core₂, hrun₂, hok₂, ht₂⟩ := removeSatisfied_spec hok₁ h0₁ true
        obtain ⟨cs, core₃, hrun₃, hok₃, ht₃⟩ :=
          removeSatisfied_spec hok₂ (ht₂.decisionLevel.trans h0₁) false
        obtain ⟨hok₄, hframe₄⟩ := rebuildOrderHeap_spec hok₃
        have hrun₂' : s₁.toCore.removeSatisfied s₁.learnts = some (ls, core₂) := hrun₂
        have hrun₃' : Core.removeSatisfied { core₂ with learnts := ls } core₂.clauses =
            some (cs, core₃) := hrun₃
        simp only [hrun₂', Option.bind_some, hrun₃']
        refine ⟨true, _, rfl, hframe.trans ⟨ht₃.nVars.trans ht₂.nVars, rfl, rfl, rfl⟩,
          hprop.grows.trans (ht₂.grows.trans ht₃.grows), ?_, ?_⟩
        · have habs := ht₃.abs.trans ht₂.abs
          exact habs ▸ hprop.run
        · rw [if_pos rfl]
          have htrail := ht₃.trail.trans ht₂.trail
          refine ⟨⟨hok₄.core, ?_, hok₄.orig, hok₄.order.congr rfl rfl rfl rfl rfl rfl, hok₄.seen,
            hok₄.ok⟩, ?_⟩
          · exact htrail.symm ▸ hok₄.prop
          · exact (ht₃.qhead.trans ht₂.qhead).trans (hq.trans (congrArg List.length htrail.symm))

end

end ExtFolding.Minisat
