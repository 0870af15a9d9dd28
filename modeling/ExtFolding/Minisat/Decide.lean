import ExtFolding.Minisat.AnalyzeFinal
import ExtFolding.Minisat.Learn

/-!
# `memin/minisat/core/Solver.cpp`: assumptions and decisions

Without a conflict the search first makes the assumptions true, each on a level of its own, and then
takes variables from the order. When an assumption is false, the final conflict says which
assumptions cannot hold together.
-/

namespace ExtFolding.Minisat

open Cdcl LBool

variable {F : Type} [Double F]

/-! ## The code -/

namespace Solver

/-- `next = order_heap.removeMin()` until `next` may be decided or the heap is empty. -/
def pickBranchVar : ℕ → Solver F → Option (Option ℕ × Solver F)
  | 0, _ => none
  | fuel + 1, s =>
      match s.order_heap.removeMin s.varOrderLt with
      | none => some (none, s)
      | some (next, heap) =>
          let s' : Solver F := { s with order_heap := heap }
          if s'.valueVar next = l_Undef ∧ s'.decision next = true then some (some next, s')
          else pickBranchVar fuel s'

def pickBranchLit (s : Solver F) : Option (Option Lit × Solver F) :=
  (pickBranchVar (s.order_heap.heap.length + 1) s).map fun r =>
    (r.1.map fun next => mkLit next (r.2.polarity next), r.2)

/-- What comes of the assumptions: one is false, or `next`. -/
inductive Assumption where
  | fails
  | next (p : Option Lit)

/-- `while (decisionLevel() < assumptions.size())` -/
def assume : ℕ → Solver F → Option (Assumption × Solver F)
  | 0, _ => none
  | fuel + 1, s =>
      match s.assumptions[s.decisionLevel]? with
      | none => some (.next none, s)
      | some p =>
          if s.value p = l_True then assume fuel s.newDecisionLevel
          else if s.value p = l_False then do
            let r ← s.toCore.analyzeFinal s.seen (-p)
            return (.fails, { s with seen := r.1, conflict := r.2 })
          else some (.next (some p), s)

/-- `newDecisionLevel(); uncheckedEnqueue(next);` -/
def decideLit (s : Solver F) (p : Lit) : Solver F := s.newDecisionLevel.uncheckedEnqueue p none

/-- From the assumptions to the end of the round; a result ends the search. -/
def decide (s : Solver F) : Option (Option LBool × Solver F) := do
  let r ← assume (s.assumptions.length + 1) s
  match r.1 with
  | .fails => return (some l_False, r.2)
  | .next (some p) => return (none, r.2.decideLit p)
  | .next none => do
      let r ← r.2.pickBranchLit
      match r.1 with
      | none => return (some l_True, r.2)
      | some p => return (none, r.2.decideLit p)

end Solver

/-! ## Assumptions on the trail -/

/-- The assumptions up to the current level hold, the decisions of these levels are assumptions, and
each level above them begins with a decision. -/
structure Assumed (A : List Lit) (s : Assignment) : Prop where
  holds : ∀ {k p}, A[k]? = some p → k < s.decisionLevel → p ∈ s.trail ∧ s.level p.var ≤ k + 1
  decided : ∀ p ∈ s.trail, s.reason p.var = none → 0 < s.level p.var → s.level p.var ≤ A.length →
    A[s.level p.var - 1]? = some p
  limits : (s.trail_lim.drop A.length ++ [s.trail.length]).Pairwise (· < ·)

namespace Assumed

variable {A : List Lit} {s s' : Assignment} {p : Lit} {source : Option ℕ} {level : ℕ}

theorem zero (ht : TrailOk s) (h0 : s.decisionLevel = 0) : Assumed A s := by
  refine ⟨fun _ hk => absurd (h0 ▸ hk) (Nat.not_lt_zero _), fun p hp _ hpos => ?_, ?_⟩
  · rw [level_zero ht h0 hp] at hpos
    exact absurd hpos (Nat.lt_irrefl 0)
  · rw [List.eq_nil_of_length_eq_zero h0]
    simp

theorem sorted_last {l : List ℕ} {x : ℕ} (h : (l ++ [x]).Pairwise (· < ·)) : l.length ≤ x := by
  induction l using List.reverseRecOn generalizing x with
  | nil => exact Nat.zero_le x
  | append_singleton l y ih =>
      have hpre : (l ++ [y]).Pairwise (· < ·) := (List.pairwise_append.mp h).1
      have hyx : y < x := (List.pairwise_append.mp h).2.2 y (by simp) x (by simp)
      rw [List.length_append, List.length_singleton]
      exact (Nat.succ_le_succ (ih hpre)).trans hyx

/-- There is no level without a literal but those of assumptions. -/
theorem decisionLevel_le (h : Assumed A s) : s.decisionLevel ≤ A.length + s.trail.length := by
  have := sorted_last h.limits
  rw [List.length_drop] at this
  unfold Assignment.decisionLevel
  omega

theorem grow (h : Assumed A s) (he : Extends s s')
    (hreason : ∀ p ∈ s'.trail, s'.reason p.var = none → 0 < s'.level p.var →
      p ∈ s.trail ∧ s.reason p.var = none) : Assumed A s' := by
  refine ⟨fun hk hlt => ?_, fun p hp hr hpos hle => ?_, ?_⟩
  · rw [he.decisionLevel] at hlt
    obtain ⟨hp, hlev⟩ := h.holds hk hlt
    exact ⟨he.trail.subset hp, (he.level _ hp).le.trans hlev⟩
  · obtain ⟨hp', hr'⟩ := hreason p hp hr hpos
    rw [he.level p hp'] at hpos hle ⊢
    exact h.decided p hp' hr' hpos hle
  · rw [he.trail_lim]
    have hlen := he.trail.length_le
    refine List.pairwise_append.mpr ⟨(List.pairwise_append.mp h.limits).1,
      List.pairwise_singleton _ _,
      fun x hx y hy => ?_⟩
    rw [List.mem_singleton.mp hy]
    exact ((List.pairwise_append.mp h.limits).2.2 x hx _ (List.mem_singleton.mpr rfl)).trans_le hlen

theorem enqueue (h : Assumed A s) (ht : TrailOk s) (hu : s.value p = l_Undef)
    (hsource : source = none → s.decisionLevel = 0) : Assumed A (s.uncheckedEnqueue p source) := by
  refine h.grow ⟨List.prefix_append _ _, rfl, fun q hq => ht.level_enqueue hu hq⟩
    fun q hq hr hpos => ?_
  rcases List.mem_append.mp hq with hq | hq
  · rw [TrailOk.reason_enqueue_of_ne (ReasonOk.ne_var ht hu hq)] at hr
    exact ⟨hq, hr⟩
  · obtain rfl := List.mem_singleton.mp hq
    rw [TrailOk.reason_enqueue_self] at hr
    rw [TrailOk.level_enqueue_self, hsource hr] at hpos
    exact absurd hpos (Nat.lt_irrefl 0)

theorem cancelUntil (h : Assumed A s) (ht : TrailOk s) (hlev : level ≤ s.decisionLevel) :
    Assumed A (s.cancelUntil level) := by
  have hmem := (ht.trail_cancelUntil level).2
  refine ⟨fun {k p} hk hlt => ?_, fun p hp hr hpos hle => ?_, ?_⟩
  · rw [TrailOk.decisionLevel_cancelUntil hlev] at hlt
    obtain ⟨hp, hlev'⟩ := h.holds hk (hlt.trans_le hlev)
    rw [TrailOk.level_cancelUntil]
    exact ⟨(hmem p).mpr ⟨hp, hlev'.trans hlt⟩, hlev'⟩
  · rw [TrailOk.reason_cancelUntil] at hr
    rw [TrailOk.level_cancelUntil] at hpos hle ⊢
    exact h.decided p ((hmem p).mp hp).1 hr hpos hle
  · rcases Nat.lt_or_ge level s.decisionLevel with hlt | hge
    · rw [TrailOk.cancelUntil_of_lt hlt]
      show ((s.trail_lim.take level).drop A.length ++ [(s.trail.take _).length]).Pairwise (· < ·)
      rw [List.length_take, min_eq_left (ht.lim_getD_le hlt)]
      rcases Nat.lt_or_ge level A.length with hA | hA
      · rw [List.drop_eq_nil_of_le ((List.length_take_le _ _).trans hA.le)]
        simp
      · refine List.Pairwise.sublist ?_ h.limits
        have hsplit : s.trail_lim.take (level + 1) =
            s.trail_lim.take level ++ [s.trail_lim.getD level 0] := by
          rw [List.take_add_one, TrailOk.lim_getElem hlt]
          rfl
        have hlen : A.length ≤ (s.trail_lim.take level).length := by
          rw [List.length_take]
          exact le_min hA (hA.trans hlt.le)
        rw [← List.drop_append_of_le_length hlen, ← hsplit]
        exact ((List.take_sublist _ _).drop _).trans (List.sublist_append_left _ _)
    · rw [TrailOk.cancelUntil_of_le hge]
      exact h.limits

/-- A level for an assumption that holds. -/
theorem skip (h : Assumed A s) (ht : TrailOk s) (hA : A[s.decisionLevel]? = some p)
    (hp : p ∈ s.trail) :
    Assumed A s.newDecisionLevel := by
  have hlt : s.decisionLevel < A.length := (List.getElem?_eq_some_iff.mp hA).1
  refine ⟨fun {k q} hk hkd => ?_, h.decided, ?_⟩
  · have hkd' : k < s.decisionLevel + 1 := by
      simpa [Assignment.newDecisionLevel, Assignment.decisionLevel] using hkd
    rcases Nat.lt_succ_iff_lt_or_eq.mp hkd' with hlt' | rfl
    · exact h.holds hk hlt'
    · rw [hA] at hk
      cases hk
      exact ⟨hp, (ht.level_le hp).trans (Nat.le_succ _)⟩
  · show ((s.trail_lim ++ [s.trail.length]).drop A.length ++ [s.trail.length]).Pairwise (· < ·)
    rw [List.drop_eq_nil_of_le (by
      rw [List.length_append, List.length_singleton]
      exact hlt)]
    simp

/-- A level for a decision, which is the next assumption if there is one. -/
theorem decide (h : Assumed A s) (ht : TrailOk s) (hq : s.qhead = s.trail.length)
    (hu : s.value p = l_Undef) (hA : s.decisionLevel < A.length → A[s.decisionLevel]? = some p) :
    Assumed A (s.newDecisionLevel.uncheckedEnqueue p none) := by
  have ht' := ht.newDecisionLevel hq
  have hlevel : s.newDecisionLevel.decisionLevel = s.decisionLevel + 1 := by
    simp [Assignment.newDecisionLevel, Assignment.decisionLevel]
  have hself : (s.newDecisionLevel.uncheckedEnqueue p none).level p.var = s.decisionLevel + 1 :=
    TrailOk.level_enqueue_self.trans hlevel
  have hold : ∀ {q source}, q ∈ s.trail →
      (s.newDecisionLevel.uncheckedEnqueue p source).level q.var = s.level q.var :=
    fun hq => ht'.level_enqueue hu hq
  refine ⟨fun {k q} hk hkd => ?_, fun q hq' hr hpos hle => ?_, ?_⟩
  · have hkd' : k < s.decisionLevel + 1 := hlevel ▸ hkd
    rcases Nat.lt_succ_iff_lt_or_eq.mp hkd' with hlt | rfl
    · obtain ⟨hqt, hlev⟩ := h.holds hk hlt
      exact ⟨List.mem_append_left _ hqt, (hold hqt).le.trans hlev⟩
    · rw [hA (List.getElem?_eq_some_iff.mp hk).1] at hk
      cases hk
      exact ⟨List.mem_append_right _ List.mem_cons_self, hself.le⟩
  · rcases List.mem_append.mp hq' with hqt | hqp
    · rw [TrailOk.reason_enqueue_of_ne (ReasonOk.ne_var ht' hu hqt)] at hr
      rw [hold hqt] at hpos hle ⊢
      exact h.decided q hqt hr hpos hle
    · obtain rfl := List.mem_singleton.mp hqp
      rw [hself] at hle ⊢
      exact hA hle
  · show ((s.trail_lim ++ [s.trail.length]).drop A.length ++
      [(s.trail ++ [p]).length]).Pairwise (· < ·)
    rw [List.length_append, List.length_singleton]
    rcases Nat.lt_or_ge s.trail_lim.length A.length with hlt | hge
    · rw [List.drop_eq_nil_of_le (by
        rw [List.length_append, List.length_singleton]
        exact hlt)]
      simp
    · rw [List.drop_append_of_le_length hge]
      refine List.pairwise_append.mpr ⟨h.limits, List.pairwise_singleton _ _, fun x hx y hy => ?_⟩
      rw [List.mem_singleton.mp hy]
      rcases List.mem_append.mp hx with hx | hx
      · exact ((List.pairwise_append.mp h.limits).2.2 x hx _ (List.mem_singleton.mpr rfl)).trans
          (Nat.lt_succ_self _)
      · rw [List.mem_singleton.mp hx]
        exact Nat.lt_succ_self _

end Assumed

/-! ## Between two rounds -/

/-- All literals have been propagated, and the levels are those of assumptions and decisions. -/
structure Searching (N : Set (List Lit)) (s : Solver F) : Prop where
  solver : SolverOk N s.trail s
  qhead : s.qhead = s.trail.length
  assumed : Assumed s.assumptions s.toAssignment

/-- Grows with each round of the search. -/
def Solver.potential (s : Solver F) : ℕ :=
  Cdcl.potential s.nVars (s.assumptions.length + s.nVars) s.abs

section

variable {N : Set (List Lit)} {s s' : Solver F} {p : Lit} {o : Heap}

omit [Double F] in
theorem Assumed.level_le (h : Assumed s.assumptions s.toAssignment) (ht : TrailOk s.toAssignment) :
    s.decisionLevel ≤ s.assumptions.length + s.nVars :=
  h.decisionLevel_le.trans (Nat.add_le_add_left ht.length_le _)

omit [Double F] in
theorem length_abs : s.abs.trail.length = s.trail.length := by simp [Assignment.abs]

omit [Double F] in
theorem potential_le_of_step (hn : s'.nVars = s.nVars) (hA : s'.assumptions = s.assumptions)
    (ht : TrailOk s.toAssignment) (ha : Assumed s.assumptions s.toAssignment)
    (hs : Step N s.abs s'.abs) : s.potential < s'.potential := by
  unfold Solver.potential
  rw [hn, hA]
  exact hs.potential_lt (length_abs.le.trans ht.length_le) (ha.level_le ht)

omit [Double F] in
theorem potential_le_of_extends (hn : s'.nVars = s.nVars) (hA : s'.assumptions = s.assumptions)
    (he : Extends s.toAssignment s'.toAssignment) : s.potential ≤ s'.potential := by
  unfold Solver.potential Cdcl.potential
  rw [hn, hA]
  exact Nat.add_le_add (Nat.mul_le_mul_right _ (he.weight_le _ _)) he.decisionLevel.ge

/-- A new level, with the literals it had. -/
theorem Searching.newDecisionLevel (h : Searching N s)
    (hp : s.assumptions[s.decisionLevel]? = some p) (hpt : p ∈ s.trail) :
    Searching N s.newDecisionLevel ∧ s.potential < s.newDecisionLevel.potential ∧
      Step N s.abs s.newDecisionLevel.abs := by
  have hcore := h.solver.core
  have ht := hcore.trail.newDecisionLevel h.qhead
  have hstep : Step N s.abs s.newDecisionLevel.abs := by
    rw [show s.newDecisionLevel.abs = _ from TrailOk.abs_newDecisionLevel]
    exact .openLevel
  have hok : SolverOk N s.newDecisionLevel.trail s.newDecisionLevel :=
    ⟨⟨ht, hcore.db, hcore.watch, hcore.removed, hcore.reason.newDecisionLevel, hcore.implied,
      hstep.ok hcore.search⟩, h.solver.prop, h.solver.orig,
      h.solver.order.congr rfl rfl rfl rfl rfl rfl, h.solver.seen, h.solver.ok⟩
  exact ⟨⟨hok, h.qhead, h.assumed.skip hcore.trail hp hpt⟩,
    potential_le_of_step rfl rfl hcore.trail h.assumed hstep, hstep⟩

/-- A decision; the order may have lost its variable. -/
theorem decideLit_spec (h : Searching N s) (hu : s.value p = l_Undef) (hp : p.var < s.nVars)
    (hok : o.Ok) (hlt : ∀ x ∈ o.heap, x < s.nVars) (hord : o.Ordered s.varOrderLt)
    (hmem : ∀ x < s.nVars, s.decision x = true → s.valueVar x = l_Undef → x ∈ o.heap ∨ x = p.var)
    (hA : s.decisionLevel < s.assumptions.length → s.assumptions[s.decisionLevel]? = some p) :
    Ready N (Solver.decideLit { s with order_heap := o } p) ∧
      Frame s (Solver.decideLit { s with order_heap := o } p) ∧
      Assumed s.assumptions (Solver.decideLit { s with order_heap := o } p).toAssignment ∧
      s.potential < (Solver.decideLit { s with order_heap := o } p).potential ∧
      Step N s.abs (Solver.decideLit { s with order_heap := o } p).abs := by
  have hcore := h.solver.core
  have ht := hcore.trail.newDecisionLevel h.qhead
  have hu' : s.newDecisionLevel.value p = l_Undef := hu
  have hstep : Step N s.abs (s.toAssignment.newDecisionLevel.uncheckedEnqueue p none).abs := by
    rw [ht.abs_enqueue hu', TrailOk.abs_newDecisionLevel]
    have hd : s.toAssignment.newDecisionLevel.decisionLevel = s.decisionLevel + 1 := by
      simp [Assignment.newDecisionLevel, Assignment.decisionLevel]
    rw [hd]
    exact .decide (hcore.trail.undef_abs.mpr hu)
  have hreason := hcore.reason.newDecisionLevel.enqueue_none ht hu' (Or.inr (by
    show s.trail.length ∈ s.trail_lim ++ [s.trail.length]
    simp))
  have ht' := @TrailOk.enqueue s.toAssignment.newDecisionLevel p none ht hu' hp
  have hready : SolverOk N s.trail (Solver.decideLit { s with order_heap := o } p) := by
    refine ⟨⟨ht', hcore.db, hcore.watch, hcore.removed, hreason, hcore.implied,
      hstep.ok hcore.search⟩,
      PropInv.enqueue (s := s.toAssignment.newDecisionLevel) h.solver.prop ht hu'
        (List.Subset.refl _),
      h.solver.orig.mono (fun q hq hlev => ⟨List.mem_append_left _ hq, ?_⟩)
        fun {cr c} hc hl => Or.inr ⟨cr, c, hc, hl, List.Subset.refl _⟩,
      ⟨hok, hlt, fun x hx hd hux => ?_, hord, h.solver.order.inc⟩, h.solver.seen, h.solver.ok⟩
    · exact (ht.level_enqueue hu' hq).trans hlev
    · have hall := (ht'.valueVar_undef x).mp hux
      refine (hmem x hx hd ((hcore.trail.valueVar_undef x).mpr fun q hq => ?_)).resolve_right
        fun heq => ?_
      · exact hall q (List.mem_append_left _ hq)
      · exact hall p (List.mem_append_right _ List.mem_cons_self) heq.symm
  exact ⟨SolverOk.ready_enqueue (s := Solver.newDecisionLevel { s with order_heap := o })
    h.qhead hready,
    ⟨rfl, rfl, rfl, rfl⟩, h.assumed.decide hcore.trail h.qhead hu hA,
    potential_le_of_step rfl rfl hcore.trail h.assumed hstep, hstep⟩

/-- The variables before the one that is picked have a value or may not be decided; so it is one of
the most active variables that can be decided. -/
theorem pickBranchVar_spec [LawfulDouble F] (ho : OrderOk s) {fuel : ℕ}
    (hfuel : s.order_heap.heap.length < fuel) :
    ∃ r o, Solver.pickBranchVar fuel s = some (r, { s with order_heap := o }) ∧ o.Ok ∧
      (∀ x ∈ o.heap, x < s.nVars) ∧ o.Ordered s.varOrderLt ∧
      (∀ x < s.nVars, s.decision x = true → s.valueVar x = l_Undef → x ∈ o.heap ∨ r = some x) ∧
      match r with
      | none => o.heap = []
      | some x => s.valueVar x = l_Undef ∧ s.decision x = true ∧ x < s.nVars ∧
          ∀ y < s.nVars, s.decision y = true → s.valueVar y = l_Undef →
            ¬ Less s.varOrderLt y x := by
  induction fuel generalizing s with
  | zero => exact absurd hfuel (Nat.not_lt_zero _)
  | succ fuel ih =>
      by_cases hnil : s.order_heap.heap = []
      · refine ⟨none, s.order_heap, ?_, ho.ok, ho.lt, ho.ordered, fun x hx hd hu =>
          Or.inl (ho.mem x hx hd hu),
          hnil⟩
        rw [Solver.pickBranchVar, Heap.removeMin_nil hnil]
      · obtain ⟨next, heap, hrun, htop, hok, hmem, hlen⟩ :=
          Heap.removeMin_ok s.varOrderLt ho.ok hnil
        obtain ⟨hord, hleast⟩ := Heap.removeMin_ordered ho.ordered hrun
        have hnext : next < s.nVars := ho.lt next (List.mem_of_getElem? htop)
        have hlt : ∀ x ∈ heap.heap, x < s.nVars := fun x hx => ho.lt x ((hmem x).mp hx).1
        simp only [Solver.pickBranchVar, hrun]
        split
        · next hdec =>
            refine ⟨some next, heap, rfl, hok, hlt, hord, fun x hx hd hu => ?_, hdec.1,
              hdec.2, hnext,
              fun y hy hd hu => hleast y (ho.mem y hy hd hu)⟩
            by_cases hx' : x = next
            · exact Or.inr (congrArg some hx'.symm)
            · exact Or.inl ((hmem x).mpr ⟨ho.mem x hx hd hu, hx'⟩)
        · next hdec =>
            refine ih (s := { s with order_heap := heap }) ⟨hok, hlt, fun x hx hd hu => ?_,
              hord, ho.inc⟩ ?_
            · refine (hmem x).mpr ⟨ho.mem x hx hd hu, ?_⟩
              rintro rfl
              exact hdec ⟨hu, hd⟩
            · show heap.heap.length < fuel
              omega

end

/-! ## What a result means -/

/-- With `l_True` the assumptions hold and all variables that may be decided have values; with
`l_False` the problem has no model, or the final conflict follows, which consists of complements of
assumptions. -/
def Result (N : Set (List Lit)) (s : Solver F) : LBool → Prop
  | l_True => SolverOk N s.trail s ∧ s.conflict = [] ∧ (∀ p ∈ s.assumptions, p ∈ s.trail) ∧
      ∀ x < s.nVars, s.decision x = true → s.valueVar x ≠ l_Undef
  | l_False => s.conflict = [] ∧ s.decisionLevel = 0 ∧ Unsat N ∨
      SolverOk N s.trail s ∧ s.conflict ≠ [] ∧ Entails N s.conflict ∧ ∀ q ∈ s.conflict,
        -q ∈ s.assumptions
  | l_Undef => Ready N s ∧ s.conflict = [] ∧ s.decisionLevel = 0

section

variable {N : Set (List Lit)} {s s' : Solver F} {p : Lit}

theorem assume_spec (h : Searching N s) {fuel : ℕ}
    (hfuel : s.assumptions.length - s.decisionLevel < fuel) :
    ∃ r s', Solver.assume fuel s = some (r, s') ∧ s'.nVars = s.nVars ∧ s'.decision = s.decision ∧
      s'.assumptions = s.assumptions ∧ Relation.ReflTransGen (Step N) s.abs s'.abs ∧
      s.potential ≤ s'.potential ∧
      match r with
      | .fails => Result N s' l_False
      | .next none => Searching N s' ∧ s'.conflict = s.conflict ∧ s'.assumptions.length ≤
          s'.decisionLevel
      | .next (some p) => Searching N s' ∧ s'.conflict = s.conflict ∧ s'.value p = l_Undef ∧
          s'.assumptions[s'.decisionLevel]? = some p := by
  induction fuel generalizing s with
  | zero => exact absurd hfuel (Nat.not_lt_zero _)
  | succ fuel ih =>
      rw [Solver.assume]
      cases hA : s.assumptions[s.decisionLevel]? with
      | none =>
          exact ⟨.next none, s, rfl, rfl, rfl, rfl, .refl, le_rfl, h, rfl,
            List.getElem?_eq_none_iff.mp hA⟩
      | some p =>
          have hlt : s.decisionLevel < s.assumptions.length := (List.getElem?_eq_some_iff.mp hA).1
          have hcore := h.solver.core
          cases hv : s.value p with
          | l_True =>
              obtain ⟨h', hpot, hstep⟩ := h.newDecisionLevel hA ((hcore.trail.value p).mp hv)
              have hlen : s.newDecisionLevel.decisionLevel = s.decisionLevel + 1 := by
                simp [Solver.newDecisionLevel, Assignment.newDecisionLevel,
                  Assignment.decisionLevel]
              obtain ⟨r, s', hrun, hn, hd, ha, hsteps, hpot', hpost⟩ := ih h' (by
                show s.assumptions.length - s.newDecisionLevel.decisionLevel < fuel
                omega)
              exact ⟨r, s', by simpa [if_pos hv] using hrun, hn, hd, ha, hsteps.head hstep,
                hpot.le.trans hpot', hpost⟩
          | l_False =>
              have hneg : -p ∈ s.trail := (hcore.trail.value_false p).mp hv
              obtain ⟨out, hrun, hent, hmem, hdec⟩ := analyzeFinal_spec hcore h.solver.seen hneg
              refine ⟨.fails, { s with conflict := out }, ?_, rfl, rfl, rfl, .refl, le_rfl,
                Or.inr ⟨?_, ?_, hent,
                fun q hq => ?_⟩⟩
              · simp [if_neg (show s.value p ≠ l_True by simp [hv]), if_pos hv, hrun]
              · exact h.solver.congr rfl rfl rfl rfl rfl rfl rfl
              · exact List.ne_nil_of_mem hmem
              · rcases hdec q hq with rfl | ⟨hqt, hr, hpos⟩
                · rw [neg_neg]
                  exact List.mem_of_getElem? hA
                · rw [← Lit.var_neg] at hr hpos
                  exact List.mem_of_getElem? (h.assumed.decided _ hqt hr hpos
                    ((hcore.trail.level_le hqt).trans hlt.le))
          | l_Undef =>
              refine ⟨.next (some p), s, ?_, rfl, rfl, rfl, .refl, le_rfl, h, rfl, hv, hA⟩
              simp [if_neg (show s.value p ≠ l_True by simp [hv]),
                if_neg (show s.value p ≠ l_False by simp [hv])]

/-- A round ends with a decision, or with a result. -/
theorem decide_spec [LawfulDouble F] (h : Searching N s) (hconf : s.conflict = [])
    (hlt : ∀ p ∈ s.assumptions, p.var < s.nVars) :
    ∃ r s', s.decide = some (r, s') ∧ s'.nVars = s.nVars ∧ s'.decision = s.decision ∧
      s'.assumptions = s.assumptions ∧ Relation.ReflTransGen (Step N) s.abs s'.abs ∧
      match r with
      | none => Ready N s' ∧ s'.conflict = [] ∧ Assumed s'.assumptions s'.toAssignment ∧
          s.potential < s'.potential
      | some b => Result N s' b ∧ b ≠ l_Undef := by
  obtain ⟨r, s₁, hrun, hn, hd, ha, hsteps, hpot, hpost⟩ :=
    @assume_spec F _ N s h (s.assumptions.length + 1) (by omega)
  unfold Solver.decide
  simp only [hrun, Option.bind_eq_bind, Option.bind_some]
  match r with
  | .fails => exact ⟨some l_False, s₁, rfl, hn, hd, ha, hsteps, hpost, by simp⟩
  | .next (some p) =>
      obtain ⟨h₁, hconf₁, hu, hA⟩ := hpost
      obtain ⟨hready, hframe, hassumed, hpot', hstep⟩ := decideLit_spec h₁ hu
        (by rw [hn]; exact hlt p (ha ▸ List.mem_of_getElem? hA)) h₁.solver.order.ok
          h₁.solver.order.lt
        h₁.solver.order.ordered (fun x hx hdx hux => Or.inl (h₁.solver.order.mem x hx hdx hux))
          fun _ => hA
      exact ⟨none, _, rfl, hframe.nVars.trans hn, hframe.decision.trans hd,
        hframe.assumptions.trans ha,
        hsteps.tail hstep, hready, hframe.conflict.trans (hconf₁.trans hconf), hassumed,
        hpot.trans_lt hpot'⟩
  | .next none =>
      obtain ⟨h₁, hconf₁, hall⟩ := hpost
      obtain ⟨r, o, hpick, hok, holt, hord, homem, hpost⟩ :=
        pickBranchVar_spec h₁.solver.order (Nat.lt_succ_self _)
      simp only [Solver.pickBranchLit, hpick, Option.map_some]
      cases r with
      | none =>
          refine ⟨some l_True, _, rfl, hn, hd, ha, hsteps, ⟨⟨h₁.solver.core, h₁.solver.prop,
            h₁.solver.orig,
              ⟨hok, holt, fun x hx hdx hux => (homem x hx hdx hux).resolve_right (by simp), hord,
              h₁.solver.order.inc⟩,
            h₁.solver.seen, h₁.solver.ok⟩, hconf₁.trans hconf, fun p hp => ?_,
              fun x hx hdx hux => ?_⟩,
            by simp⟩
          · obtain ⟨k, hk⟩ := List.mem_iff_getElem?.mp hp
            exact (h₁.assumed.holds hk ((List.getElem?_eq_some_iff.mp hk).1.trans_le hall)).1
          · have hx' := (homem x hx hdx hux).resolve_right (by simp)
            rw [hpost] at hx'
            exact absurd hx' List.not_mem_nil
      | some x =>
          obtain ⟨hux, hdx, hx, -⟩ := hpost
          have hu : s₁.value (mkLit x (s₁.polarity x)) = l_Undef := by
            refine (h₁.solver.core.trail.value_undef _).mpr ?_
            have hno := (h₁.solver.core.trail.valueVar_undef x).mp hux
            exact ⟨fun hp => hno _ hp (by simp), fun hp => hno _ hp (by simp)⟩
          obtain ⟨hready, hframe, hassumed, hpot', hstep⟩ := decideLit_spec h₁ hu
            (by simpa using hx) hok holt hord
            (fun y hy hdy huy => (homem y hy hdy huy).imp_right fun heq => by simpa using heq.symm)
            fun hlt' => absurd hall (Nat.not_le_of_lt hlt')
          exact ⟨none, _, rfl, hframe.nVars.trans hn, hframe.decision.trans hd,
            hframe.assumptions.trans ha, hsteps.tail hstep, hready,
            hframe.conflict.trans (hconf₁.trans hconf), hassumed, hpot.trans_lt hpot'⟩

end

end ExtFolding.Minisat
