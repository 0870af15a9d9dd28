import ExtFolding.Minisat.Simplify

/-!
# `memin/minisat/core/Solver.cpp`: learning from a conflict

After a conflict the clause that has been learned is stored, the levels above the one it names are
taken back, and its first literal is enqueued: a backjump of the search.
-/

namespace ExtFolding.Minisat

open Cdcl LBool

variable {F : Type} [Double F]

/-! ## The code -/

namespace Solver

variable (s : Solver F)

/-- The learnt clause is stored, and its first literal enqueued. -/
def learn : List Lit → Option (Solver F)
  | [] => none
  | [p] => some (s.uncheckedEnqueue p none)
  | p :: q :: tail => do
      let r ← s.store (p :: q :: tail) true
      let s' : Solver F := { s with
        toDatabase := r.2, claActivity := Function.update s.claActivity r.1 (Double.ofInt 0) }
      return (s'.claBumpActivity r.1).uncheckedEnqueue p (some r.1)

/-- `if (--learntsize_adjust_cnt == 0)` -/
def adjustLearntsize : Solver F :=
  if s.learntsize_adjust_cnt - 1 = 0 then
    let confl := s.learntsize_adjust_confl * learntsize_adjust_inc
    { s with
      learntsize_adjust_confl := confl
      learntsize_adjust_cnt := Double.toInt confl
      max_learnts := s.max_learnts * learntsize_inc }
  else { s with learntsize_adjust_cnt := s.learntsize_adjust_cnt - 1 }

/-- What `search` does with a conflict above level 0. -/
def handleConflict (confl : ℕ) : Option (Solver F) := do
  let r ← s.analyze confl
  let s' ← (r.1.cancelUntil r.2.2).learn r.2.1
  return s'.varDecayActivity.claDecayActivity.adjustLearntsize

end Solver

/-! ## Taking back levels -/

section

variable {N : Set (List Lit)} {done : List Lit} {level : ℕ}

theorem CoreOk.cancelUntil {s : Core} (h : CoreOk N s) (hlev : level ≤ s.decisionLevel) :
    CoreOk N { s with toAssignment := s.toAssignment.cancelUntil level } := by
  refine ⟨h.trail.cancelUntil level, ?_, h.watch, h.removed, h.reason.cancelUntil h.trail level,
    h.implied, ?_⟩
  · show DbOk (s.toAssignment.cancelUntil level).nVars s.toDatabase
    rw [TrailOk.nVars_cancelUntil]
    exact h.db
  · show Ok N (s.toAssignment.cancelUntil level).abs
    rw [h.trail.abs_cancelUntil hlev]
    exact Ok.cut h.search

theorem OrigOk.cancelUntil {s : Core} (h : OrigOk N s) (ht : TrailOk s.toAssignment) :
    OrigOk N { s with toAssignment := s.toAssignment.cancelUntil level } := by
  refine h.mono (fun p hp h0 => ⟨?_, (TrailOk.level_cancelUntil _).trans h0⟩)
    fun {cr c} hc hl => Or.inr ⟨cr, c, hc, hl, List.Subset.refl _⟩
  exact ((ht.trail_cancelUntil level).2 p).mpr ⟨hp, h0.le.trans (Nat.zero_le _)⟩

theorem SolverOk.cancelUntil [LawfulDouble F] {s : Solver F} (h : SolverOk N done s)
    (hlev : level ≤ s.decisionLevel)
    (hsub : (s.toAssignment.cancelUntil level).trail ⊆ done) :
    SolverOk N (s.toAssignment.cancelUntil level).trail (s.cancelUntil level) ∧
      Frame s (s.cancelUntil level) ∧
      (s.cancelUntil level).toCore =
        { s.toCore with toAssignment := s.toAssignment.cancelUntil level } := by
  obtain ⟨o, f, hrun, horder⟩ := cancelUntil_spec h.core.trail h.order level
  rw [hrun] at horder ⊢
  exact ⟨⟨h.core.cancelUntil hlev, PropInv.cancelUntil h.prop h.core.trail level hsub,
    h.orig.cancelUntil h.core.trail, horder, h.seen, h.ok⟩,
    ⟨TrailOk.nVars_cancelUntil, rfl, rfl, rfl⟩, rfl⟩

theorem SolverOk.tuned {s s' : Solver F} (h : SolverOk N done s) (ht : Tuned s s') :
    SolverOk N done s' ∧ Frame s s' := by
  have horder := ht.orderOk h.order
  obtain ⟨a, i, ca, ci, o, rfl, -⟩ := ht
  exact ⟨⟨h.core, h.prop, h.orig, horder, h.seen, h.ok⟩, ⟨rfl, rfl, rfl, rfl⟩⟩

/-- What was on the trail before the last level began has been propagated. -/
theorem cancelUntil_subset {s s' : Core} (hs : CoreOk N s) (hp : Propagated N s s')
    (hlev : level < s'.decisionLevel) :
    (s'.toAssignment.cancelUntil level).trail ⊆ s.trail.take s.qhead := by
  have hlim : s'.trail_lim.getD level 0 ∈ s.trail_lim :=
    hp.trail_lim ▸ TrailOk.lim_getD_mem (s := s'.toAssignment) hlev
  have hle := hs.trail.lim_le _ hlim
  have htake : s'.trail.take (s'.trail_lim.getD level 0) = s.trail.take
    (s'.trail_lim.getD level 0) := by
    obtain ⟨new, hnew⟩ := hp.trail
    rw [← hnew, List.take_append_of_le_length (hle.trans hs.trail.qhead_le)]
  rw [TrailOk.cancelUntil_of_lt hlev]
  show s'.trail.take _ ⊆ _
  rw [htake]
  intro p hp'
  obtain ⟨i, hi⟩ := List.mem_iff_getElem?.mp hp'
  rw [List.getElem?_take] at hi
  split at hi
  · next hlt =>
      exact List.mem_of_getElem? (i := i) (by rwa [List.getElem?_take, if_pos (hlt.trans_le hle)])
  · cases hi

end

/-! ## The learnt clause -/

section

variable {N : Set (List Lit)} {s : Solver F} {p : Lit} {rest : List Lit}

/-- The clause is unit on the trail that is left. -/
structure Unit (N : Set (List Lit)) (s : Core) (p : Lit) (rest : List Lit) : Prop where
  follows : Entails N (p :: rest)
  undef : s.value p = l_Undef
  lt : ∀ q ∈ p :: rest, q.var < s.nVars
  nodup : (p :: rest).Nodup
  neg_trail : ∀ q ∈ rest, -q ∈ s.trail
  nil : rest = [] → s.decisionLevel = 0
  second : ∀ b tail, rest = b :: tail → s.level b.var = s.decisionLevel

theorem Unit.search {s : Core} (h : Unit N s p rest) (hs : CoreOk N s) (source : Option ℕ) :
    Ok N (s.uncheckedEnqueue p source).abs := by
  have hok := hs.search
  rw [hs.trail.abs_enqueue h.undef]
  refine hok.push (hs.trail.undef_abs.mpr h.undef) fun h0 => ?_
  rw [show s.abs = ⟨s.abs.trail, 0⟩ by rw [← h0]; rfl] at hok
  refine hok.unit h.follows fun q hq hne => TrailOk.isTrue_abs.mpr (h.neg_trail q ?_)
  exact (List.mem_cons.mp hq).resolve_left hne

theorem SolverOk.ready_enqueue {source : Option ℕ} (hq : s.qhead = s.trail.length)
    (h : SolverOk N s.trail (s.uncheckedEnqueue p source)) :
      Ready N (s.uncheckedEnqueue p source) := by
  refine h.mono ?_
  show (s.trail ++ [p]).take s.qhead ⊆ s.trail
  rw [hq, List.take_left]
  exact List.Subset.refl _

theorem learn_spec (h : SolverOk N s.trail s) (hq : s.qhead = s.trail.length)
    (hunit : Unit N s.toCore p rest) :
    ∃ s' source, s.learn (p :: rest) = some s' ∧ Ready N s' ∧ Frame s s' ∧
      s'.toAssignment = s.toAssignment.uncheckedEnqueue p source ∧
      (source = none → s.decisionLevel = 0) := by
  have hp := hunit.lt p List.mem_cons_self
  cases rest with
  | nil =>
      have h0 := hunit.nil rfl
      have hreason := h.core.reason.enqueue_none h.core.trail hunit.undef (Or.inl h0)
      have hok := h.enqueue hunit.undef hp hreason (hunit.search h.core none) (List.Subset.refl _)
      exact ⟨_, none, rfl, hok.ready_enqueue hq, ⟨rfl, rfl, rfl, rfl⟩, rfl, fun _ => h0⟩
  | cons b tail =>
      obtain ⟨d, hstore, hcore, hca⟩ := store_spec true h.core (by simp) hunit.nodup
        hunit.lt hunit.follows
      simp only [Solver.learn, hstore, Option.bind_eq_bind, Option.bind_some]
      have hlive : ∀ {cr c}, Live d.ca cr c ↔ cr = s.nextRef ∧ c = ⟨p :: b :: tail, true, false⟩ ∨
          cr ≠ s.nextRef ∧ Live s.ca cr c := by
        intro cr c
        rw [hca]
        exact live_update rfl
      have hnew : Live d.ca s.nextRef ⟨p :: b :: tail, true, false⟩ := hlive.mpr (Or.inl ⟨rfl, rfl⟩)
      have hbump := claBumpActivity_tuned s.nextRef (s := { s with
        toDatabase := d, claActivity := Function.update s.claActivity s.nextRef (Double.ofInt 0) })
      have horder : OrderOk { s with
          toDatabase := d
          claActivity := Function.update s.claActivity s.nextRef (Double.ofInt 0) } :=
        h.order.congr rfl rfl rfl rfl rfl rfl
      have horder' := hbump.orderOk horder
      obtain ⟨a, i, ca, ci, o, heq, -⟩ := hbump
      rw [heq] at horder' ⊢
      have hreason := hcore.reason.enqueue hcore.trail hunit.undef hnew rfl hunit.neg_trail
      have hcore' := hcore.enqueue hunit.undef hp hreason (hunit.search h.core (some s.nextRef))
      refine ⟨_, some s.nextRef, rfl, SolverOk.ready_enqueue hq ?_, ⟨rfl, rfl, rfl, rfl⟩, rfl,
        fun h => absurd h (Option.some_ne_none _)⟩
      refine ⟨hcore', fun {cr c} hc l hl hd => ?_, ?_, ?_, h.seen, h.ok⟩
      · rcases hlive.mp hc with ⟨-, rfl⟩ | ⟨-, hc⟩
        · rcases List.mem_cons.mp hl with rfl | hl
          · exact absurd hd ((h.core.trail.value_undef l).mp hunit.undef).2
          · -- the second literal became false on this level, the first is true now
            obtain rfl := List.mem_singleton.mp hl
            refine ⟨p, List.mem_cons_self, List.mem_append_right _ List.mem_cons_self, ?_⟩
            refine (TrailOk.level_enqueue_self (s := s.toAssignment)).le.trans ?_
            rw [← hunit.second l tail rfl, ← Lit.var_neg]
            exact (h.core.trail.level_enqueue hunit.undef hd).ge
        · exact (h.prop hc l hl hd).enqueue h.core.trail hunit.undef hd
      · exact (h.orig.store h.core rfl hca).enqueue h.core.trail hunit.undef
      · exact horder'.grow hcore.trail hcore'.trail (List.subset_append_left _ _) rfl rfl
          rfl rfl rfl

/-- The clause that has been learned is unit on the level to go back to. -/
theorem Analyzed.unit {s : Core} {out : List Lit} {bt : ℕ} (h : Analyzed N s out bt)
    (hs : CoreOk N s) :
    ∃ p rest, out = p :: rest ∧
      Unit N { s with toAssignment := s.toAssignment.cancelUntil bt } p rest ∧
      Step N s.abs ⟨(p, bt) :: s.abs.trail.cut bt, bt⟩ := by
  obtain ⟨p, rest, rfl, hp, hrest, hnil, hsecond⟩ := h.asserting
  have hmem := (hs.trail.trail_cancelUntil bt).2
  have hlevel := TrailOk.decisionLevel_cancelUntil h.lt.le
  have hneg := h.neg_trail p List.mem_cons_self
  have hleft : ∀ q ∈ rest, -q ∈ (s.toAssignment.cancelUntil bt).trail := by
    intro q hq
    refine (hmem (-q)).mpr ⟨h.neg_trail q (List.mem_cons_of_mem _ hq), ?_⟩
    rw [Lit.var_neg]
    exact (hrest q hq).2
  have hundef : (s.toAssignment.cancelUntil bt).value p = l_Undef := by
    rw [(hs.trail.cancelUntil bt).value_undef]
    refine ⟨fun hpt => ?_, fun hnt => ?_⟩
    · exact hs.trail.not_both ((hmem p).mp hpt).1 hneg
    · have := ((hmem (-p)).mp hnt).2
      rw [Lit.var_neg, hp] at this
      exact absurd h.lt (Nat.not_lt_of_le this)
  have hnodup : (p :: rest).Nodup := List.Nodup.of_map Lit.var h.nodup
  refine ⟨p, rest, rfl, ⟨h.follows, hundef, fun q hq => ?_, hnodup, hleft, fun hn => ?_,
    fun b tail hb => ?_⟩,
    ?_⟩
  · show q.var < (s.toAssignment.cancelUntil bt).nVars
    rw [TrailOk.nVars_cancelUntil, ← Lit.var_neg]
    exact hs.trail.lt _ (h.neg_trail q hq)
  · exact hlevel.trans (hnil hn)
  · exact (TrailOk.level_cancelUntil _).trans ((hsecond b tail hb).trans hlevel.symm)
  · have hcut := hs.trail.abs_cancelUntil h.lt.le
    have hcut' : s.abs.trail.cut bt = (s.toAssignment.cancelUntil bt).abs.trail := by rw [hcut]
    refine Step.backjump h.lt h.follows List.mem_cons_self (fun q hq hne => ?_) ?_
    · show (s.abs.trail.cut bt).IsTrue (-q)
      rw [hcut']
      exact TrailOk.isTrue_abs.mpr (hleft q ((List.mem_cons.mp hq).resolve_left hne))
    · show (s.abs.trail.cut bt).Undef p
      rw [hcut']
      exact (hs.trail.cancelUntil bt).undef_abs.mpr hundef

/-- What comes after a conflict changes numbers only. -/
theorem Ready.decay [LawfulDouble F] (h : Ready N s) :
    (s.varDecayActivity.claDecayActivity.adjustLearntsize).toCore = s.toCore ∧
      Frame s s.varDecayActivity.claDecayActivity.adjustLearntsize ∧
      Ready N s.varDecayActivity.claDecayActivity.adjustLearntsize := by
  have hdecay : Ready N s.varDecayActivity := (SolverOk.tuned h varDecayActivity_tuned).1
  unfold Solver.adjustLearntsize
  split
  · exact ⟨rfl, ⟨rfl, rfl, rfl, rfl⟩, SolverOk.congr hdecay rfl rfl rfl rfl rfl rfl rfl⟩
  · exact ⟨rfl, ⟨rfl, rfl, rfl, rfl⟩, SolverOk.congr hdecay rfl rfl rfl rfl rfl rfl rfl⟩

/-- A conflict above level 0 is answered by the backjump that the learnt clause asks for. -/
theorem handleConflict_spec [LawfulDouble F] {done : List Lit} {cr : ℕ} (h : SolverOk N done s)
    (hconf : Conflict s.toCore cr) (hk : 0 < s.decisionLevel)
    (hsub : ∀ level, level < s.decisionLevel → (s.toAssignment.cancelUntil level).trail ⊆ done) :
    ∃ s₁ p rest bt s' source, s.analyze cr = some (s₁, p :: rest, bt) ∧
      Analyzed N s.toCore (p :: rest) bt ∧
      Unit N { s.toCore with toAssignment := s.toAssignment.cancelUntil bt } p rest ∧
      s.handleConflict cr = some s' ∧ Ready N s' ∧ Frame s s' ∧
      s'.abs = ⟨(p, bt) :: s.abs.trail.cut bt, bt⟩ ∧ Step N s.abs s'.abs ∧
      s'.toAssignment = (s.toAssignment.cancelUntil bt).uncheckedEnqueue p source ∧
      (source = none → bt = 0) := by
  obtain ⟨s₁, out, bt, hrun, htuned, han⟩ := analyze_spec h.core h.seen hconf hk
  obtain ⟨h₁, hframe₁⟩ := h.tuned htuned
  have hcore₁ := htuned.toCore
  obtain ⟨p, rest, rfl, hunit, hstep⟩ := han.unit h.core
  have hbt : bt ≤ s₁.decisionLevel := by
    rw [hcore₁]
    exact han.lt.le
  obtain ⟨h₂, hframe₂, hcore₂⟩ := h₁.cancelUntil hbt (by rw [hcore₁]; exact hsub bt han.lt)
  rw [hcore₁] at hcore₂ h₂
  have hassign₂ : (s₁.cancelUntil bt).toAssignment = s.toAssignment.cancelUntil bt := by rw [hcore₂]
  have hqhead : (s₁.cancelUntil bt).qhead = (s₁.cancelUntil bt).trail.length := by
    rw [hassign₂, TrailOk.cancelUntil_of_lt han.lt]
    show _ = (s.trail.take _).length
    rw [List.length_take]
    exact (min_eq_left (h.core.trail.lim_getD_le han.lt)).symm
  obtain ⟨s₃, source, hlearn, h₃, hframe₃, hassign₃, hsource⟩ :=
    learn_spec (s := s₁.cancelUntil bt) (by rwa [hassign₂]) hqhead (by rwa [hcore₂])
  rw [hassign₂] at hassign₃ hsource
  obtain ⟨hcore₄, hframe₄, h₄⟩ := h₃.decay
  have hassign₄ : (s₃.varDecayActivity.claDecayActivity.adjustLearntsize).toAssignment =
      (s.toAssignment.cancelUntil bt).uncheckedEnqueue p source := by
    rw [hcore₄]
    exact hassign₃
  have habs : (s₃.varDecayActivity.claDecayActivity.adjustLearntsize).abs =
      ⟨(p, bt) :: s.abs.trail.cut bt, bt⟩ := by
    rw [hassign₄, (h.core.trail.cancelUntil bt).abs_enqueue hunit.undef,
      TrailOk.decisionLevel_cancelUntil han.lt.le, h.core.trail.abs_cancelUntil han.lt.le]
  refine ⟨s₁, p, rest, bt, _, source, hrun, han, hunit, ?_, h₄,
    ((hframe₁.trans hframe₂).trans hframe₃).trans hframe₄, habs, habs ▸ hstep, hassign₄,
    fun hnone => ?_⟩
  · unfold Solver.handleConflict
    simp only [hrun, Option.bind_eq_bind, Option.bind_some, hlearn]
    rfl
  · rw [← TrailOk.decisionLevel_cancelUntil (s := s.toAssignment) han.lt.le]
    exact hsource hnone

end

end ExtFolding.Minisat
