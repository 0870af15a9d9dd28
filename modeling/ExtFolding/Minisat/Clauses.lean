import ExtFolding.Minisat.Propagate

/-!
# `memin/minisat/core/Solver.cpp`: storing and removing clauses

A clause that is stored is watched at its first two literals. Clauses that are true at level 0 may
be removed, and learnt ones that are no reason; what has been added to the problem is still there,
or true at level 0.
-/

namespace ExtFolding.Minisat

open Cdcl LBool

/-! ## The code -/

/-- `CRef cr = ca.alloc(ps, learnt); clauses.push(cr); attachClause(cr);`, or `learnts.push(cr)` -/
def Database.store (d : Database) (ps : List Lit) (learnt : Bool) : Option (ℕ × Database) :=
  let r := d.alloc ps learnt
  let d := if learnt then { r.1 with learnts := r.1.learnts ++ [r.2] }
    else { r.1 with clauses := r.1.clauses ++ [r.2] }
  (d.attachClause r.2).map fun d => (r.2, d)

def Assignment.satisfied (s : Assignment) (c : Clause) : Bool := c.lits.any fun p =>
    s.value p = l_True

namespace Core

def locked (s : Core) (cr : ℕ) (c : Clause) : Bool :=
  match c.lits with
  | [] => false
  | a :: _ => s.value a = l_True && s.reason a.var = some cr

/-- `vardata[var(c[0])].reason = CRef_Undef` for a clause that is locked -/
def unlock (s : Core) (cr : ℕ) (c : Clause) : Core :=
  if s.locked cr c then
    let x := (c.lits.headD default).var
    { s with vardata := Function.update s.vardata x { s.vardata x with reason := none } }
  else s

def removeClause (s : Core) (cr : ℕ) : Option Core := do
  let c ← s.ca cr
  let d ← s.detachClause cr
  let s' := Core.unlock { s with toDatabase := d } cr c
  return { s' with toDatabase := s'.markRemoved cr }

/-- `if (test) removeClause(cs[i]); else cs[j++] = cs[i];` from `i` on, with the list that is
left. -/
def removeWhere (test : ℕ → Core → ℕ → Clause → Bool) : ℕ → List ℕ → Core → Option (List ℕ × Core)
  | _, [], s => some ([], s)
  | i, cr :: cs, s => do
      let c ← s.ca cr
      if test i s cr c then
        let s' ← s.removeClause cr
        removeWhere test (i + 1) cs s'
      else
        let r ← removeWhere test (i + 1) cs s
        return (cr :: r.1, r.2)

/-- `removeSatisfied(cs)` -/
def removeSatisfied (s : Core) (cs : List ℕ) : Option (List ℕ × Core) :=
  removeWhere (fun _ s _ c => s.satisfied c) 0 cs s

end Core

/-! ## What was added -/

/-- Each clause of the problem is true at level 0, or always, or there is a clause for it. -/
def OrigOk (N : Set (List Lit)) (s : Core) : Prop :=
  ∀ e ∈ N, (∃ p ∈ e, p ∈ s.trail ∧ s.level p.var = 0) ∨ (∃ p ∈ e, -p ∈ e) ∨
    ∃ cr c, Live s.ca cr c ∧ c.learnt = false ∧ c.lits ⊆ e

section

variable {N M : Set (List Lit)} {s s' s'' : Core} {cr : ℕ} {c : Clause} {ps : List Lit}
  {learnt : Bool}

theorem CoreOk.superset (h : CoreOk N s) (hsub : N ⊆ M) : CoreOk M s :=
  ⟨h.trail, h.db, h.watch, h.removed, h.reason, fun cr c hc => (h.implied cr c hc).superset hsub,
    ⟨h.search.apart, h.search.level, fun e he h0 => (h.search.root e he h0).superset hsub⟩⟩

/-! ## Storing a clause -/

theorem live_update {ca : ℕ → Option Clause} {cr' : ℕ} {c' : Clause} (hm : c.mark = false) :
    Live (Function.update ca cr (some c)) cr' c' ↔ cr' = cr ∧ c' = c ∨ cr' ≠ cr ∧
      Live ca cr' c' := by
  unfold Live
  rcases eq_or_ne cr' cr with rfl | hne
  · rw [Function.update_self]
    constructor
    · rintro ⟨hc, -⟩
      exact Or.inl ⟨rfl, (Option.some.inj hc).symm⟩
    · rintro (⟨-, rfl⟩ | ⟨hne, -⟩)
      · exact ⟨rfl, hm⟩
      · exact absurd rfl hne
  · rw [Function.update_of_ne hne]
    simp [hne]

/-- The lists after `attachClause`. -/
def attached (W : Lit → List Watcher) (cr : ℕ) (a b p : Lit) : List Watcher :=
  if p = -a then W p ++ [⟨cr, b⟩] else if p = -b then W p ++ [⟨cr, a⟩] else W p

theorem store_eq (d : Database) {a b : Lit} (hab : a ≠ b) (tail : List Lit) (learnt : Bool) :
    ∃ x y, d.store (a :: b :: tail) learnt = some (d.nextRef, { d with
      ca := Function.update d.ca d.nextRef (some ⟨a :: b :: tail, learnt, false⟩)
      nextRef := d.nextRef + 1
      clauses := if learnt then d.clauses else d.clauses ++ [d.nextRef]
      learnts := if learnt then d.learnts ++ [d.nextRef] else d.learnts
      clauses_literals := x
      learnts_literals := y
      watches := attached d.watches d.nextRef a b }) := by
  have hne : -b ≠ -a := fun h => hab (neg_injective h).symm
  have hW : Function.update (Function.update d.watches (-a)
    (d.watches (-a) ++ [⟨d.nextRef, b⟩])) (-b)
      (Function.update d.watches (-a) (d.watches (-a) ++ [⟨d.nextRef, b⟩])
        (-b) ++ [⟨d.nextRef, a⟩]) =
      attached d.watches d.nextRef a b := by
    funext p
    rw [Function.update_of_ne hne, Function.update_apply, Function.update_apply, attached]
    by_cases hpa : p = -a
    · subst hpa
      rw [if_neg hne.symm, if_pos rfl, if_pos rfl]
    · rw [if_neg hpa, if_neg hpa]
      by_cases hpb : p = -b
      · rw [if_pos hpb, if_pos hpb, hpb]
      · rw [if_neg hpb, if_neg hpb]
  refine ⟨if learnt then d.clauses_literals else d.clauses_literals + (a :: b :: tail).length,
    if learnt then d.learnts_literals + (a :: b :: tail).length else d.learnts_literals, ?_⟩
  rw [← hW]
  cases learnt
  · simp [Database.store, Database.attachClause, Database.alloc, Database.watch,
      Database.countLiterals]
  · simp [Database.store, Database.attachClause, Database.alloc, Database.watch,
      Database.countLiterals]

section attach

variable {ca : ℕ → Option Clause} {W : Lit → List Watcher} {a b : Lit} {tail : List Lit}

theorem WatchOk.attach (h : WatchOk ca W) (hnew : ∀ p, cr ∉ (W p).map Watcher.cref)
    (hc : c.lits = a :: b :: tail) (hm : c.mark = false) :
    WatchOk (Function.update ca cr (some c)) (attached W cr a b) := by
  have hw : c.watched = [a, b] := by rw [Clause.watched, hc]; rfl
  constructor
  · intro cr' c' hc' p
    unfold attached
    rcases (live_update hm).mp hc' with ⟨rfl, rfl⟩ | ⟨hne, hc'⟩
    · rw [hw, List.mem_cons, List.mem_singleton, neg_eq_iff_eq_neg, neg_eq_iff_eq_neg]
      split
      · next hp => simp [hp]
      · next hpa =>
          split
          · next hp => simp [hp]
          · next hpb =>
              simp only [hpa, hpb, or_self, iff_false]
              exact hnew p
    · have hp := h.mem hc' p
      split
      · rw [← hp]
        simp [hne]
      · split
        · rw [← hp]
          simp [hne]
        · exact hp
  · intro p w c' hwp hc'
    unfold attached at hwp
    have hcase : w ∈ W p ∨ w.cref = cr ∧ w.blocker ∈ c.lits := by
      rw [hc]
      split at hwp
      · rcases List.mem_append.mp hwp with hwp | hwp
        · exact Or.inl hwp
        · rw [List.mem_singleton.mp hwp]
          exact Or.inr ⟨rfl, List.mem_cons_of_mem _ List.mem_cons_self⟩
      · split at hwp
        · rcases List.mem_append.mp hwp with hwp | hwp
          · exact Or.inl hwp
          · rw [List.mem_singleton.mp hwp]
            exact Or.inr ⟨rfl, List.mem_cons_self⟩
        · exact Or.inl hwp
    rcases hcase with hwp | ⟨hcr, hb⟩
    · rcases (live_update hm).mp hc' with ⟨hcr, -⟩ | ⟨-, hc'⟩
      · exact absurd (hcr ▸ List.mem_map_of_mem hwp) (hnew p)
      · exact h.blocker hwp hc'
    · rcases (live_update hm).mp hc' with ⟨-, rfl⟩ | ⟨hne, -⟩
      · exact hb
      · exact absurd hcr hne
  · intro p
    unfold attached
    have hadd : ∀ x : Lit, ((W p ++ [(⟨cr, x⟩ : Watcher)]).map Watcher.cref).Nodup := by
      intro x
      rw [List.map_append, List.nodup_append]
      refine ⟨h.nodup p, List.nodup_singleton _, fun y hy z hz heq => hnew p ?_⟩
      have hyc : y = cr := heq.trans (List.mem_singleton.mp hz)
      exact hyc ▸ hy
    split
    · exact hadd b
    · split
      · exact hadd a
      · exact h.nodup p

theorem mem_attached {w : Watcher} {p : Lit} (hw : w ∈ attached W cr a b p) :
    w ∈ W p ∨ w.cref = cr := by
  unfold attached at hw
  split at hw
  · exact (List.mem_append.mp hw).imp_right fun h => by rw [List.mem_singleton.mp h]
  · split at hw
    · exact (List.mem_append.mp hw).imp_right fun h => by rw [List.mem_singleton.mp h]
    · exact Or.inl hw

end attach

/-- A new clause, of literals that occur once. -/
theorem DbOk.attach {nVars : ℕ} {d d' : Database} (h : DbOk nVars d) (hlen : 2 ≤ ps.length)
    (hnodup : ps.Nodup) (hlt : ∀ p ∈ ps, p.var < nVars)
    (hca : d'.ca = Function.update d.ca d.nextRef (some ⟨ps, learnt, false⟩))
    (hnext : d'.nextRef = d.nextRef + 1)
    (hrefs : ∀ b, d'.refs b = if b = learnt then d.refs b ++ [d.nextRef] else d.refs b) :
    DbOk nVars d' := by
  have hlive : ∀ {cr c}, Live d'.ca cr c ↔
      cr = d.nextRef ∧ c = ⟨ps, learnt, false⟩ ∨ cr ≠ d.nextRef ∧ Live d.ca cr c := by
    intro cr c
    rw [hca]
    exact live_update rfl
  have hold : ∀ {cr c}, Live d.ca cr c → cr ≠ d.nextRef := by
    rintro cr c hc rfl
    exact absurd hc.1 (by rw [h.fresh _ le_rfl]; exact (Option.some_ne_none c).symm)
  constructor
  · intro cr hcr
    rw [hnext] at hcr
    rw [hca, Function.update_of_ne (Nat.lt_of_succ_le hcr).ne']
    exact h.fresh cr (Nat.le_of_succ_le hcr)
  · intro cr c hc
    rw [hca, Function.update_apply] at hc
    split at hc
    · cases hc
      exact hlen
    · exact h.two hc
  · intro cr c hc
    rcases hlive.mp hc with ⟨-, rfl⟩ | ⟨-, hc⟩
    · exact hnodup
    · exact h.nodup hc
  · intro cr c hc
    rcases hlive.mp hc with ⟨-, rfl⟩ | ⟨-, hc⟩
    · exact hlt
    · exact h.lt hc
  · intro b cr
    have hmem : cr ∈ d'.refs b ↔ cr ∈ d.refs b ∨ cr = d.nextRef ∧ b = learnt := by
      rw [hrefs]
      by_cases hb : b = learnt <;> simp [hb]
    rw [hmem, h.mem_refs]
    constructor
    · rintro (⟨c, hc, hb⟩ | ⟨rfl, rfl⟩)
      · exact ⟨c, hlive.mpr (Or.inr ⟨hold hc, hc⟩), hb⟩
      · exact ⟨_, hlive.mpr (Or.inl ⟨rfl, rfl⟩), rfl⟩
    · rintro ⟨c, hc, hb⟩
      rcases hlive.mp hc with ⟨rfl, rfl⟩ | ⟨-, hc⟩
      · exact Or.inr ⟨rfl, hb.symm⟩
      · exact Or.inl ⟨c, hc, hb⟩
  · intro b
    rw [hrefs]
    split
    · refine List.nodup_append.mpr ⟨h.refs_nodup b, List.nodup_singleton _, fun x hx y hy heq => ?_⟩
      obtain ⟨c, hc, -⟩ := (h.mem_refs b x).mp hx
      exact hold hc (heq.trans (List.mem_singleton.mp hy))
    · exact h.refs_nodup b

theorem store_spec (learnt : Bool) (hs : CoreOk N s) (hlen : 2 ≤ ps.length) (hnodup : ps.Nodup)
    (hlt : ∀ p ∈ ps, p.var < s.nVars) (hent : Entails N ps) :
    ∃ d, s.store ps learnt = some (s.nextRef, d) ∧ CoreOk N { s with toDatabase := d } ∧
      d.ca = Function.update s.ca s.nextRef (some ⟨ps, learnt, false⟩) := by
  obtain ⟨a, b, tail, rfl⟩ : ∃ a b tail, ps = a :: b :: tail :=
    exists_lits (c := ⟨ps, learnt, false⟩) hlen
  have hab : a ≠ b := by
    rintro rfl
    simp at hnodup
  have hfresh : s.ca s.nextRef = none := hs.db.fresh _ le_rfl
  -- no watcher knows the new clause
  have hnew : ∀ p, s.nextRef ∉ (s.watches p).map Watcher.cref := by
    intro p hmem
    obtain ⟨w, hw, heq⟩ := List.mem_map.mp hmem
    obtain ⟨c', hc', -⟩ := hs.removed.alive p w hw
    rw [heq, hfresh] at hc'
    cases hc'
  obtain ⟨x, y, hrun⟩ := store_eq s.toDatabase hab tail learnt
  refine ⟨_, hrun, ⟨hs.trail, hs.db.attach hlen hnodup hlt rfl rfl fun b => ?_,
    hs.watch.attach hnew rfl rfl, ⟨fun p w hw => ?_, hs.removed.dirties⟩, ?_, ?_, hs.search⟩, rfl⟩
  · cases b <;> cases learnt <;> rfl
  · show ∃ c', Function.update s.ca s.nextRef _ w.cref = some c' ∧ _
    rcases mem_attached hw with hw | hcr
    · obtain ⟨c', hc', hm⟩ := hs.removed.alive p w hw
      have hne : w.cref ≠ s.nextRef := fun heq => hnew p (heq ▸ List.mem_map_of_mem hw)
      exact ⟨c', (Function.update_of_ne hne _ _).trans hc', hm⟩
    · rw [hcr]
      exact ⟨_, Function.update_self _ _ _, fun h => absurd h Bool.false_ne_true⟩
  · refine hs.reason.reorder fun {cr' c' p rest} hc' hlits _ _ => ?_
    refine ⟨c', rest, (live_update rfl).mpr (Or.inr ⟨?_, hc'⟩), hlits, List.Subset.refl _⟩
    rintro rfl
    exact absurd hc'.1 (by rw [hfresh]; exact (Option.some_ne_none c').symm)
  · intro cr' c' hc'
    rcases (live_update rfl).mp hc' with ⟨-, rfl⟩ | ⟨-, hc'⟩
    · exact hent
    · exact hs.implied cr' c' hc'

/-! ## Removing clauses -/

/-- The lists of clauses while one of them is gone through. -/
def Core.withRefs (s : Core) (R : Bool → List ℕ) : Core :=
  { s with clauses := R false, learnts := R true }

theorem refs_withRefs (R : Bool → List ℕ) (b : Bool) : (s.withRefs R).refs b = R b := by
  cases b <;> rfl

/-- Clauses for which `P` holds may have been removed, and are no reasons any more. -/
structure Trimmed (P : Clause → Prop) (s s' : Core) : Prop where
  assignment : s'.toAssignment = { s.toAssignment with vardata := s'.vardata }
  level : ∀ x, s'.level x = s.level x
  live : ∀ {cr c}, Live s'.ca cr c → Live s.ca cr c
  gone : ∀ {cr c}, Live s.ca cr c → Live s'.ca cr c ∨ P c
  reason : ∀ x, s'.reason x = s.reason x ∨ s.decisionLevel = 0

namespace Trimmed

variable {P Q : Clause → Prop}

theorem refl (s : Core) : Trimmed P s s := ⟨rfl, fun _ => rfl, id, Or.inl, fun _ => Or.inl rfl⟩

theorem trail_lim (h : Trimmed P s s') : s'.trail_lim = s.trail_lim := by rw [h.assignment]

theorem decisionLevel (h : Trimmed P s s') : s'.decisionLevel = s.decisionLevel :=
  congrArg List.length h.trail_lim

theorem trans (h : Trimmed P s s') (h' : Trimmed P s' s'') : Trimmed P s s'' := by
  refine ⟨?_, fun x => (h'.level x).trans (h.level x), fun hc => h.live (h'.live hc), fun hc => ?_,
    fun x => ?_⟩
  · rw [h'.assignment, h.assignment]
  · rcases h.gone hc with hc | hP
    · exact h'.gone hc
    · exact Or.inr hP
  · rcases h'.reason x with hx | h0
    · rw [hx]
      exact h.reason x
    · exact Or.inr (h.decisionLevel.symm.trans h0)

theorem mono (h : Trimmed P s s') (hPQ : ∀ c, P c → Q c) : Trimmed Q s s' :=
  ⟨h.assignment, h.level, h.live, fun hc => (h.gone hc).imp_right (hPQ _), h.reason⟩

theorem trail (h : Trimmed P s s') : s'.trail = s.trail := by rw [h.assignment]

theorem nVars (h : Trimmed P s s') : s'.nVars = s.nVars := by rw [h.assignment]

theorem value (h : Trimmed P s s') (p : Lit) : s'.value p = s.value p := by rw [h.assignment]; rfl

theorem qhead (h : Trimmed P s s') : s'.qhead = s.qhead := by rw [h.assignment]

theorem abs (h : Trimmed P s s') : s'.abs = s.abs := abs_congr h.trail h.trail_lim h.level

theorem grows (h : Trimmed P s s') : Extends s.toAssignment s'.toAssignment :=
  ⟨h.trail ▸ List.prefix_rfl, h.trail_lim, fun p _ => h.level p.var⟩

theorem propInv (h : Trimmed P s s') {done : List Lit} (hi : PropInv s.toAssignment s.ca done) :
    PropInv s'.toAssignment s'.ca done := by
  intro cr c hc l hl hd
  obtain ⟨r, hr, hrt, hlev⟩ := hi (h.live hc) l hl hd
  refine ⟨r, hr, ?_, ?_⟩
  · rw [h.trail]
    exact hrt
  · rw [h.level, h.level]
    exact hlev

end Trimmed

theorem smudge_spec (d : Database) (p : Lit) (hd : ∀ q, d.dirty q = true → q ∈ d.dirties) :
    ∃ l, d.smudge p = { d with dirty := Function.update d.dirty p true, dirties := l } ∧
      ∀ q, Function.update d.dirty p true q = true → q ∈ l := by
  unfold Database.smudge
  by_cases hp : d.dirty p = true
  · have hself : Function.update d.dirty p true = d.dirty := by rw [← hp, Function.update_eq_self]
    rw [if_pos hp, hself]
    exact ⟨_, rfl, hd⟩
  · rw [if_neg hp]
    refine ⟨_, rfl, fun q hq => ?_⟩
    rw [Function.update_apply] at hq
    split at hq
    · next heq => exact List.mem_append_right _ (by rw [heq]; exact List.mem_cons_self)
    · exact List.mem_append_left _ (hd q hq)

theorem detachClause_eq {d : Database} {a b : Lit} {tail : List Lit} (hc : d.ca cr = some c)
    (hlits : c.lits = a :: b :: tail) (hd : ∀ q, d.dirty q = true → q ∈ d.dirties) :
    ∃ D l x y, d.detachClause cr = some { d with
        dirty := D, dirties := l, clauses_literals := x, learnts_literals := y } ∧
      (∀ q, D q = true ↔ q = -a ∨ q = -b ∨ d.dirty q = true) ∧ ∀ q, D q = true → q ∈ l := by
  obtain ⟨l, hl, hmem⟩ := smudge_spec d (-a) hd
  obtain ⟨l', hl', hmem'⟩ := smudge_spec (d.smudge (-a)) (-b) (by rw [hl]; exact hmem)
  have hD : ∀ q, Function.update (d.smudge (-a)).dirty (-b) true q = true ↔
      q = -a ∨ q = -b ∨ d.dirty q = true := by
    intro q
    rw [hl]
    simp only [Function.update_apply]
    by_cases hqa : q = -a <;> by_cases hqb : q = -b <;> simp [hqa, hqb]
  unfold Database.detachClause Database.countLiterals
  simp only [hc, hlits, Option.bind_eq_bind, Option.bind_some]
  rw [hl', hl] at *
  split
  · exact ⟨_, l', _, _, rfl, hD, hmem'⟩
  · exact ⟨_, l', _, _, rfl, hD, hmem'⟩

theorem unlock_spec (cr : ℕ) (s : Core) {a : Lit} {rest : List Lit} (hlits : c.lits = a :: rest) :
    ∃ V, s.unlock cr c = { s with vardata := V } ∧ (∀ x, (V x).level = s.level x) ∧
      ∀ x, (V x).reason = if x = a.var ∧ s.locked cr c = true then none else s.reason x := by
  unfold Core.unlock
  split
  · next hlock =>
      refine ⟨_, rfl, fun x => ?_, fun x => ?_⟩
      · rw [hlits, List.headD_cons, Function.update_apply]
        split
        · next hx => rw [hx]; rfl
        · rfl
      · rw [hlits, List.headD_cons, Function.update_apply]
        split
        · next hx => rw [if_pos ⟨hx, hlock⟩]
        · next hx => rw [if_neg fun h => hx h.1]; rfl
  · next hlock => exact ⟨_, rfl, fun _ => rfl, fun x => by rw [if_neg fun h => hlock h.2]; rfl⟩

theorem locked_cons {a : Lit} {rest : List Lit} (hlits : c.lits = a :: rest) :
    s.locked cr c = true ↔ s.value a = l_True ∧ s.reason a.var = some cr := by
  rw [Core.locked, hlits]
  simp

/-- A clause that is no reason above level 0 may be removed. -/
theorem removeClause_spec {R : Bool → List ℕ} (hs : CoreOk N (s.withRefs R)) (hc : Live s.ca cr c)
    (hlock : s.decisionLevel = 0 ∨ s.locked cr c = false) :
    ∃ s', s.removeClause cr = some s' ∧
      CoreOk N (s'.withRefs fun b => (R b).filter fun x => x ≠ cr) ∧ Trimmed (· = c) s s' ∧
      ∀ b, s'.refs b = s.refs b := by
  obtain ⟨a, b, tail, hlits⟩ := exists_lits (hs.db.two hc.1)
  obtain ⟨D, l, x, y, hdet, hD, hl⟩ := detachClause_eq hc.1 hlits hs.removed.dirties
  obtain ⟨V, hun, hlevel, hreason⟩ := unlock_spec cr { s with toDatabase := { s.toDatabase with
      dirty := D, dirties := l, clauses_literals := x, learnts_literals := y } } hlits
  have hlocked : Core.locked { s with toDatabase := { s.toDatabase with
      dirty := D, dirties := l, clauses_literals := x, learnts_literals := y } } cr c =
      s.locked cr c := rfl
  rw [hlocked] at hreason
  set ca' := Function.update s.ca cr (some { c with mark := true }) with hca'
  have hrun : s.removeClause cr = some { s with
      vardata := V
      toDatabase := { s.toDatabase with
        ca := ca', dirty := D, dirties := l, clauses_literals := x, learnts_literals := y } } := by
    unfold Core.removeClause
    simp only [hc.1, hdet, Option.bind_eq_bind, Option.bind_some, hun, Database.markRemoved]
    rfl
  have hlive : ∀ {cr' c'}, Live ca' cr' c' ↔ cr' ≠ cr ∧ Live s.ca cr' c' := by
    intro cr' c'
    unfold Live
    rw [hca', Function.update_apply]
    split
    · next heq => simp [heq]; rintro rfl; rfl
    · next hne => simp [hne]
  refine ⟨_, hrun, ⟨?_, ?_, ?_, ?_, ?_, ?_, ?_⟩,
    ⟨rfl, hlevel, fun h => (hlive.mp h).2, fun {cr' c'} h => ?_,
    fun x => ?_⟩, fun b => rfl⟩
  · refine ⟨hs.trail.lt, hs.trail.nodup, hs.trail.value, hs.trail.lim_sorted, hs.trail.lim_le,
      hs.trail.qhead_le, fun i p hi => ?_⟩
    exact (hlevel p.var).trans (hs.trail.level i p hi)
  · refine ⟨fun cr' hcr' => ?_, fun {cr' c'} hc' => ?_, fun h => hs.db.nodup (hlive.mp h).2,
      fun h => hs.db.lt (hlive.mp h).2, fun b' cr' => ?_, fun b' => ?_⟩
    · have hne : cr' ≠ cr := by
        rintro rfl
        have := hs.db.fresh cr' hcr'
        exact absurd hc.1
          (by rw [show s.ca cr' = none from this]; exact (Option.some_ne_none c).symm)
      exact (Function.update_of_ne hne _ _).trans (hs.db.fresh cr' hcr')
    · change ca' cr' = some c' at hc'
      rw [hca', Function.update_apply] at hc'
      split at hc'
      · cases hc'
        have h2 : 2 ≤ c.lits.length := hs.db.two hc.1
        exact h2
      · exact hs.db.two hc'
    · rw [refs_withRefs, List.mem_filter]
      have hmem := hs.db.mem_refs b' cr'
      rw [refs_withRefs] at hmem
      rw [hmem]
      constructor
      · rintro ⟨⟨c', hc', hb⟩, hne⟩
        exact ⟨c', hlive.mpr ⟨of_decide_eq_true hne, hc'⟩, hb⟩
      · rintro ⟨c', hc', hb⟩
        obtain ⟨hne, hc'⟩ := hlive.mp hc'
        exact ⟨⟨c', hc', hb⟩, decide_eq_true hne⟩
    · rw [refs_withRefs]
      have hnodup := hs.db.refs_nodup b'
      rw [refs_withRefs] at hnodup
      exact hnodup.filter _
  · exact ⟨fun h => hs.watch.mem (hlive.mp h).2, fun hw h => hs.watch.blocker hw (hlive.mp h).2,
      hs.watch.nodup⟩
  · refine ⟨fun p w hw => ?_, hl⟩
    obtain ⟨c', hc', hm⟩ := hs.removed.alive p w hw
    show ∃ c', ca' w.cref = some c' ∧ (c'.mark = true → D p = true)
    rcases eq_or_ne w.cref cr with heq | hne
    · refine ⟨{ c with mark := true }, by rw [heq, hca', Function.update_self], fun _ => ?_⟩
      have hmem := (hs.watch.mem hc p).mp (heq ▸ List.mem_map_of_mem hw)
      rw [Clause.watched, hlits, List.take_succ_cons, List.take_succ_cons, List.take_zero,
        List.mem_cons, List.mem_singleton, neg_eq_iff_eq_neg, neg_eq_iff_eq_neg] at hmem
      exact (hD p).mpr (hmem.imp_right Or.inl)
    · exact ⟨c', (Function.update_of_ne hne _ _).trans hc', fun h =>
        (hD p).mpr (Or.inr (Or.inr (hm h)))⟩
  · constructor
    · intro i p cr' hi hr
      change (V p.var).reason = some cr' at hr
      rw [hreason] at hr
      split at hr
      · cases hr
      · next hno =>
          obtain ⟨c', rest, hc', hlits', hrest⟩ := hs.reason.clause hi hr
          refine ⟨c', rest, hlive.mpr ⟨?_, hc'⟩, hlits', hrest⟩
          rintro rfl
          obtain rfl := hc'.unique hc
          rw [hlits] at hlits'
          cases hlits'
          exact hno ⟨rfl, (locked_cons hlits).mpr
            ⟨(hs.trail.value a).mpr (List.mem_of_getElem? hi), hr⟩⟩
    · intro i p hi hr
      change (V p.var).reason = none at hr
      show (V p.var).level = 0 ∨ _
      rw [hreason] at hr
      rw [hlevel]
      split at hr
      · next hyes =>
          refine Or.inl (Nat.le_zero.mp ?_)
          rw [← hlock.resolve_right (by simp [hyes.2])]
          exact hs.trail.level_le (List.mem_of_getElem? hi)
      · exact hs.reason.decision hi hr
  · exact fun cr' c' h => hs.implied cr' c' (hlive.mp h).2
  · have habs : Assignment.abs { s.toAssignment with vardata := V } = s.abs :=
      abs_congr rfl rfl hlevel
    show Ok N (Assignment.abs { s.toAssignment with vardata := V })
    rw [habs]
    exact hs.search
  · rcases eq_or_ne cr' cr with rfl | hne
    · exact Or.inr (h.unique hc)
    · exact Or.inl (hlive.mpr ⟨hne, h⟩)
  · rcases hlock with h0 | hno
    · exact Or.inr h0
    · exact Or.inl ((hreason x).trans (if_neg fun h => by simp [hno] at h))

/-- A loop that removes clauses: which are gone, and which are left. -/
theorem removeWhere_spec {R : Bool → List ℕ} {test : ℕ → Core → ℕ → Clause → Bool}
    {P : Clause → Prop} (i : ℕ) (cs : List ℕ) (hs : CoreOk N (s.withRefs R))
    (hcs : ∀ cr ∈ cs, ∃ b, cr ∈ R b) (hnodup : cs.Nodup)
    (hlock : ∀ i s' cr c, s'.decisionLevel = s.decisionLevel → test i s' cr c = true →
      s'.decisionLevel = 0 ∨ s'.locked cr c = false)
    (hP : ∀ i s' cr c, cr ∈ cs → Live s.ca cr c → (∀ p, s'.value p = s.value p) →
      test i s' cr c = true → P c) :
    ∃ gone s', Core.removeWhere test i cs s = some (cs.filter fun x => x ∉ gone, s') ∧ gone ⊆ cs ∧
      CoreOk N (s'.withRefs fun b => (R b).filter fun x => x ∉ gone) ∧ Trimmed P s s' ∧
      ∀ b, s'.refs b = s.refs b := by
  induction cs generalizing s R i with
  | nil =>
      refine ⟨[], s, rfl, List.Subset.refl _, ?_, .refl s, fun _ => rfl⟩
      simpa using hs
  | cons cr cs ih =>
      obtain ⟨hcr, hcs⟩ := List.forall_mem_cons.mp hcs
      obtain ⟨hno, hnodup⟩ := List.nodup_cons.mp hnodup
      obtain ⟨b, hb⟩ := hcr
      obtain ⟨c, hc, -⟩ := (hs.db.mem_refs b cr).mp (by rwa [refs_withRefs])
      change Live s.ca cr c at hc
      rw [Core.removeWhere]
      simp only [hc.1, Option.bind_eq_bind, Option.bind_some]
      by_cases ht : test i s cr c = true
      · rw [if_pos ht]
        obtain ⟨s₁, hrun, hok, htrim, hrefs⟩ := removeClause_spec hs hc (hlock i s cr c rfl ht)
        have htrim' : Trimmed P s s₁ := htrim.mono fun c' hc' => by
          rw [hc']
          exact hP i s cr c List.mem_cons_self hc (fun _ => rfl) ht
        have hlevel := htrim.decisionLevel
        obtain ⟨gone, s₂, hrun', hsub, hok', htrim'', hrefs'⟩ := ih (i + 1) hok
          (fun cr' hcr' => by
            obtain ⟨b', hb'⟩ := hcs cr' hcr'
            refine ⟨b', List.mem_filter.mpr ⟨hb', decide_eq_true ?_⟩⟩
            rintro rfl
            exact hno hcr') hnodup
          (fun i s' cr c hd => hlock i s' cr c (hd.trans hlevel))
          (fun i s' cr' c' hmem hl hv => hP i s' cr' c' (List.mem_cons_of_mem _ hmem)
            (htrim.live hl)
            fun p => (hv p).trans (htrim.value p))
        refine ⟨cr :: gone, s₂, ?_, List.cons_subset_cons cr hsub, ?_, htrim'.trans htrim'',
          fun b => (hrefs' b).trans (hrefs b)⟩
        · simp only [hrun, Option.bind_some, hrun']
          rw [List.filter_cons_of_neg (by simp)]
          congr 2
          refine List.filter_congr fun x hx => decide_eq_decide.mpr ?_
          rw [List.mem_cons, not_or]
          refine ⟨fun h => ⟨?_, h⟩, And.right⟩
          rintro rfl
          exact hno hx
        · have hR : (fun b => (R b).filter fun x => x ∉ cr :: gone) =
              fun b => ((R b).filter fun x => x ≠ cr).filter fun x => x ∉ gone := by
            funext b'
            rw [List.filter_filter]
            refine List.filter_congr fun x _ => ?_
            rw [← Bool.decide_and, decide_eq_decide, List.mem_cons, not_or, and_comm]
          rw [hR]
          exact hok'
      · rw [if_neg ht]
        obtain ⟨gone, s₂, hrun', hsub, hok', htrim'', hrefs'⟩ := ih (i + 1) hs hcs hnodup hlock
          (fun i s' cr' c' hmem => hP i s' cr' c' (List.mem_cons_of_mem _ hmem))
        refine ⟨gone, s₂, ?_, List.subset_cons_of_subset _ hsub, hok', htrim'', hrefs'⟩
        have hkeep : cr ∉ gone := fun h => hno (hsub h)
        simp only [hrun', Option.bind_some]
        rw [List.filter_cons_of_pos (by simpa using hkeep)]
        rfl

theorem CoreOk.withRefs (hs : CoreOk N s) {R : Bool → List ℕ} (hR : ∀ b, (R b).Perm (s.refs b)) :
    CoreOk N (s.withRefs R) := by
  refine ⟨hs.trail, ⟨hs.db.fresh, hs.db.two, hs.db.nodup, hs.db.lt, fun b cr => ?_, fun b => ?_⟩,
    hs.watch, ⟨hs.removed.alive, hs.removed.dirties⟩, hs.reason, hs.implied, hs.search⟩
  · rw [refs_withRefs, (hR b).mem_iff]
    exact hs.db.mem_refs b cr
  · rw [refs_withRefs, (hR b).nodup_iff]
    exact hs.db.refs_nodup b

/-- One of the two lists is gone through. -/
theorem removeWhere_refs (test : ℕ → Core → ℕ → Clause → Bool) {P : Clause → Prop} (b : Bool)
    {cs : List ℕ} (hs : CoreOk N s) (hcs : cs.Perm (s.refs b))
    (hlock : ∀ i s' cr c, s'.decisionLevel = s.decisionLevel → test i s' cr c = true →
      s'.decisionLevel = 0 ∨ s'.locked cr c = false)
    (hP : ∀ i s' cr c, Live s.ca cr c → c.learnt = b → (∀ p, s'.value p = s.value p) →
      test i s' cr c = true → P c) :
    ∃ cs' s', Core.removeWhere test 0 cs s = some (cs', s') ∧
      CoreOk N (s'.withRefs fun b' => if b' = b then cs' else s'.refs b') ∧ Trimmed P s s' := by
  have hok : CoreOk N (s.withRefs fun b' => if b' = b then cs else s.refs b') := by
    refine hs.withRefs fun b' => ?_
    split
    · next heq => exact heq ▸ hcs
    · exact List.Perm.refl _
  obtain ⟨gone, s', hrun, hsub, hok', htrim, hrefs⟩ := removeWhere_spec 0 cs hok
    (fun cr hcr => ⟨b, by rwa [if_pos rfl]⟩) (hcs.nodup_iff.mpr (hs.db.refs_nodup b)) hlock
    (fun i s' cr c hcr hc hv ht => by
      obtain ⟨c', hc', hb⟩ := (hs.db.mem_refs b cr).mp (hcs.subset hcr)
      obtain rfl := hc.unique hc'
      exact hP i s' cr c hc hb hv ht)
  refine ⟨_, s', hrun, ?_, htrim⟩
  have hR : (fun b' => (if b' = b then cs else s.refs b').filter fun x => x ∉ gone) =
      fun b' => if b' = b then cs.filter (fun x => x ∉ gone) else s'.refs b' := by
    funext b'
    rw [hrefs]
    split
    · rfl
    · next hne =>
        -- no clause is in both lists
        rw [List.filter_eq_self]
        intro x hx
        rw [decide_eq_true_eq]
        intro hgone
        obtain ⟨c, hc, hb⟩ := (hs.db.mem_refs b x).mp (hcs.subset (hsub hgone))
        obtain ⟨c', hc', hb'⟩ := (hs.db.mem_refs b' x).mp hx
        rw [hc.unique hc'] at hb
        exact hne (hb'.symm.trans hb)
  rwa [hR] at hok'

end

end ExtFolding.Minisat
