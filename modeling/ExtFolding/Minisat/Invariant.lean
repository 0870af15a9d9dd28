import ExtFolding.Minisat.Database

/-!
# What holds of the core between two operations

Each literal on the trail is a decision, or its reason is a clause that starts with it and whose
other literals were false before it. A watched literal that is false does no harm, once it has been
propagated: a literal of its clause has been true for at least as long.
-/

namespace ExtFolding.Minisat

open Cdcl LBool

/-! ## Reasons -/

structure ReasonOk (s : Assignment) (ca : ℕ → Option Clause) : Prop where
  clause : ∀ {i p cr}, s.trail[i]? = some p → s.reason p.var = some cr →
    ∃ c rest, Live ca cr c ∧ c.lits = p :: rest ∧ ∀ q ∈ rest, -q ∈ s.trail.take i
  decision : ∀ {i p}, s.trail[i]? = some p → s.reason p.var = none →
    s.level p.var = 0 ∨ i ∈ s.trail_lim

namespace ReasonOk

variable {s : Assignment} {ca ca' : ℕ → Option Clause} {p q : Lit} {cr i : ℕ} {c : Clause}

theorem other_false (h : ReasonOk s ca) (hp : p ∈ s.trail) (hr : s.reason p.var = some cr) :
    ∃ c rest, Live ca cr c ∧ c.lits = p :: rest ∧ ∀ q ∈ rest, -q ∈ s.trail := by
  obtain ⟨i, hi⟩ := List.mem_iff_getElem?.mp hp
  obtain ⟨c, rest, hc, hlits, hrest⟩ := h.clause hi hr
  exact ⟨c, rest, hc, hlits, fun q hq => List.mem_of_mem_take (hrest q hq)⟩

theorem getElem_enqueue {source : Option ℕ}
    (hi : (s.uncheckedEnqueue p source).trail[i]? = some q) :
    s.trail[i]? = some q ∨ i = s.trail.length ∧ q = p := by
  rw [TrailOk.trail_enqueue] at hi
  rcases Nat.lt_or_ge i s.trail.length with hlt | hge
  · exact Or.inl (by rwa [List.getElem?_append_left hlt] at hi)
  · rw [List.getElem?_append_right hge] at hi
    refine Or.inr ⟨?_, List.mem_singleton.mp (List.mem_of_getElem? hi)⟩
    have hlt := (List.getElem?_eq_some_iff.mp hi).1
    rw [List.length_singleton] at hlt
    omega

theorem ne_var (ht : TrailOk s) (hu : s.value p = l_Undef) (hq : q ∈ s.trail) : q.var ≠ p.var := by
  intro hv
  obtain ⟨h₁, h₂⟩ := (ht.value_undef p).mp hu
  rcases Lit.var_eq_iff.mp hv with rfl | rfl
  · exact h₁ hq
  · exact h₂ hq

theorem take_enqueue {source : Option ℕ} (hi : i ≤ s.trail.length) :
    (s.uncheckedEnqueue p source).trail.take i = s.trail.take i := by
  rw [TrailOk.trail_enqueue, List.take_append_of_le_length hi]

/-- A literal is enqueued with a clause that has become unit. -/
theorem enqueue (h : ReasonOk s ca) (ht : TrailOk s) (hu : s.value p = l_Undef) {rest : List Lit}
    (hc : Live ca cr c) (hlits : c.lits = p :: rest) (hrest : ∀ q ∈ rest, -q ∈ s.trail) :
    ReasonOk (s.uncheckedEnqueue p (some cr)) ca := by
  constructor
  · intro i q cr' hi hr
    rcases getElem_enqueue hi with hi' | ⟨rfl, rfl⟩
    · have hne := ne_var ht hu (List.mem_of_getElem? hi')
      rw [TrailOk.reason_enqueue_of_ne hne] at hr
      rw [take_enqueue (List.getElem?_eq_some_iff.mp hi').1.le]
      exact h.clause hi' hr
    · rw [TrailOk.reason_enqueue_self, Option.some.injEq] at hr
      subst hr
      rw [take_enqueue le_rfl, List.take_length]
      exact ⟨c, rest, hc, hlits, hrest⟩
  · intro i q hi hr
    rcases getElem_enqueue hi with hi' | ⟨rfl, rfl⟩
    · have hq := List.mem_of_getElem? hi'
      rw [TrailOk.reason_enqueue_of_ne (ne_var ht hu hq)] at hr
      rw [ht.level_enqueue hu hq]
      exact h.decision hi' hr
    · rw [TrailOk.reason_enqueue_self] at hr
      cases hr

/-- A literal without a reason is enqueued at level 0 or at the start of a level. -/
theorem enqueue_none (h : ReasonOk s ca) (ht : TrailOk s) (hu : s.value p = l_Undef)
    (hd : s.decisionLevel = 0 ∨ s.trail.length ∈ s.trail_lim) :
    ReasonOk (s.uncheckedEnqueue p none) ca := by
  constructor
  · intro i q cr' hi hr
    rcases getElem_enqueue hi with hi' | ⟨rfl, rfl⟩
    · rw [TrailOk.reason_enqueue_of_ne (ne_var ht hu (List.mem_of_getElem? hi'))] at hr
      rw [take_enqueue (List.getElem?_eq_some_iff.mp hi').1.le]
      exact h.clause hi' hr
    · rw [TrailOk.reason_enqueue_self] at hr
      cases hr
  · intro i q hi hr
    rcases getElem_enqueue hi with hi' | ⟨rfl, rfl⟩
    · have hq := List.mem_of_getElem? hi'
      rw [TrailOk.reason_enqueue_of_ne (ne_var ht hu hq)] at hr
      rw [ht.level_enqueue hu hq]
      exact h.decision hi' hr
    · rw [TrailOk.level_enqueue_self]
      exact hd

theorem newDecisionLevel (h : ReasonOk s ca) : ReasonOk s.newDecisionLevel ca :=
  ⟨h.clause, fun hi hr => (h.decision hi hr).imp_right (List.mem_append_left _)⟩

theorem cancelUntil (h : ReasonOk s ca) (ht : TrailOk s) (level : ℕ) :
    ReasonOk (s.cancelUntil level) ca := by
  rcases Nat.lt_or_ge level s.decisionLevel with hlt | hge
  · have htrail : ∀ {i : ℕ} {p : Lit}, (s.cancelUntil level).trail[i]? = some p →
        s.trail[i]? = some p ∧ i < s.trail_lim.getD level 0 := by
      intro i p hi
      rw [TrailOk.cancelUntil_of_lt hlt] at hi
      change (s.trail.take _)[i]? = some p at hi
      rw [List.getElem?_take] at hi
      split at hi
      · next hlim => exact ⟨hi, hlim⟩
      · cases hi
    constructor
    · intro i p cr hi hr
      obtain ⟨hi', hlim⟩ := htrail hi
      rw [TrailOk.reason_cancelUntil] at hr
      obtain ⟨c, rest, hc, hlits, hrest⟩ := h.clause hi' hr
      refine ⟨c, rest, hc, hlits, fun q hq => ?_⟩
      rw [TrailOk.cancelUntil_of_lt hlt]
      show -q ∈ (s.trail.take _).take i
      rw [List.take_take, min_eq_left hlim.le]
      exact hrest q hq
    · intro i p hi hr
      obtain ⟨hi', hlim⟩ := htrail hi
      rw [TrailOk.reason_cancelUntil] at hr
      rw [TrailOk.level_cancelUntil]
      refine (h.decision hi' hr).imp_right fun hmem => ?_
      rw [TrailOk.cancelUntil_of_lt hlt]
      show i ∈ s.trail_lim.take level
      rw [← List.take_append_drop level s.trail_lim, List.mem_append] at hmem
      refine hmem.resolve_right fun hdrop => ?_
      exact absurd ((ht.lim_split hlt).2 i hdrop) (Nat.not_le_of_lt hlim)
  · rw [TrailOk.cancelUntil_of_le hge]
    exact h

/-- Clauses may change as long as the reasons keep their first literals and, in any order, the
others. -/
theorem reorder (h : ReasonOk s ca) (hca : ∀ {cr c p rest}, Live ca cr c → c.lits = p :: rest →
      p ∈ s.trail → s.reason p.var = some cr →
      ∃ c' rest', Live ca' cr c' ∧ c'.lits = p :: rest' ∧ rest' ⊆ rest) :
    ReasonOk s ca' := by
  refine ⟨fun hi hr => ?_, h.decision⟩
  obtain ⟨c, rest, hc, hlits, hrest⟩ := h.clause hi hr
  obtain ⟨c', rest', hc', hlits', hsub⟩ := hca hc hlits (List.mem_of_getElem? hi) hr
  exact ⟨c', rest', hc', hlits', fun q hq => hrest q (hsub hq)⟩

end ReasonOk

/-! ## Watched literals -/

/-- A literal of the clause has been true since before `l` was false. -/
def Good (s : Assignment) (c : Clause) (l : Lit) : Prop :=
  ∃ r ∈ c.lits, r ∈ s.trail ∧ s.level r.var ≤ s.level l.var

/-- The literals in `done` have been propagated. -/
def PropInv (s : Assignment) (ca : ℕ → Option Clause) (done : List Lit) : Prop :=
  ∀ {cr c}, Live ca cr c → ∀ l ∈ c.watched, -l ∈ done → Good s c l

section

variable {s : Assignment} {ca ca' : ℕ → Option Clause} {p l : Lit} {c c' : Clause}
  {done done' : List Lit} {source : Option ℕ}

theorem Good.enqueue (h : Good s c l) (ht : TrailOk s) (hu : s.value p = l_Undef)
    (hl : -l ∈ s.trail) : Good (s.uncheckedEnqueue p source) c l := by
  obtain ⟨r, hr, hrt, hlev⟩ := h
  refine ⟨r, hr, List.mem_append_left _ hrt, ?_⟩
  rw [ht.level_enqueue hu hrt, ← Lit.var_neg l, ht.level_enqueue hu hl, Lit.var_neg]
  exact hlev

theorem Good.subset (h : Good s c l) (hsub : c.lits ⊆ c'.lits) : Good s c' l := by
  obtain ⟨r, hr, hrt, hlev⟩ := h
  exact ⟨r, hsub hr, hrt, hlev⟩

theorem PropInv.mono (h : PropInv s ca done) (hsub : done' ⊆ done) : PropInv s ca done' :=
  fun hc l hl hd => h hc l hl (hsub hd)

theorem PropInv.enqueue (h : PropInv s ca done) (ht : TrailOk s) (hu : s.value p = l_Undef)
    (hsub : done ⊆ s.trail) : PropInv (s.uncheckedEnqueue p source) ca done :=
  fun hc l hl hd => (h hc l hl hd).enqueue ht hu (hsub hd)

/-- What is left after taking back levels has been propagated, if it had been before. -/
theorem PropInv.cancelUntil (h : PropInv s ca done) (ht : TrailOk s) (level : ℕ)
    (hsub : (s.cancelUntil level).trail ⊆ done) :
    PropInv (s.cancelUntil level) ca (s.cancelUntil level).trail := by
  intro cr c hc l hl hd
  obtain ⟨r, hr, hrt, hlev⟩ := h hc l hl (hsub hd)
  have hmem := (ht.trail_cancelUntil level).2
  have hle : s.level l.var ≤ level := by
    have := ((hmem (-l)).mp hd).2
    rwa [Lit.var_neg] at this
  refine ⟨r, hr, (hmem r).mpr ⟨hrt, hlev.trans hle⟩, ?_⟩
  rw [TrailOk.level_cancelUntil, TrailOk.level_cancelUntil]
  exact hlev

end

/-! ## Clauses whose literals change places -/

/-- The same clauses, with their literals in another order. -/
def Reordered (ca ca' : ℕ → Option Clause) : Prop :=
  ∀ cr, Option.Rel (fun c c' => c'.lits.Perm c.lits ∧ c'.learnt = c.learnt ∧ c'.mark = c.mark)
    (ca cr) (ca' cr)

namespace Reordered

variable {ca ca' ca'' : ℕ → Option Clause} {cr : ℕ} {c : Clause} {N : Set (List Lit)}

theorem refl (ca : ℕ → Option Clause) : Reordered ca ca := by
  intro cr
  cases ca cr with
  | none => exact Option.Rel.none
  | some c => exact Option.Rel.some ⟨List.Perm.refl _, rfl, rfl⟩

theorem symm (h : Reordered ca ca') : Reordered ca' ca := by
  intro cr
  have hcr := h cr
  revert hcr
  cases ca cr <;> cases ca' cr <;> intro hcr <;> cases hcr
  · exact Option.Rel.none
  · next hc => exact Option.Rel.some ⟨hc.1.symm, hc.2.1.symm, hc.2.2.symm⟩

theorem trans (h : Reordered ca ca') (h' : Reordered ca' ca'') : Reordered ca ca'' := by
  intro cr
  have hcr := h cr
  have hcr' := h' cr
  revert hcr hcr'
  cases ca cr <;> cases ca' cr <;> cases ca'' cr <;> intro hcr hcr' <;> cases hcr <;> cases hcr'
  · exact Option.Rel.none
  · next hc hc' =>
      exact Option.Rel.some ⟨hc'.1.trans hc.1, hc'.2.1.trans hc.2.1, hc'.2.2.trans hc.2.2⟩

theorem update (hc : ca cr = Option.some c) {lits : List Lit} (hperm : lits.Perm c.lits) :
    Reordered ca (Function.update ca cr (Option.some { c with lits := lits })) := by
  intro cr'
  rcases eq_or_ne cr' cr with rfl | hne
  · rw [Function.update_self, hc]
    exact Option.Rel.some ⟨hperm, rfl, rfl⟩
  · rw [Function.update_of_ne hne]
    exact refl ca cr'

theorem some (h : Reordered ca ca') (hc : ca cr = Option.some c) :
    ∃ c', ca' cr = Option.some c' ∧ c'.lits.Perm c.lits ∧ c'.learnt = c.learnt ∧
      c'.mark = c.mark := by
  have hcr := h cr
  rw [hc] at hcr
  cases hcr' : ca' cr with
  | none => rw [hcr'] at hcr; cases hcr
  | some c' =>
      rw [hcr'] at hcr
      cases hcr with
      | some hcc => exact ⟨c', rfl, hcc⟩

theorem live (h : Reordered ca ca') (hc : Live ca cr c) :
    ∃ c', Live ca' cr c' ∧ c'.lits.Perm c.lits ∧ c'.learnt = c.learnt := by
  obtain ⟨c', hc', hperm, hlearnt, hmark⟩ := h.some hc.1
  exact ⟨c', ⟨hc', hmark.trans hc.2⟩, hperm, hlearnt⟩

theorem eq_none (h : Reordered ca ca') (hc : ca cr = none) : ca' cr = none := by
  have hcr := h cr
  rw [hc] at hcr
  cases hcr' : ca' cr with
  | none => rfl
  | some c' => rw [hcr'] at hcr; cases hcr

theorem implied (h : Reordered ca ca') (hi : Implied N ca) : Implied N ca' := by
  intro cr c hc
  obtain ⟨c', hc', hperm, -⟩ := h.symm.live hc
  exact (hi cr c' hc').mono hperm.subset

theorem dbOk {nVars : ℕ} {d d' : Database} (h : Reordered d.ca d'.ca) (hd : DbOk nVars d)
    (hr : d'.nextRef = d.nextRef) (hc : d'.clauses = d.clauses) (hl : d'.learnts = d.learnts) :
    DbOk nVars d' := by
  have hlive : ∀ b cr, (∃ c, Live d'.ca cr c ∧ c.learnt = b) ↔ ∃ c, Live d.ca cr c ∧
    c.learnt = b := by
    intro b cr
    constructor
    · rintro ⟨c, hc, rfl⟩
      obtain ⟨c', hc', -, hb⟩ := h.symm.live hc
      exact ⟨c', hc', hb⟩
    · rintro ⟨c, hc, rfl⟩
      obtain ⟨c', hc', -, hb⟩ := h.live hc
      exact ⟨c', hc', hb⟩
  have hrefs : ∀ b, d'.refs b = d.refs b := fun b => by cases b <;> assumption
  constructor
  · exact fun cr hcr => h.eq_none (hd.fresh cr (hr ▸ hcr))
  · intro cr c hc
    obtain ⟨c', hc', hperm, -⟩ := h.symm.some hc
    exact (hd.two hc').trans hperm.length_eq.le
  · intro cr c hc
    obtain ⟨c', hc', hperm, -⟩ := h.symm.live hc
    exact hperm.nodup_iff.mp (hd.nodup hc')
  · intro cr c hc p hp
    obtain ⟨c', hc', hperm, -⟩ := h.symm.live hc
    exact hd.lt hc' p (hperm.mem_iff.mpr hp)
  · intro b cr
    rw [hrefs, hlive]
    exact hd.mem_refs b cr
  · intro b
    rw [hrefs]
    exact hd.refs_nodup b

end Reordered

/-! ## The core -/

/-- `N` are the clauses that were added. -/
structure CoreOk (N : Set (List Lit)) (s : Core) : Prop where
  trail : TrailOk s.toAssignment
  db : DbOk s.nVars s.toDatabase
  watch : WatchOk s.ca s.watches
  removed : LazyOk s.toDatabase
  reason : ReasonOk s.toAssignment s.ca
  implied : Implied N s.ca
  search : Ok N s.abs

end ExtFolding.Minisat
