import ExtFolding.Minisat.Trail

/-!
# `memin/minisat/core/Solver.cpp`: the clauses and who watches them

Clauses live in an arena; the first two literals of each are watched. A clause is removed by a mark:
its watchers stay behind until their lists, which are then dirty, are cleaned. `checkGarbage` and
`relocAll`, which move clauses to new addresses, are left out, and so are the capacities: 27 bits
for the size of a clause, 32 for its address, and an `int` for the length of a vector.
-/

namespace ExtFolding.Minisat

open Cdcl LBool

/-! ## The code -/

/-- The arena, the lists of clauses, and `watches` with its lazy deletion. -/
structure Database where
  ca : ℕ → Option Clause
  nextRef : ℕ
  clauses : List ℕ
  learnts : List ℕ
  clauses_literals : ℕ
  learnts_literals : ℕ
  watches : Lit → List Watcher
  dirty : Lit → Bool
  dirties : List Lit

namespace Database

variable (d : Database)

/-- `ca.alloc(ps, learnt)` -/
def alloc (ps : List Lit) (learnt : Bool) : Database × ℕ :=
  ({ d with ca := Function.update d.ca d.nextRef (some ⟨ps, learnt, false⟩)
            nextRef := d.nextRef + 1 }, d.nextRef)

/-- `watches[p].push(w)` -/
def watch (p : Lit) (w : Watcher) : Database :=
  { d with watches := Function.update d.watches p (d.watches p ++ [w]) }

/-- `if (c.learnt()) learnts_literals += c.size(); else clauses_literals += c.size();` -/
def countLiterals (c : Clause) (f : ℕ → ℕ → ℕ) : Database :=
  if c.learnt then { d with learnts_literals := f d.learnts_literals c.lits.length }
  else { d with clauses_literals := f d.clauses_literals c.lits.length }

/-- `attachClause(cr)`; `none` when the clause is too short. -/
def attachClause (cr : ℕ) : Option Database := do
  let c ← d.ca cr
  match c.lits with
  | a :: b :: _ => some (((d.watch (-a) ⟨cr, b⟩).watch (-b) ⟨cr, a⟩).countLiterals c (· + ·))
  | _ => none

/-- `watches.smudge(p)` -/
def smudge (p : Lit) : Database :=
  if d.dirty p then d
  else { d with dirty := Function.update d.dirty p true, dirties := d.dirties ++ [p] }

/-- `detachClause(cr)`, which is lazy. -/
def detachClause (cr : ℕ) : Option Database := do
  let c ← d.ca cr
  match c.lits with
  | a :: b :: _ => some (((d.smudge (-a)).smudge (-b)).countLiterals c (· - ·))
  | _ => none

/-- `c.mark(1)` -/
def markRemoved (cr : ℕ) : Database :=
  { d with ca := Function.update d.ca cr ((d.ca cr).map fun c => { c with mark := true }) }

/-- `WatcherDeleted` -/
def deleted (w : Watcher) : Bool := ((d.ca w.cref).map Clause.mark).getD false

/-- `watches.clean(p)` -/
def clean (p : Lit) : Database :=
  { d with watches := Function.update d.watches p ((d.watches p).filter fun w => !d.deleted w)
           dirty := Function.update d.dirty p false }

/-- `watches.cleanAll()` -/
def cleanAll : Database :=
  { d.dirties.foldl (fun d p => if d.dirty p then d.clean p else d) d with dirties := [] }

end Database

/-- What propagation works on. -/
structure Core extends Assignment, Database

/-! ## The clauses -/

/-- The clause is in the arena and has not been removed. -/
def Live (ca : ℕ → Option Clause) (cr : ℕ) (c : Clause) : Prop := ca cr = some c ∧ c.mark = false

theorem Live.unique {ca : ℕ → Option Clause} {cr : ℕ} {c c' : Clause} (h : Live ca cr c)
    (h' : Live ca cr c') : c = c' := Option.some.inj (h.1.symm.trans h'.1)

/-- The watched literals. -/
def Clause.watched (c : Clause) : List Lit := c.lits.take 2

theorem Clause.watched_subset (c : Clause) : c.watched ⊆ c.lits := List.take_subset 2 c.lits

/-- `learnts` or `clauses` -/
def Database.refs (d : Database) : Bool → List ℕ
  | true => d.learnts
  | false => d.clauses

/-- Clauses have at least two literals, all different, and the lists of clauses are complete. -/
structure DbOk (nVars : ℕ) (d : Database) : Prop where
  fresh : ∀ cr, d.nextRef ≤ cr → d.ca cr = none
  two : ∀ {cr c}, d.ca cr = some c → 2 ≤ c.lits.length
  nodup : ∀ {cr c}, Live d.ca cr c → c.lits.Nodup
  lt : ∀ {cr c}, Live d.ca cr c → ∀ p ∈ c.lits, p.var < nVars
  mem_refs : ∀ b cr, cr ∈ d.refs b ↔ ∃ c, Live d.ca cr c ∧ c.learnt = b
  refs_nodup : ∀ b, (d.refs b).Nodup

/-- Watchers are no part of it. -/
theorem DbOk.watch {nVars : ℕ} {d : Database} (h : DbOk nVars d) (p : Lit) (w : Watcher) :
    DbOk nVars (d.watch p w) :=
  ⟨h.fresh, h.two, h.nodup, h.lt, h.mem_refs, h.refs_nodup⟩

/-- Every clause follows from those of the problem. -/
def Implied (N : Set (List Lit)) (ca : ℕ → Option Clause) : Prop :=
  ∀ cr c, Live ca cr c → Entails N c.lits

theorem exists_lits {c : Clause} (h : 2 ≤ c.lits.length) : ∃ a b tail, c.lits = a :: b :: tail := by
  match hc : c.lits with
  | [] => simp [hc] at h
  | [a] => simp [hc] at h
  | a :: b :: tail => exact ⟨a, b, tail, rfl⟩

/-! ## The watchers -/

/-- The lists hold one watcher for each watched literal of a clause. -/
structure WatchOk (ca : ℕ → Option Clause) (W : Lit → List Watcher) : Prop where
  mem : ∀ {cr c}, Live ca cr c → ∀ p, cr ∈ (W p).map Watcher.cref ↔ -p ∈ c.watched
  blocker : ∀ {p w c}, w ∈ W p → Live ca w.cref c → w.blocker ∈ c.lits
  nodup : ∀ p, ((W p).map Watcher.cref).Nodup

/-- No list holds a watcher of a removed clause. -/
def Alive (ca : ℕ → Option Clause) (W : Lit → List Watcher) : Prop :=
  ∀ p, ∀ w ∈ W p, ∃ c, Live ca w.cref c

/-- Watchers of removed clauses are in dirty lists only. -/
structure LazyOk (d : Database) : Prop where
  alive : ∀ p, ∀ w ∈ d.watches p, ∃ c, d.ca w.cref = some c ∧ (c.mark = true → d.dirty p = true)
  dirties : ∀ p, d.dirty p = true → p ∈ d.dirties

/-! ## Cleaning -/

namespace Database

variable {d : Database} {p : Lit}

theorem foldl_clean (l : List Lit) (d : Database) :
    ∃ W D, l.foldl (fun d p => if d.dirty p then d.clean p else d) d =
        { d with watches := W, dirty := D } ∧
      ∀ p, (p ∈ l → D p = false) ∧ (D p = true → d.dirty p = true) ∧
        (W p = d.watches p ∧ D p = d.dirty p ∨
          W p = (d.watches p).filter (fun w => !d.deleted w) ∧ D p = false) := by
  induction l generalizing d with
  | nil => exact ⟨d.watches, d.dirty, rfl, fun p => ⟨fun hp => absurd hp List.not_mem_nil, id,
      Or.inl ⟨rfl, rfl⟩⟩⟩
  | cons q l ih =>
      rw [List.foldl_cons]
      by_cases hq : d.dirty q = true
      · rw [if_pos hq]
        obtain ⟨W, D, hrun, hWD⟩ := ih (d.clean q)
        refine ⟨W, D, hrun, fun p => ?_⟩
        obtain ⟨hmem, hmono, hcase⟩ := hWD p
        have hdirty : (d.clean q).dirty p = if p = q then false else d.dirty p := by
          simp [clean, Function.update_apply]
        have hw : (d.clean q).watches p =
            if p = q then (d.watches q).filter (fun w => !d.deleted w) else d.watches p := by
          simp [clean, Function.update_apply]
        have hdel : (fun w => !(d.clean q).deleted w) = fun w => !d.deleted w := rfl
        rw [hdel] at hcase
        rw [hdirty] at hmono hcase
        rw [hw] at hcase
        by_cases hpq : p = q
        · subst hpq
          simp only [if_true] at hmono hcase
          have hD : D p = false := by
            cases hD : D p
            · rfl
            · exact absurd (hmono hD) Bool.false_ne_true
          refine ⟨fun _ => hD, fun h => absurd (hD.symm.trans h) Bool.false_ne_true,
            Or.inr ⟨?_, hD⟩⟩
          rcases hcase with ⟨h, -⟩ | ⟨h, -⟩
          · exact h
          · rw [h, List.filter_filter]
            simp
        · rw [if_neg hpq, if_neg hpq] at hcase
          rw [if_neg hpq] at hmono
          refine ⟨fun hp => ?_, hmono, hcase⟩
          rcases List.mem_cons.mp hp with rfl | hp
          · exact absurd rfl hpq
          · exact hmem hp
      · rw [if_neg hq]
        obtain ⟨W, D, hrun, hWD⟩ := ih d
        refine ⟨W, D, hrun, fun p => ⟨fun hp => ?_, (hWD p).2⟩⟩
        rcases List.mem_cons.mp hp with rfl | hp
        · cases hD : D p
          · rfl
          · exact absurd ((hWD p).2.1 hD) hq
        · exact (hWD p).1 hp

/-- Cleaning takes away the watchers of removed clauses and nothing else. -/
theorem cleanAll_spec (hl : LazyOk d) (hw : WatchOk d.ca d.watches) :
    ∃ W, d.cleanAll = { d with watches := W, dirty := fun _ => false, dirties := [] } ∧
      WatchOk d.ca W ∧ Alive d.ca W := by
  obtain ⟨W, D, hrun, hWD⟩ := foldl_clean d.dirties d
  have hD : D = fun _ => false := by
    funext p
    cases hp : D p
    · rfl
    · exact hp.symm.trans ((hWD p).1 (hl.dirties p ((hWD p).2.1 hp)))
  -- a list that has not been cleaned was not dirty
  have hfilter : ∀ p, W p = (d.watches p).filter fun w => !d.deleted w := by
    intro p
    rcases (hWD p).2.2 with ⟨hp, hdp⟩ | ⟨hp, -⟩
    · rw [hp, eq_comm, List.filter_eq_self]
      intro w hwp
      obtain ⟨c, hc, hmark⟩ := hl.alive p w hwp
      have hclean : d.dirty p = false := by rw [← hdp, hD]
      cases hm : c.mark
      · simp [deleted, hc, hm]
      · exact absurd (hclean.symm.trans (hmark hm)) Bool.false_ne_true
    · exact hp
  have hsub : ∀ p w, w ∈ W p ↔ w ∈ d.watches p ∧ d.deleted w = false := by
    intro p w
    rw [hfilter, List.mem_filter, Bool.not_eq_true']
  have hlive : ∀ w c, Live d.ca w.cref c → d.deleted w = false := by
    intro w c hc
    simp [deleted, hc.1, hc.2]
  refine ⟨W, ?_, ⟨fun {cr c} hc p => ?_, fun hwp hc => hw.blocker ((hsub _ _).mp hwp).1 hc,
    fun p => ?_⟩, fun p w hwp => ?_⟩
  · rw [cleanAll, hrun, hD]
  · rw [← hw.mem hc p, List.mem_map, List.mem_map]
    constructor
    · rintro ⟨w, hwp, rfl⟩
      exact ⟨w, ((hsub p w).mp hwp).1, rfl⟩
    · rintro ⟨w, hwp, rfl⟩
      exact ⟨w, (hsub p w).mpr ⟨hwp, hlive w c hc⟩, rfl⟩
  · rw [hfilter]
    exact (hw.nodup p).sublist (List.filter_sublist.map _)
  · obtain ⟨hwd, hdel⟩ := (hsub p w).mp hwp
    obtain ⟨c, hc, -⟩ := hl.alive p w hwd
    refine ⟨c, hc, ?_⟩
    simpa [deleted, hc] using hdel

end Database

end ExtFolding.Minisat
