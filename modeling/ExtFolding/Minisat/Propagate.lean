import ExtFolding.Minisat.Invariant

/-!
# `memin/minisat/core/Solver.cpp`: unit propagation

`propagate` takes one literal of the queue after the other and visits the clauses that watch its
complement. It never fails on a sound core, it only enqueues literals that follow from a clause that
has become unit, and when it finds no conflict, no clause is unit or false any more.
-/

namespace ExtFolding.Minisat

open Cdcl LBool

/-! ## The code -/

/-- `for (int k = 2; …)`: the first literal that is not false changes places with `false_lit`. -/
def Assignment.newWatch (s : Assignment) (false_lit : Lit) : List Lit → Option (Lit × List Lit)
  | [] => none
  | q :: tail =>
      if s.value q ≠ l_False then some (q, false_lit :: tail)
      else (s.newWatch false_lit tail).map fun r => (r.1, q :: r.2)

/-- What a visit does with the watcher. -/
inductive Visited where
  | keep (w : Watcher) (s : Core)
  | move (s : Core)
  | conflict (w : Watcher) (s : Core)

namespace Core

def setLits (s : Core) (cr : ℕ) (c : Clause) (lits : List Lit) : Core :=
  { s with ca := Function.update s.ca cr (some { c with lits := lits }) }

/-- One round of the inner loop; `none` when the watcher is not one of `p`. -/
def visit (s : Core) (p : Lit) (w : Watcher) : Option Visited :=
  if s.value w.blocker = l_True then some (.keep w s)
  else
    match s.ca w.cref with
    | none => none
    | some c =>
        match c.lits with
        | a :: b :: tail =>
            let false_lit := -p
            let first := if a = false_lit then b else a
            let second := if a = false_lit then a else b
            let w' : Watcher := ⟨w.cref, first⟩
            let s' := s.setLits w.cref c (first :: second :: tail)
            if second ≠ false_lit then none
            else if first ≠ w.blocker ∧ s.value first = l_True then some (.keep w' s')
            else
              match s.newWatch false_lit tail with
              | some (q, tail') =>
                  let s'' := s.setLits w.cref c (first :: q :: tail')
                  some (.move { s'' with toDatabase := s''.watch (-q) w' })
              | none =>
                  if s.value first = l_False then some (.conflict w' s')
                  else some (.keep w'
                    { s' with toAssignment := s'.uncheckedEnqueue first (some w.cref) })
        | _ => none

def setWatches (s : Core) (p : Lit) (ws : List Watcher) : Core :=
  { s with watches := Function.update s.watches p ws }

/-- The inner loop; `kept` is what has been written back. -/
def propagateList (p : Lit) : List Watcher → List Watcher → Core → Option (Option ℕ × Core)
  | [], kept, s => some (none, s.setWatches p kept)
  | w :: rest, kept, s =>
      match s.visit p w with
      | none => none
      | some (.keep w' s') => propagateList p rest (kept ++ [w']) s'
      | some (.move s') => propagateList p rest kept s'
      | some (.conflict w' s') =>
          some (some w.cref,
            { s'.setWatches p (kept ++ w' :: rest) with qhead := s'.trail.length })

/-- `while (qhead < trail.size())`; the number counts the literals. -/
def propagateLoop : ℕ → ℕ → Core → Option (Option ℕ × ℕ × Core)
  | 0, _, _ => none
  | fuel + 1, num_props, s =>
      match s.trail[s.qhead]? with
      | none => some (none, num_props, s)
      | some p =>
          match propagateList p (s.watches p) [] { s with qhead := s.qhead + 1 } with
          | none => none
          | some (some confl, s') => some (some confl, num_props + 1, s')
          | some (none, s') => propagateLoop fuel (num_props + 1) s'

/-- `propagate()`, with `num_props`. -/
def propagate (s : Core) : Option (Option ℕ × ℕ × Core) :=
  propagateLoop (s.nVars + 1) 0 { s with toDatabase := s.cleanAll }

end Core

/-! ## One visit -/

namespace Assignment

variable {s : Assignment} {f q : Lit} {tail tail' : List Lit}

theorem newWatch_none : s.newWatch f tail = none ↔ ∀ q ∈ tail, s.value q = l_False := by
  induction tail with
  | nil => simp [newWatch]
  | cons q tail ih =>
      rw [newWatch, List.forall_mem_cons]
      split
      · next hq => simp [hq]
      · next hq =>
          rw [Option.map_eq_none_iff, ih]
          exact ⟨fun h => ⟨not_not.mp hq, h⟩, And.right⟩

theorem newWatch_some (h : s.newWatch f tail = some (q, tail')) :
    ∃ pre post, tail = pre ++ q :: post ∧ tail' = pre ++ f :: post ∧ s.value q ≠ l_False := by
  induction tail generalizing tail' with
  | nil => cases h
  | cons r tail ih =>
      rw [newWatch] at h
      split at h
      · next hr =>
          cases h
          exact ⟨[], tail, rfl, rfl, hr⟩
      · obtain ⟨x, hx, heq⟩ := Option.map_eq_some_iff.mp h
        cases heq
        obtain ⟨pre, post, htail, htail', hq⟩ := ih hx
        exact ⟨r :: pre,
          post, by rw [htail, List.cons_append], by rw [htail', List.cons_append], hq⟩

end Assignment

/-- What a visit can do at the watcher of a clause `c` that watches `-p`. -/
inductive Visits (s : Core) (p : Lit) (w : Watcher) (c : Clause) : Visited → Prop
  | blocked (hb : w.blocker ∈ s.trail) : Visits s p w c (.keep w s)
  | satisfied {first tail} (hc : c.lits = first :: -p :: tail ∨ c.lits = -p :: first :: tail)
      (hf : first ∈ s.trail) :
      Visits s p w c (.keep ⟨w.cref, first⟩ (s.setLits w.cref c (first :: -p :: tail)))
  | moved {first q pre post} (hc : c.lits = first :: -p :: (pre ++ q :: post) ∨
        c.lits = -p :: first :: (pre ++ q :: post)) (hq : -q ∉ s.trail) :
      Visits s p w c (.move
        { s.setLits w.cref c (first :: q :: (pre ++ -p :: post)) with
          toDatabase := (s.setLits w.cref c (first :: q :: (pre ++ -p :: post))).watch (-q)
            ⟨w.cref, first⟩ })
  | conflict {first tail} (hc : c.lits = first :: -p :: tail ∨ c.lits = -p :: first :: tail)
      (hf : -first ∈ s.trail) (htail : ∀ q ∈ tail, -q ∈ s.trail) :
      Visits s p w c (.conflict ⟨w.cref, first⟩ (s.setLits w.cref c (first :: -p :: tail)))
  | unit {first tail} (hc : c.lits = first :: -p :: tail ∨ c.lits = -p :: first :: tail)
      (hf : s.value first = l_Undef) (htail : ∀ q ∈ tail, -q ∈ s.trail) :
      Visits s p w c (.keep ⟨w.cref, first⟩
        { s.setLits w.cref c (first :: -p :: tail) with
          toAssignment := (s.setLits w.cref c (first :: -p :: tail)).uncheckedEnqueue first
            (some w.cref) })

theorem visit_visits {s : Core} {p : Lit} {w : Watcher} {c : Clause} (ht : TrailOk s.toAssignment)
    (hc : s.ca w.cref = some c) (hw : -p ∈ c.watched) (hlen : 2 ≤ c.lits.length) :
    ∃ v, s.visit p w = some v ∧ Visits s p w c v := by
  unfold Core.visit
  by_cases hb : s.value w.blocker = l_True
  · rw [if_pos hb]
    exact ⟨_, rfl, .blocked ((ht.value _).mp hb)⟩
  · rw [if_neg hb, hc]
    obtain ⟨a, b, tail, hlits⟩ := exists_lits hlen
    simp only [hlits]
    -- the two watched literals, `-p` second
    obtain ⟨first, hfirst, hsecond, hlits'⟩ : ∃ first, (if a = -p then b else a) = first ∧
        (if a = -p then a else b) = -p ∧
        (c.lits = first :: -p :: tail ∨ c.lits = -p :: first :: tail) := by
      by_cases ha : a = -p
      · exact ⟨b, if_pos ha, by rw [if_pos ha, ha], Or.inr (by rw [hlits, ha])⟩
      · have hb' : b = -p := by
          rw [Clause.watched, hlits] at hw
          rcases List.mem_cons.mp hw with h | h
          · exact absurd h.symm ha
          · exact (List.mem_singleton.mp h).symm
        exact ⟨a, if_neg ha, by rw [if_neg ha, hb'], Or.inl (by rw [hlits, hb'])⟩
    rw [hfirst, hsecond, if_neg (not_not.mpr rfl)]
    by_cases hsat : first ≠ w.blocker ∧ s.value first = l_True
    · rw [if_pos hsat]
      exact ⟨_, rfl, .satisfied hlits' ((ht.value _).mp hsat.2)⟩
    · rw [if_neg hsat]
      have hnot : s.value first ≠ l_True := by
        intro hf
        refine hsat ⟨?_, hf⟩
        rintro rfl
        exact hb hf
      cases hnew : s.newWatch (-p) tail with
      | some r =>
          obtain ⟨pre, post, rfl, htail', hq⟩ := Assignment.newWatch_some hnew
          refine ⟨_, rfl, ?_⟩
          simp only [htail']
          exact .moved hlits' fun hn => hq ((ht.value_false _).mpr hn)
      | none =>
          have htail : ∀ q ∈ tail, -q ∈ s.trail := fun q hq =>
            (ht.value_false q).mp (Assignment.newWatch_none.mp hnew q hq)
          by_cases hf : s.value first = l_False
          · simp only [hf, if_true]
            exact ⟨_, rfl, .conflict hlits' ((ht.value_false _).mp hf) htail⟩
          · simp only [hf, if_false]
            refine ⟨_, rfl, .unit hlits' ?_ htail⟩
            cases hv : s.value first
            · exact absurd hv hnot
            · exact absurd hv hf
            · rfl

/-! ## The inner loop -/

/-- The literals of `done` have been propagated, and `p` for all clauses but those of the watchers
in `rest`. -/
structure LoopOk (N : Set (List Lit)) (p : Lit) (done : List Lit) (kept rest : List Watcher)
    (s : Core) : Prop where
  trail : TrailOk s.toAssignment
  db : DbOk s.nVars s.toDatabase
  watch : WatchOk s.ca (Function.update s.watches p (kept ++ rest))
  alive : Alive s.ca (Function.update s.watches p (kept ++ rest))
  dirties : ∀ q, s.dirty q = true → q ∈ s.dirties
  reason : ReasonOk s.toAssignment s.ca
  implied : Implied N s.ca
  search : Ok N s.abs
  queue : ∃ more, s.trail = done ++ p :: more
  level : s.level p.var = s.decisionLevel
  inv : PropInv s.toAssignment s.ca done
  here : ∀ {cr c}, Live s.ca cr c → -p ∈ c.watched → cr ∉ rest.map Watcher.cref →
    Good s.toAssignment c (-p)

namespace LoopOk

variable {N : Set (List Lit)} {s : Core} {p q first : Lit} {done tail pre post : List Lit}
  {kept rest : List Watcher} {w : Watcher} {c : Clause} {cr : ℕ}

theorem mem_trail (h : LoopOk N p done kept rest s) : p ∈ s.trail := by
  obtain ⟨more, hq⟩ := h.queue
  exact hq ▸ List.mem_append_right _ List.mem_cons_self

theorem done_subset (h : LoopOk N p done kept rest s) : done ⊆ s.trail := by
  obtain ⟨more, hq⟩ := h.queue
  exact hq ▸ List.subset_append_left _ _

theorem live (h : LoopOk N p done kept (w :: rest) s) : ∃ c, Live s.ca w.cref c ∧
    -p ∈ c.watched := by
  have hw : w ∈ Function.update s.watches p (kept ++ w :: rest) p := by
    rw [Function.update_self]
    exact List.mem_append_right _ List.mem_cons_self
  obtain ⟨c, hc⟩ := h.alive p w hw
  exact ⟨c, hc, (h.watch.mem hc p).mp (List.mem_map_of_mem hw)⟩

/-- Any literal that is true is true for long enough. -/
theorem good (h : LoopOk N p done kept rest s) {r : Lit} (hr : r ∈ c.lits) (hrt : r ∈ s.trail) :
    Good s.toAssignment c (-p) := by
  refine ⟨r, hr, hrt, ?_⟩
  rw [Lit.var_neg, h.level]
  exact h.trail.level_le hrt

/-- The literals of a clause may change places behind a first literal that is true. -/
theorem reorder (h : LoopOk N p done kept rest s) (hc : Live s.ca cr c) {lits : List Lit}
    (hperm : lits.Perm c.lits) (hwatch : ∀ q, q ∈ lits.take 2 ↔ q ∈ c.watched)
    (hhead : ∀ a l, c.lits = a :: l → a ∈ s.trail → ∃ l', lits = a :: l') :
    LoopOk N p done kept rest (s.setLits cr c lits) := by
  -- each clause was there before, with the same literals
  have hback : ∀ {cr' c'}, Live (s.setLits cr c lits).ca cr' c' → ∃ c'', Live s.ca cr' c'' ∧
      c''.lits ⊆ c'.lits ∧ ∀ q, q ∈ c'.watched ↔ q ∈ c''.watched := by
    rintro cr' c' ⟨hc', hm⟩
    rcases eq_or_ne cr' cr with rfl | hne
    · obtain rfl : { c with lits := lits } = c' := by simpa [Core.setLits] using hc'
      exact ⟨c, hc, hperm.symm.subset, hwatch⟩
    · have hold : s.ca cr' = some c' := by simpa [Core.setLits, hne] using hc'
      exact ⟨c', ⟨hold, hm⟩, List.Subset.refl _, fun _ => Iff.rfl⟩
  have hre : Reordered s.ca (s.setLits cr c lits).ca := Reordered.update hc.1 hperm
  refine ⟨h.trail, hre.dbOk h.db rfl rfl rfl, ⟨fun hl r => ?_, fun hwr hl => ?_, h.watch.nodup⟩,
    fun r w' hw' => ?_, h.dirties, h.reason.reorder fun {cr' c' a l} hl hlits ha _ => ?_,
      hre.implied h.implied,
    h.search, h.queue, h.level, fun hl l hlw hd => ?_, fun hl hw hno => ?_⟩
  · obtain ⟨c'', hc'', -, hw⟩ := hback hl
    exact (h.watch.mem hc'' r).trans (hw _).symm
  · obtain ⟨c'', hc'', hsub, -⟩ := hback hl
    exact hsub (h.watch.blocker hwr hc'')
  · obtain ⟨c', hc'⟩ := h.alive r w' hw'
    obtain ⟨c'', hc'', -⟩ := hre.live hc'
    exact ⟨c'', hc''⟩
  · rcases eq_or_ne cr' cr with rfl | hne
    · obtain rfl := hc.unique hl
      obtain ⟨l', rfl⟩ := hhead a l hlits ha
      refine ⟨{ c with lits := a :: l' }, l', ⟨by simp [Core.setLits], hc.2⟩, rfl, ?_⟩
      rw [hlits] at hperm
      exact (List.perm_cons a).mp hperm |>.subset
    · exact ⟨c', l, ⟨by simpa [Core.setLits, hne] using hl.1, hl.2⟩, hlits, List.Subset.refl _⟩
  · obtain ⟨c'', hc'', hsub, hw⟩ := hback hl
    exact (h.inv hc'' l ((hw l).mp hlw) hd).subset hsub
  · obtain ⟨c'', hc'', hsub, hw'⟩ := hback hl
    exact (h.here hc'' ((hw' _).mp hw) hno).subset hsub

/-- `c[0] = c[1], c[1] = false_lit` -/
theorem swap (h : LoopOk N p done kept rest s) (hc : Live s.ca cr c)
    (hlits : c.lits = first :: -p :: tail ∨ c.lits = -p :: first :: tail) :
    LoopOk N p done kept rest (s.setLits cr c (first :: -p :: tail)) := by
  refine h.reorder hc ?_ (fun q => ?_) fun a l ha hat => ?_
  · rcases hlits with hl | hl
    · rw [hl]
    · rw [hl]
      exact List.Perm.swap _ _ _
  · rcases hlits with hl | hl
    · rw [Clause.watched, hl]
    · rw [Clause.watched, hl]
      simp [or_comm]
  · rcases hlits with hl | hl
    · rw [hl] at ha
      cases ha
      exact ⟨_, rfl⟩
    · rw [hl] at ha
      cases ha
      exact absurd hat (h.trail.not_both h.mem_trail)

theorem live_setLits (hc : Live s.ca cr c) (lits : List Lit) :
    Live (s.setLits cr c lits).ca cr { c with lits := lits } :=
  ⟨by simp [Core.setLits], hc.2⟩

/-- The watcher gets another blocker. -/
theorem replace (h : LoopOk N p done kept (w :: rest) s) (hc : Live s.ca w.cref c)
    (hb : q ∈ c.lits) : LoopOk N p done kept (⟨w.cref, q⟩ :: rest) s := by
  have hmap : ∀ r, (Function.update s.watches p (kept ++ ⟨w.cref, q⟩ :: rest) r).map Watcher.cref =
      (Function.update s.watches p (kept ++ w :: rest) r).map Watcher.cref := by
    intro r
    rcases eq_or_ne r p with rfl | hne
    · simp
    · rw [Function.update_of_ne hne, Function.update_of_ne hne]
  -- the watcher is the only one that is new
  have hmem : ∀ {r w'}, w' ∈ Function.update s.watches p (kept ++ ⟨w.cref, q⟩ :: rest) r →
      w' ∈ Function.update s.watches p (kept ++ w :: rest) r ∨ w' = ⟨w.cref, q⟩ := by
    intro r w' hw'
    rcases eq_or_ne r p with rfl | hne
    · rw [Function.update_self] at hw' ⊢
      simp only [List.mem_append, List.mem_cons] at hw' ⊢
      tauto
    · rw [Function.update_of_ne hne] at hw' ⊢
      exact Or.inl hw'
  refine ⟨h.trail, h.db, ⟨fun hl r => ?_, fun hw' hl => ?_, fun r => ?_⟩, fun r w' hw' => ?_,
    h.dirties, h.reason, h.implied, h.search, h.queue, h.level, h.inv, h.here⟩
  · rw [hmap]
    exact h.watch.mem hl r
  · rcases hmem hw' with hold | rfl
    · exact h.watch.blocker hold hl
    · exact hc.unique hl ▸ hb
  · rw [hmap]
    exact h.watch.nodup r
  · rcases hmem hw' with hold | rfl
    · exact h.alive r w' hold
    · exact ⟨c, hc⟩

/-- `*j++ = w` -/
theorem keep (h : LoopOk N p done kept (w :: rest) s) (hc : Live s.ca w.cref c) {r : Lit}
    (hr : r ∈ c.lits) (hrt : r ∈ s.trail) : LoopOk N p done (kept ++ [w]) rest s := by
  have happend : kept ++ [w] ++ rest = kept ++ w :: rest := List.append_cons kept w rest |>.symm
  refine ⟨h.trail, h.db, happend ▸ h.watch, happend ▸ h.alive, h.dirties, h.reason, h.implied,
    h.search, h.queue, h.level, h.inv, fun {cr c'} hl hw hno => ?_⟩
  rcases eq_or_ne cr w.cref with rfl | hne
  · obtain rfl := hc.unique hl
    exact h.good hr hrt
  · refine h.here hl hw fun hmem => ?_
    rcases List.mem_cons.mp hmem with heq | hmem
    · exact hne heq
    · exact hno hmem

/-- `uncheckedEnqueue(first, cr)` -/
theorem enqueue (h : LoopOk N p done kept rest s) (hc : Live s.ca cr c)
    (hlits : c.lits = first :: tail) (hu : s.value first = l_Undef)
      (htail : ∀ q ∈ tail, -q ∈ s.trail) :
    Step N s.abs (s.uncheckedEnqueue first (some cr)).abs ∧
    LoopOk N p done kept rest
      { s with toAssignment := s.uncheckedEnqueue first (some cr) } := by
  have hstep : Step N s.abs (s.uncheckedEnqueue first (some cr)).abs := by
    rw [h.trail.abs_enqueue hu]
    refine Step.propagate (h.implied cr c hc) (hlits ▸ List.mem_cons_self) (fun q hq hne => ?_)
      (h.trail.undef_abs.mpr hu)
    rw [hlits] at hq
    exact TrailOk.isTrue_abs.mpr (htail q ((List.mem_cons.mp hq).resolve_left hne))
  have hvar : first.var < s.nVars := h.db.lt hc first (hlits ▸ List.mem_cons_self)
  obtain ⟨more, hq⟩ := h.queue
  refine ⟨hstep, h.trail.enqueue hu hvar, h.db, h.watch, h.alive, h.dirties,
    h.reason.enqueue h.trail hu hc hlits htail, h.implied, hstep.ok h.search,
    ⟨more ++ [first], ?_⟩, ?_, PropInv.enqueue h.inv h.trail hu h.done_subset, fun hl hw hno => ?_⟩
  · show s.trail ++ [first] = _
    rw [hq, List.append_assoc, List.cons_append]
  · exact (h.trail.level_enqueue hu h.mem_trail).trans h.level
  · exact (h.here hl hw hno).enqueue h.trail hu (by rw [neg_neg]; exact h.mem_trail)

/-- `c[1] = c[k]; c[k] = false_lit; watches[~c[1]].push(w)` -/
theorem move (h : LoopOk N p done kept (w :: rest) s) (hc : Live s.ca w.cref c)
    (hlits : c.lits = first :: -p :: (pre ++ q :: post)) (hq : -q ∉ s.trail) :
    LoopOk N p done kept rest
      { s.setLits w.cref c (first :: q :: (pre ++ -p :: post)) with
        toDatabase := (s.setLits w.cref c (first :: q :: (pre ++ -p :: post))).watch (-q)
          ⟨w.cref, first⟩ } := by
  have hnodup := h.db.nodup hc
  rw [hlits] at hnodup
  have hpq : q ≠ -p := by
    rintro rfl
    simp at hnodup
  have hpf : first ≠ -p := by
    rintro rfl
    simp at hnodup
  have hqp : -q ≠ p := fun heq => hpq (neg_eq_iff_eq_neg.mp heq)
  have htail : (q :: (pre ++ -p :: post)).Perm (-p :: (pre ++ q :: post)) :=
    (List.perm_middle.cons q).trans ((List.Perm.swap _ _ _).trans (List.perm_middle.symm.cons _))
  have hperm : (first :: q :: (pre ++ -p :: post)).Perm c.lits := hlits ▸ htail.cons first
  have hre : Reordered s.ca (s.setLits w.cref c (first :: q :: (pre ++ -p :: post))).ca :=
    Reordered.update hc.1 hperm
  have hnew : Live (s.setLits w.cref c (first :: q :: (pre ++ -p :: post))).ca w.cref
      { c with lits := first :: q :: (pre ++ -p :: post) } := live_setLits hc _
  have hother : ∀ {cr c'}, cr ≠ w.cref →
      Live (s.setLits w.cref c (first :: q :: (pre ++ -p :: post))).ca cr c' → Live s.ca cr c' :=
    fun hne hl => ⟨by simpa [Core.setLits, hne] using hl.1, hl.2⟩
  have hwatched : c.watched = [first, -p] := by rw [Clause.watched, hlits]; rfl
  -- the list of `p` has this watcher once
  have hlist := h.watch.nodup p
  rw [Function.update_self, List.map_append, List.map_cons] at hlist
  have hgone : w.cref ∉ (kept ++ rest).map Watcher.cref := by
    rw [List.map_append]
    exact (List.nodup_middle.mp hlist).notMem
  have hmemp : ∀ {cr}, cr ≠ w.cref → (cr ∈ (kept ++ rest).map Watcher.cref ↔
      cr ∈ (kept ++ w :: rest).map Watcher.cref) := by
    intro cr hne
    rw [List.map_append, List.map_append, List.map_cons, List.mem_append, List.mem_append,
      List.mem_cons]
    simp [hne]
  have hW : ∀ r,
    Function.update (Function.update s.watches (-q) (s.watches (-q) ++ [⟨w.cref, first⟩]))
      p (kept ++ rest) r = if r = p then kept ++ rest
        else if r = -q then s.watches (-q) ++ [⟨w.cref, first⟩] else s.watches r := by
    intro r
    simp only [Function.update_apply]
  have hold : ∀ {r}, r ≠ p → Function.update s.watches p (kept ++ w :: rest) r = s.watches r :=
    fun hne => Function.update_of_ne hne _ _
  have hdb : DbOk s.nVars (s.setLits w.cref c (first :: q :: (pre ++ -p :: post))).toDatabase :=
    hre.dbOk h.db rfl rfl rfl
  refine ⟨h.trail, hdb.watch _ _, ⟨fun {cr c'} hl r => ?_, fun {r w' c'} hw' hl => ?_, fun r => ?_⟩,
    fun r w' hw' => ?_, h.dirties, h.reason.reorder fun {cr c' a l} hl hlits' ha _ => ?_,
    hre.implied h.implied, h.search, h.queue, h.level, fun {cr c'} hl l hlw hd => ?_,
    fun {cr c'} hl hw hno => ?_⟩
  · show cr ∈ (Function.update (Function.update s.watches (-q) (s.watches (-q) ++ [_])) p
      (kept ++ rest) r).map Watcher.cref ↔ _
    rw [hW]
    rcases eq_or_ne cr w.cref with rfl | hne
    · obtain rfl := hnew.unique hl
      rw [Clause.watched, List.take_succ_cons, List.take_succ_cons, List.take_zero, List.mem_cons,
        List.mem_singleton]
      split
      · next hr =>
          subst hr
          refine iff_of_false hgone ?_
          rintro (heq | heq)
          · exact hpf heq.symm
          · exact hpq heq.symm
      · next hr =>
          split
          · next hr' =>
              subst hr'
              simp
          · next hr' =>
              have hm := h.watch.mem hc r
              rw [hold hr, hwatched, List.mem_cons, List.mem_singleton] at hm
              rw [hm]
              have h₁ : -r ≠ -p := fun heq => hr (neg_injective heq)
              have h₂ : -r ≠ q := fun heq => hr' (neg_eq_iff_eq_neg.mp heq)
              simp [h₁, h₂]
    · have hm := h.watch.mem (hother hne hl) r
      split
      · next hr =>
          subst hr
          rw [Function.update_self] at hm
          rw [hmemp hne, hm]
      · next hr =>
          rw [hold hr] at hm
          split
          · next hr' =>
              subst hr'
              rw [List.map_append, List.mem_append, ← hm]
              simp [hne]
          · exact hm
  · obtain ⟨c'', hc'', hperm', -⟩ := hre.symm.live hl
    change w' ∈ Function.update (Function.update s.watches (-q) (s.watches (-q) ++ [_])) p
      (kept ++ rest) r at hw'
    rw [hW] at hw'
    refine hperm'.subset ?_
    split at hw'
    · next hr =>
        subst hr
        refine h.watch.blocker (p := r) ?_ hc''
        rw [Function.update_self]
        rcases List.mem_append.mp hw' with hw' | hw'
        · exact List.mem_append_left _ hw'
        · exact List.mem_append_right _ (List.mem_cons_of_mem _ hw')
    · next hr =>
        split at hw'
        · next hr' =>
            subst hr'
            rcases List.mem_append.mp hw' with hw' | hw'
            · exact h.watch.blocker (p := -q) (by rwa [hold hr]) hc''
            · obtain rfl := List.mem_singleton.mp hw'
              rw [hc.unique hc''] at hlits
              rw [hlits]
              exact List.mem_cons_self
        · exact h.watch.blocker (p := r) (by rwa [hold hr]) hc''
  · show ((Function.update (Function.update s.watches (-q) (s.watches (-q) ++ [_])) p
      (kept ++ rest) r).map Watcher.cref).Nodup
    rw [hW]
    split
    · rw [List.map_append]
      exact (List.nodup_middle.mp hlist).of_cons
    · next hr =>
        have hn := h.watch.nodup r
        rw [hold hr] at hn
        split
        · next hr' =>
            subst hr'
            have hm := h.watch.mem hc (-q)
            rw [hold hr, hwatched] at hm
            rw [List.map_append, List.nodup_append]
            refine ⟨hn, List.nodup_singleton _, fun x hx y hy heq => ?_⟩
            rw [heq, List.mem_singleton.mp hy] at hx
            have hq' := hm.mp hx
            rw [neg_neg] at hq'
            rcases List.mem_cons.mp hq' with rfl | hq'
            · simp at hnodup
            · exact hpq (List.mem_singleton.mp hq')
        · exact hn
  · change w' ∈ Function.update (Function.update s.watches (-q) (s.watches (-q) ++ [_])) p
      (kept ++ rest) r at hw'
    rw [hW] at hw'
    have hlive : ∀ {cr}, (∃ c, Live s.ca cr c) →
        ∃ c', Live (s.setLits w.cref c (first :: q :: (pre ++ -p :: post))).ca cr c' := by
      rintro cr ⟨c', hc'⟩
      obtain ⟨c'', hc'', -⟩ := hre.live hc'
      exact ⟨c'', hc''⟩
    split at hw'
    · next hr =>
        subst hr
        refine hlive (h.alive r w' ?_)
        rw [Function.update_self]
        rcases List.mem_append.mp hw' with hw' | hw'
        · exact List.mem_append_left _ hw'
        · exact List.mem_append_right _ (List.mem_cons_of_mem _ hw')
    · next hr =>
        split at hw'
        · next hr' =>
            subst hr'
            rcases List.mem_append.mp hw' with hw' | hw'
            · exact hlive (h.alive (-q) w' (by rwa [hold hr]))
            · obtain rfl := List.mem_singleton.mp hw'
              exact ⟨_, hnew⟩
        · exact hlive (h.alive r w' (by rwa [hold hr]))
  · rcases eq_or_ne cr w.cref with rfl | hne
    · obtain rfl := hc.unique hl
      rw [hlits] at hlits'
      cases hlits'
      exact ⟨_, _, hnew, rfl, htail.subset⟩
    · exact ⟨c', l, ⟨(Function.update_of_ne hne _ _).trans hl.1, hl.2⟩, hlits', List.Subset.refl _⟩
  · rcases eq_or_ne cr w.cref with rfl | hne
    · obtain rfl := hnew.unique hl
      rcases List.mem_cons.mp hlw with rfl | hlw
      · exact (h.inv hc l (hwatched ▸ List.mem_cons_self) hd).subset hperm.symm.subset
      · have hlq : l = q := List.mem_singleton.mp hlw
        subst hlq
        exact absurd (h.done_subset hd) hq
    · exact h.inv (hother hne hl) l hlw hd
  · rcases eq_or_ne cr w.cref with rfl | hne
    · obtain rfl := hnew.unique hl
      rcases List.mem_cons.mp hw with heq | hw
      · exact absurd heq.symm hpf
      · exact absurd (List.mem_singleton.mp hw).symm hpq
    · refine h.here (hother hne hl) hw fun hmem => ?_
      rcases List.mem_cons.mp hmem with heq | hmem
      · exact hne heq
      · exact hno hmem

end LoopOk

/-! ## The whole propagation -/

/-- What propagation may change. -/
structure Propagated (N : Set (List Lit)) (s s' : Core) : Prop where
  run : Relation.ReflTransGen (Step N) s.abs s'.abs
  ca : Reordered s.ca s'.ca
  trail : s.trail <+: s'.trail
  trail_lim : s'.trail_lim = s.trail_lim
  nVars : s'.nVars = s.nVars
  nextRef : s'.nextRef = s.nextRef
  clauses : s'.clauses = s.clauses
  learnts : s'.learnts = s.learnts
  vardata : ∀ p ∈ s.trail, s'.vardata p.var = s.vardata p.var
  enqueued : ∀ p ∈ s'.trail, p ∉ s.trail → s'.reason p.var ≠ none

namespace Propagated

variable {N : Set (List Lit)} {s s' s'' : Core}

theorem refl (s : Core) : Propagated N s s :=
  ⟨.refl, Reordered.refl _, List.prefix_rfl, rfl, rfl, rfl, rfl, rfl, fun _ _ => rfl,
    fun _ hp hno => absurd hp hno⟩

theorem trans (h : Propagated N s s') (h' : Propagated N s' s'') : Propagated N s s'' := by
  refine ⟨h.run.trans h'.run, h.ca.trans h'.ca, h.trail.trans h'.trail,
    h'.trail_lim.trans h.trail_lim, h'.nVars.trans h.nVars, h'.nextRef.trans h.nextRef,
    h'.clauses.trans h.clauses, h'.learnts.trans h.learnts, fun p hp => ?_, fun p hp hno => ?_⟩
  · exact (h'.vardata p (h.trail.subset hp)).trans (h.vardata p hp)
  · by_cases hp' : p ∈ s'.trail
    · have hr := h.enqueued p hp' hno
      rwa [Assignment.reason, ← h'.vardata p hp'] at hr
    · exact h'.enqueued p hp hp'

theorem level (h : Propagated N s s') {p : Lit} (hp : p ∈ s.trail) :
    s'.level p.var = s.level p.var := congrArg VarData.level (h.vardata p hp)

theorem reason (h : Propagated N s s') {p : Lit} (hp : p ∈ s.trail) :
    s'.reason p.var = s.reason p.var := congrArg VarData.reason (h.vardata p hp)

theorem grows (h : Propagated N s s') : Extends s.toAssignment s'.toAssignment :=
  ⟨h.trail, h.trail_lim, fun _ hp => h.level hp⟩

theorem decisionLevel (h : Propagated N s s') : s'.decisionLevel = s.decisionLevel :=
  h.grows.decisionLevel

end Propagated

/-- The clause is false, and was not before the current level. -/
def Conflict (s : Core) (cr : ℕ) : Prop :=
  ∃ c, Live s.ca cr c ∧ (∀ q ∈ c.lits, -q ∈ s.trail) ∧ ∃ q ∈ c.lits, s.level q.var = s.decisionLevel

section

variable {N : Set (List Lit)} {s s' : Core} {p : Lit} {done : List Lit} {kept rest : List Watcher}
  {w : Watcher}

theorem setLits_propagated {cr : ℕ} {c : Clause} {lits : List Lit} (hc : Live s.ca cr c)
    (hperm : lits.Perm c.lits) (W : Lit → List Watcher) :
    Propagated N s { s.setLits cr c lits with watches := W } :=
  ⟨.refl, Reordered.update hc.1 hperm, List.prefix_rfl, rfl, rfl, rfl, rfl, rfl, fun _ _ => rfl,
    fun _ hp hno => absurd hp hno⟩

theorem watched_perm {first : Lit} {tail lits : List Lit}
    (hc : lits = first :: -p :: tail ∨ lits = -p :: first :: tail) :
    (first :: -p :: tail).Perm lits := by
  rcases hc with rfl | rfl
  · exact List.Perm.refl _
  · exact List.Perm.swap _ _ _

/-- A visit keeps the invariant, or finds a clause that is false. -/
theorem LoopOk.visit (h : LoopOk N p done kept (w :: rest) s) :
    ∃ v, s.visit p w = some v ∧
      match v with
      | .keep w' s' => Propagated N s s' ∧ s'.qhead = s.qhead ∧
          LoopOk N p done (kept ++ [w']) rest s'
      | .move s' => Propagated N s s' ∧ s'.qhead = s.qhead ∧ LoopOk N p done kept rest s'
      | .conflict w' s' => Propagated N s s' ∧ LoopOk N p done kept (w' :: rest) s' ∧
          Conflict s' w.cref := by
  obtain ⟨c, hc, hw⟩ := h.live
  obtain ⟨v, hv, hcase⟩ := visit_visits h.trail hc.1 hw (h.db.two hc.1)
  refine ⟨v, hv, ?_⟩
  cases hcase with
  | blocked hb =>
      have hblocker : w.blocker ∈ c.lits := h.watch.blocker (p := p) (w := w) (by simp) hc
      exact ⟨.refl s, rfl, h.keep hc hblocker hb⟩
  | @satisfied first tail hlits hf =>
      have hlive := LoopOk.live_setLits hc (first :: -p :: tail)
      exact ⟨setLits_propagated hc (watched_perm hlits) s.watches, rfl,
        ((h.swap hc hlits).replace hlive List.mem_cons_self).keep hlive List.mem_cons_self hf⟩
  | @moved first q pre post hlits hq =>
      have hlive := LoopOk.live_setLits hc (first :: -p :: (pre ++ q :: post))
      have hmove := (h.swap hc hlits).move hlive rfl hq
      have htwice : ((s.setLits w.cref c (first :: -p :: (pre ++ q :: post))).setLits w.cref
          { c with lits := first :: -p :: (pre ++ q :: post) }
            (first :: q :: (pre ++ -p :: post))) =
          s.setLits w.cref c (first :: q :: (pre ++ -p :: post)) := by
        simp [Core.setLits]
      rw [htwice] at hmove
      refine ⟨setLits_propagated hc ?_ _, rfl, hmove⟩
      refine List.Perm.trans ?_ (watched_perm hlits)
      exact ((List.perm_middle.cons q).trans ((List.Perm.swap _ _ _).trans
        (List.perm_middle.symm.cons _))).cons first
  | @conflict first tail hlits hf htail =>
      have hlive := LoopOk.live_setLits hc (first :: -p :: tail)
      refine ⟨setLits_propagated hc (watched_perm hlits) s.watches,
        (h.swap hc hlits).replace hlive List.mem_cons_self, _, hlive, fun q hq => ?_, -p, ?_, ?_⟩
      · rcases List.mem_cons.mp hq with rfl | hq
        · exact hf
        · rcases List.mem_cons.mp hq with rfl | hq
          · rw [neg_neg]
            exact h.mem_trail
          · exact htail q hq
      · exact List.mem_cons_of_mem _ List.mem_cons_self
      · rw [Lit.var_neg]
        exact h.level
  | @unit first tail hlits hf htail =>
      have hlive := LoopOk.live_setLits hc (first :: -p :: tail)
      have hswap := (h.swap hc hlits).replace hlive (q := first) List.mem_cons_self
      have hrest : ∀ q ∈ -p :: tail, -q ∈ s.trail := by
        intro q hq
        rcases List.mem_cons.mp hq with rfl | hq
        · rw [neg_neg]
          exact h.mem_trail
        · exact htail q hq
      obtain ⟨hstep, henq⟩ := hswap.enqueue hlive rfl hf hrest
      refine ⟨(setLits_propagated hc (watched_perm hlits) s.watches).trans ?_, rfl,
        henq.keep hlive List.mem_cons_self ?_⟩
      · refine ⟨.single hstep, Reordered.refl _, List.prefix_append _ _, rfl, rfl, rfl, rfl, rfl,
          fun p hp => ?_, fun p hp hno => ?_⟩
        · exact Function.update_of_ne (ReasonOk.ne_var h.trail hf hp) _ _
        · rcases List.mem_append.mp hp with hp | hp
          · exact absurd hp hno
          · rw [List.mem_singleton.mp hp, TrailOk.reason_enqueue_self]
            exact Option.some_ne_none _
      · exact List.mem_append_right _ (List.mem_singleton.mpr rfl)

/-- What the loop leaves behind when the list has been written back. -/
theorem LoopOk.coreOk (h : LoopOk N p done kept rest s) :
    CoreOk N (s.setWatches p (kept ++ rest)) ∧
      Alive s.ca (s.setWatches p (kept ++ rest)).watches := by
  refine ⟨⟨h.trail, ⟨h.db.fresh, h.db.two, h.db.nodup, h.db.lt, h.db.mem_refs,
    h.db.refs_nodup⟩, h.watch, ⟨fun q w hw => ?_, h.dirties⟩, h.reason,
    h.implied, h.search⟩, h.alive⟩
  obtain ⟨c, hc⟩ := h.alive q w hw
  exact ⟨c, hc.1, fun hm => absurd (hm.symm.trans hc.2) Bool.noConfusion⟩

/-- The queue may be taken as empty. -/
theorem TrailOk.flush {s : Assignment} (h : TrailOk s) :
    TrailOk { s with qhead := s.trail.length } :=
  ⟨h.lt, h.nodup, h.value, h.lim_sorted, fun m hm => (h.lim_le m hm).trans h.qhead_le,
    le_rfl, h.level⟩

theorem CoreOk.flush (h : CoreOk N s) : CoreOk N { s with qhead := s.trail.length } :=
  ⟨h.trail.flush, h.db, h.watch, h.removed, ⟨h.reason.clause, h.reason.decision⟩,
    h.implied, h.search⟩

/-- The literals up to `done` have been propagated; if no clause is false, so has `p`. -/
theorem propagateList_spec (h : LoopOk N p done kept rest s) :
    ∃ confl s', Core.propagateList p rest kept s = some (confl, s') ∧ Propagated N s s' ∧
      CoreOk N s' ∧ Alive s'.ca s'.watches ∧
      match confl with
      | none => s'.qhead = s.qhead ∧ PropInv s'.toAssignment s'.ca (done ++ [p])
      | some cr => s'.qhead = s'.trail.length ∧ PropInv s'.toAssignment s'.ca done ∧
          Conflict s' cr := by
  induction rest generalizing kept s with
  | nil =>
      have hcore := h.coreOk
      rw [List.append_nil] at hcore
      refine ⟨none, _, rfl, ⟨.refl, Reordered.refl _, List.prefix_rfl, rfl, rfl, rfl, rfl, rfl,
        fun _ _ => rfl,
    fun _ hp hno => absurd hp hno⟩,
        hcore.1, hcore.2, rfl, fun {cr c} hc l hl hd => ?_⟩
      rcases List.mem_append.mp hd with hd | hd
      · exact h.inv hc l hl hd
      · have hlp : l = -p := neg_eq_iff_eq_neg.mp (List.mem_singleton.mp hd)
        subst hlp
        exact h.here hc hl List.not_mem_nil
  | cons w rest ih =>
      obtain ⟨v, hv, hcase⟩ := h.visit
      rw [Core.propagateList, hv]
      match v, hcase with
      | .keep w' s', ⟨hprop, hq, hloop⟩ =>
          obtain ⟨confl, s'', hrun, hprop', hok, halive, hpost⟩ := ih hloop
          refine ⟨confl, s'', hrun, hprop.trans hprop', hok, halive, ?_⟩
          rwa [← hq]
      | .move s', ⟨hprop, hq, hloop⟩ =>
          obtain ⟨confl, s'', hrun, hprop', hok, halive, hpost⟩ := ih hloop
          refine ⟨confl, s'', hrun, hprop.trans hprop', hok, halive, ?_⟩
          rwa [← hq]
      | .conflict w' s', ⟨hprop, hloop, hconf⟩ =>
          have hcore := hloop.coreOk
          refine ⟨some w.cref, _, rfl, hprop.trans ?_, hcore.1.flush, hcore.2, rfl,
            hloop.inv, hconf⟩
          exact ⟨.refl, Reordered.refl _, List.prefix_rfl, rfl, rfl, rfl, rfl, rfl, fun _ _ => rfl,
    fun _ hp hno => absurd hp hno⟩

/-- The next literal of the queue. -/
theorem CoreOk.dequeue (h : CoreOk N s) (ha : Alive s.ca s.watches)
    (hinv : PropInv s.toAssignment s.ca (s.trail.take s.qhead)) (hp : s.trail[s.qhead]? = some p) :
    LoopOk N p (s.trail.take s.qhead) [] (s.watches p) { s with qhead := s.qhead + 1 } := by
  have hlt : s.qhead < s.trail.length := (List.getElem?_eq_some_iff.mp hp).1
  have hsame : Function.update s.watches p ([] ++ s.watches p) = s.watches := by
    rw [List.nil_append, Function.update_eq_self]
  refine ⟨⟨h.trail.lt, h.trail.nodup, h.trail.value, h.trail.lim_sorted,
    fun m hm => (h.trail.lim_le m hm).trans (Nat.le_succ _), hlt, h.trail.level⟩, h.db, ?_, ?_,
    h.removed.dirties, ⟨h.reason.clause, h.reason.decision⟩, h.implied, h.search, ?_,
    h.trail.level_of_qhead hp le_rfl, hinv, fun hc hw hno => ?_⟩
  · exact hsame.symm ▸ h.watch
  · exact hsame.symm ▸ ha
  · refine ⟨s.trail.drop (s.qhead + 1), ?_⟩
    have hget : s.trail[s.qhead] = p := (List.getElem?_eq_some_iff.mp hp).2
    show s.trail = _
    rw [← hget, ← List.drop_eq_getElem_cons hlt, List.take_append_drop]
  · exact absurd ((h.watch.mem hc p).mpr hw) hno

theorem take_append_of_prefix {l l' : List Lit} (h : l <+: l') {n : ℕ} (hn : l[n]? = some p) :
    l'.take (n + 1) = l.take n ++ [p] := by
  obtain ⟨t, rfl⟩ := h
  have hlt := (List.getElem?_eq_some_iff.mp hn).1
  rw [List.take_append_of_le_length (Nat.succ_le_of_lt hlt), List.take_add_one, hn]
  rfl

theorem propagateLoop_spec (fuel num_props : ℕ) (h : CoreOk N s) (ha : Alive s.ca s.watches)
    (hinv : PropInv s.toAssignment s.ca (s.trail.take s.qhead))
    (hfuel : s.nVars - s.qhead < fuel) :
    ∃ confl n s', Core.propagateLoop fuel num_props s = some (confl, n, s') ∧
      Propagated N s s' ∧ CoreOk N s' ∧ s'.qhead = s'.trail.length ∧
      match confl with
      | none => PropInv s'.toAssignment s'.ca s'.trail
      | some cr => PropInv s'.toAssignment s'.ca (s.trail.take s.qhead) ∧ Conflict s' cr := by
  induction fuel generalizing s num_props with
  | zero => exact absurd hfuel (Nat.not_lt_zero _)
  | succ fuel ih =>
      rw [Core.propagateLoop]
      cases hp : s.trail[s.qhead]? with
      | none =>
          have hq : s.qhead = s.trail.length :=
            Nat.le_antisymm h.trail.qhead_le (List.getElem?_eq_none_iff.mp hp)
          rw [hq, List.take_length] at hinv
          exact ⟨none, num_props, s, rfl, .refl s, h, hq, hinv⟩
      | some p =>
          have hlt : s.qhead < s.nVars :=
            (List.getElem?_eq_some_iff.mp hp).1.trans_le h.trail.length_le
          obtain ⟨confl, s', hrun, hprop, hok, halive, hpost⟩ :=
            propagateList_spec (h.dequeue ha hinv hp)
          simp only [hrun]
          cases confl with
          | some cr =>
              obtain ⟨hq, hinv', hconf⟩ := hpost
              exact ⟨some cr, num_props + 1, s', rfl, ⟨hprop.run, hprop.ca, hprop.trail,
                hprop.trail_lim, hprop.nVars, hprop.nextRef, hprop.clauses, hprop.learnts,
                  hprop.vardata,
                hprop.enqueued⟩, hok, hq,
                hinv', hconf⟩
          | none =>
              obtain ⟨hq, hinv'⟩ := hpost
              have hdone : s'.trail.take s'.qhead = s.trail.take s.qhead ++ [p] := by
                rw [hq]
                exact take_append_of_prefix hprop.trail hp
              have hfuel' : s'.nVars - s'.qhead < fuel := by
                rw [hprop.nVars, hq]
                show s.nVars - (s.qhead + 1) < fuel
                omega
              obtain ⟨confl, n, s'', hrun', hprop', hok', hq', hpost'⟩ :=
                ih (num_props + 1) hok halive (hdone.symm ▸ hinv') hfuel'
              have hall : Propagated N s s'' := Propagated.trans ⟨hprop.run, hprop.ca, hprop.trail,
                hprop.trail_lim, hprop.nVars, hprop.nextRef, hprop.clauses, hprop.learnts,
                  hprop.vardata,
                hprop.enqueued⟩ hprop'
              refine ⟨confl, n, s'', hrun', hall, hok', hq', ?_⟩
              cases confl with
              | none => exact hpost'
              | some cr =>
                  refine ⟨PropInv.mono hpost'.1 ?_, hpost'.2⟩
                  rw [hdone]
                  exact List.subset_append_left _ _

theorem CoreOk.cleanAll (h : CoreOk N s) :
    CoreOk N { s with toDatabase := s.cleanAll } ∧ s.cleanAll.ca = s.ca ∧
      Alive s.ca s.cleanAll.watches ∧ Propagated N s { s with toDatabase := s.cleanAll } := by
  obtain ⟨W, hclean, hwatch, halive⟩ := Database.cleanAll_spec h.removed h.watch
  rw [hclean]
  refine ⟨⟨h.trail, ⟨h.db.fresh, h.db.two, h.db.nodup, h.db.lt, h.db.mem_refs,
    h.db.refs_nodup⟩, hwatch, ⟨fun q w hw => ?_, fun q hq => ?_⟩, h.reason,
    h.implied, h.search⟩, rfl, halive,
    ⟨.refl, Reordered.refl _, List.prefix_rfl, rfl, rfl, rfl, rfl, rfl, fun _ _ => rfl,
    fun _ hp hno => absurd hp hno⟩⟩
  · obtain ⟨c, hc⟩ := halive q w hw
    exact ⟨c, hc.1, fun hm => absurd (hm.symm.trans hc.2) Bool.noConfusion⟩
  · exact absurd hq Bool.false_ne_true

/-- Propagation never fails. It takes steps of the search only; without a conflict all literals on
the trail have been propagated, and with one those have that had been before. -/
theorem propagate_spec (h : CoreOk N s)
    (hinv : PropInv s.toAssignment s.ca (s.trail.take s.qhead)) :
    ∃ confl n s', s.propagate = some (confl, n, s') ∧ Propagated N s s' ∧ CoreOk N s' ∧
      s'.qhead = s'.trail.length ∧
      match confl with
      | none => PropInv s'.toAssignment s'.ca s'.trail
      | some cr => PropInv s'.toAssignment s'.ca (s.trail.take s.qhead) ∧ Conflict s' cr := by
  obtain ⟨hok, hca, halive, hprop⟩ := h.cleanAll
  obtain ⟨confl, n, s', hrun, hprop', hpost⟩ := propagateLoop_spec (s.nVars + 1) 0
    hok (by rw [hca]; exact halive) (by rw [hca]; exact hinv)
    (Nat.lt_succ_of_le (Nat.sub_le _ _))
  exact ⟨confl, n, s', hrun, hprop.trans hprop', hpost⟩

/-- Where all literals have been propagated, a clause is true or has two literals that are not
false. -/
theorem PropInv.not_unit (h : PropInv s.toAssignment s.ca s.trail) {cr : ℕ} {c : Clause} {a b : Lit}
    {tail : List Lit} (hc : Live s.ca cr c) (hlits : c.lits = a :: b :: tail) :
    (∃ r ∈ c.lits, r ∈ s.trail) ∨ -a ∉ s.trail ∧ -b ∉ s.trail := by
  by_cases hr : ∃ r ∈ c.lits, r ∈ s.trail
  · exact Or.inl hr
  · refine Or.inr ⟨fun ha => hr ?_, fun hb => hr ?_⟩
    · obtain ⟨r, hrc, hrt, -⟩ := h hc a (by simp [Clause.watched, hlits]) ha
      exact ⟨r, hrc, hrt⟩
    · obtain ⟨r, hrc, hrt, -⟩ := h hc b (by simp [Clause.watched, hlits]) hb
      exact ⟨r, hrc, hrt⟩

end

end ExtFolding.Minisat
