import ExtFolding.MeMin.Rows
import ExtFolding.MeMin.Split

/-!
# The tables and the rows

When the inputs of every state are disjoint, the tables of `splitTransitions` say what the rows say:
an entry comes from a row that has all words of its input, and every word of a row is in an input
with an entry for that row.
-/

namespace ExtFolding.MeMin

namespace SplitMachine

/-- The next state of a state under a numbered input. -/
def next (sm : SplitMachine) (s a : ℕ) : Option ℕ := (sm.nextStatesMap.getD s []).getD a none

/-- The output of a state under a numbered input. -/
def out (sm : SplitMachine) (s a : ℕ) : Option IncSpecSeq := (sm.outputsMap.getD s []).getD a none

end SplitMachine

variable {n : ℕ} {states : List (List Trans)} {incompMatrix : List Bool}
  {parts : List (List Bool × List IncSpecSeq)} {sm : SplitMachine} {ids D : List IncSpecSeq}

/-- Disjoint rows leave nothing to the order of the states. -/
theorem RowsApart.firstApart (h : RowsApart n states) (c : List Bool) : FirstApart n states c := by
  refine Or.inl ?_
  rintro _ _ ⟨s, hs, q, hq, rfl⟩ ⟨s', hs', r, hr, rfl⟩
  obtain rfl : s = s' := Option.some.inj (hs.symm.trans hs')
  by_cases heq : q = r
  · exact Or.inl (heq ▸ rfl)
  · refine Or.inr (Set.disjoint_left.mpr fun w hwq hwr => heq (h.row_eq hq hr hwq hwr))

/-- A word of a row is in an input that the row is written under. -/
theorem exists_touched {c : List Bool} (hD : Refined n states c D) {t : Trans}
    (hin : ClassInput states c t.1) (ht : t.1.Wf n) {w : Fin n → Bool} (hw : w ∈ t.1.words n) :
    ∃ x ∈ touched D t, w ∈ x.words n := by
  unfold touched
  split
  · exact ⟨t.1, List.mem_singleton_self _, hw⟩
  · rw [hD.cover t.1 hin] at hw
    simp only [Set.mem_iUnion, exists_prop, Set.mem_ofPred_eq] at hw
    obtain ⟨d, ⟨hd, hsub⟩, hwd⟩ := hw
    exact ⟨d, List.mem_filter.mpr
      ⟨hd, (IncSpecSeq.isSubset_iff_words (hD.wf d hd) ht).mpr hsub⟩, hwd⟩

namespace TablesOk

/-- The row of a state in the tables. -/
theorem rowInv (h : TablesOk n states incompMatrix parts sm)
    (hwf : ∀ trans ∈ states, ∀ t ∈ trans, t.1.Wf n) {p : List Bool × List IncSpecSeq}
    (hp : p ∈ parts) {s : ℕ} (hs : s ∈ classStates states p.1) :
    RowInv n sm.inputIDToIncSpecSeq p.2 (rowsOf states s)
      (sm.nextStatesMap.getD s [], sm.outputsMap.getD s []) := by
  rw [h.next p hp s hs, h.out p hp s hs]
  refine splitState_spec (h.numbered p hp) fun t ht => ?_
  obtain ⟨trans, htrans, ht⟩ := rowsOf_mem ht
  exact hwf trans htrans t ht

/-- An entry comes from a row, and from an input of the part. -/
theorem entry (h : TablesOk n states incompMatrix parts sm)
    (hwf : ∀ trans ∈ states, ∀ t ∈ trans, t.1.Wf n) {p : List Bool × List IncSpecSeq}
    (hp : p ∈ parts) {s : ℕ} (hs : s ∈ classStates states p.1) {a t : ℕ}
    (hst : sm.next s a = some t) :
    ∃ q ∈ rowsOf states s, q.2.1 = t ∧ sm.out s a = some q.2.2 ∧
      ∃ d ∈ p.2, inputID sm.inputIDToIncSpecSeq d = a ∧ ∃ e, sm.inputIDToIncSpecSeq[a]? = some e ∧
        e.Wf n ∧ e.words n = d.words n ∧ e.words n ⊆ q.1.words n := by
  obtain ⟨q, hq, hqt, hout, d, hd, rfl, hsub⟩ := (h.rowInv hwf hp hs).entry a t hst
  obtain ⟨hnum, hmem⟩ := h.numbered p hp
  obtain ⟨e, hget, heq⟩ := inputID_spec hnum (hmem d hd).1 (hmem d hd).2
  exact ⟨q, hq, hqt, hout, d, hd, rfl, e, hget, hnum.1 e (List.mem_of_getElem? hget), heq,
    heq.trans_subset hsub⟩

/-- An entry comes from a row that has all words of the input. -/
theorem row (h : TablesOk n states incompMatrix parts sm)
    (hwf : ∀ trans ∈ states, ∀ t ∈ trans, t.1.Wf n) {s a t : ℕ} (hs : s < states.length)
    (hst : sm.next s a = some t) :
    ∃ q ∈ rowsOf states s, q.2.1 = t ∧ sm.out s a = some q.2.2 ∧
      ∃ e, sm.inputIDToIncSpecSeq[a]? = some e ∧ e.Wf n ∧ e.words n ⊆ q.1.words n := by
  obtain ⟨p, hp, hsp⟩ := h.cover s hs
  obtain ⟨q, hq, hqt, hout, -, -, -, e, hget, hewf, -, hsub⟩ := h.entry hwf hp hsp hst
  exact ⟨q, hq, hqt, hout, e, hget, hewf, hsub⟩

/-- A word of a row is in an input with an entry for the row. -/
theorem input (h : TablesOk n states incompMatrix parts sm)
    (hwf : ∀ trans ∈ states, ∀ t ∈ trans, t.1.Wf n) (hapart : RowsApart n states) {s : ℕ}
    {q : Trans} (hq : q ∈ rowsOf states s) {w : Fin n → Bool} (hw : w ∈ q.1.words n) :
    ∃ a e, sm.inputIDToIncSpecSeq[a]? = some e ∧ w ∈ e.words n ∧ sm.next s a = some q.2.1 ∧
      sm.out s a = some q.2.2 := by
  obtain ⟨p, hp, hsp⟩ := h.cover s (lt_of_mem_rowsOf hq)
  obtain ⟨trans, htrans, hqt⟩ := rowsOf_mem hq
  have hqwf := hwf trans htrans q hqt
  have hD := h.refined p hp
  obtain ⟨x, hx, hwx⟩ := exists_touched hD ⟨s, hsp, q, hq, rfl⟩ hqwf hw
  obtain ⟨hxwf, d, hd, hdx, -⟩ := mem_touched hD.wf hqwf hx
  obtain ⟨hnum, hmem⟩ := h.numbered p hp
  obtain ⟨t, hst⟩ := Option.ne_none_iff_exists'.mp ((h.rowInv hwf hp hsp).written q hq x hx)
  obtain ⟨r, hr, hrt, hout, e, hget, -, hsub⟩ := h.row hwf (lt_of_mem_rowsOf hq) hst
  obtain ⟨e', hget', heq⟩ := inputID_spec hnum hxwf (by
    obtain ⟨e₀, he₀, heq₀⟩ := (hmem d hd).2
    exact ⟨e₀, he₀, heq₀.trans hdx⟩)
  obtain rfl : e = e' := Option.some.inj (hget.symm.trans hget')
  have hwe : w ∈ e.words n := heq.superset hwx
  -- the row that has written the entry last has the word, too
  obtain rfl := hapart.row_eq hr hq (hsub hwe) hw
  exact ⟨_, e, hget, hwe, hrt ▸ hst, hout⟩

/-- Different inputs with entries for states of one part are disjoint. -/
theorem inputs_disjoint (h : TablesOk n states incompMatrix parts sm)
    (hwf : ∀ trans ∈ states, ∀ t ∈ trans, t.1.Wf n) (hapart : RowsApart n states) {s s' : ℕ}
    (hs : s < states.length) (hs' : s' < states.length)
    (hcompat : s = s' ∨ Compatible states.length incompMatrix s s') {a b t t' : ℕ}
    (hst : sm.next s a = some t) (hst' : sm.next s' b = some t') (hab : a ≠ b) {e e' : IncSpecSeq}
    (he : sm.inputIDToIncSpecSeq[a]? = some e) (he' : sm.inputIDToIncSpecSeq[b]? = some e') :
    Disjoint (e.words n) (e'.words n) := by
  obtain ⟨p, hp, hsp⟩ := h.cover s hs
  have hsp' : s' ∈ classStates states p.1 := by
    rcases hcompat with rfl | hcompat
    · exact hsp
    · exact mem_classStates.mpr
        ⟨hs', h.closed p hp s hs s' hs' hcompat (mem_classStates.mp hsp).2⟩
  obtain ⟨-, -, -, -, d, hd, hda, x, hx, -, hxd, -⟩ := h.entry hwf hp hsp hst
  obtain ⟨-, -, -, -, d', hd', hdb, x', hx', -, hxd', -⟩ := h.entry hwf hp hsp' hst'
  obtain rfl : e = x := Option.some.inj (he.symm.trans hx)
  obtain rfl : e' = x' := Option.some.inj (he'.symm.trans hx')
  obtain ⟨hnum, hmem⟩ := h.numbered p hp
  have hdis : Apart (IncSpecSeq.words n) p.2 := (h.refined p hp).disjoint (hapart.firstApart p.1)
  rw [hxd, hxd']
  refine hdis.disjoint hd hd' fun heq => hab ?_
  rw [← hda, ← hdb]
  exact inputID_congr hnum.1 (hmem d hd).1 (hmem d' hd').1 heq

end TablesOk

end ExtFolding.MeMin
