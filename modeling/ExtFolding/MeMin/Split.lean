import ExtFolding.MeMin.Components
import ExtFolding.MeMin.DisjointInputs

/-!
# `memin/minimizer.cpp`: `splitTransitions`

The disjoint inputs of the classes get numbers, equal ones the same, and the rows of every state are
written under the numbers of the inputs inside them. The sets are hashed by value and traversed in
any order.
-/

namespace ExtFolding.MeMin

/-! ## The code -/

/-- The orders in which the set of disjoint inputs of a class is traversed: as it is returned, and
as the copy in `disjInputsForTCS`. -/
structure SetOrders where
  disjInputs : ℕ → List IncSpecSeq → List IncSpecSeq
  copy : ℕ → List IncSpecSeq → List IncSpecSeq
  perm : ∀ k D, (disjInputs k D).Perm D
  copyPerm : ∀ k D, (copy k D).Perm D

/-- `inputIDToIncSpecSeq.push_back(disjInput)`, unless an equal input has a number. -/
def addInput (ids : List IncSpecSeq) (disjInput : IncSpecSeq) : List IncSpecSeq :=
  if ids.any (·.equals disjInput) then ids else ids ++ [disjInput]

/-- `incSpecSeqToInputID[input]` -/
def inputID (ids : List IncSpecSeq) (input : IncSpecSeq) : ℕ := ids.findIdx (·.equals input)

/-- `curNextState` and `curOutput` -/
abbrev StateRow := List (Option ℕ) × List (Option IncSpecSeq)

def assign (ids : List IncSpecSeq) (t : Trans) (r : StateRow) (input : IncSpecSeq) : StateRow :=
  (r.1.set (inputID ids input) (some t.2.1), r.2.set (inputID ids input) (some t.2.2))

/-- One transition; `disjInputs` in the order of traversal. -/
def splitRowOf (ids disjInputs : List IncSpecSeq) (r : StateRow) (t : Trans) : StateRow :=
  if disjInputs.any (·.equals t.1) then assign ids t r t.1
  else disjInputs.foldl (fun r disjInput =>
    if disjInput.isSubset t.1 then assign ids t r disjInput else r) r

def splitState (ids disjInputs : List IncSpecSeq) (curMap : List Trans) : StateRow :=
  curMap.foldl (splitRowOf ids disjInputs)
    (List.replicate ids.length none, List.replicate ids.length none)

/-- What `splitTransitions` leaves. -/
structure SplitMachine where
  nextStatesMap : List (List (Option ℕ))
  outputsMap : List (List (Option IncSpecSeq))
  inputIDToIncSpecSeq : List IncSpecSeq

/-- The numbered inputs of all classes. -/
def inputIDs (so : SetOrders) (disjInputsForTCS : List (List IncSpecSeq)) : List IncSpecSeq :=
  disjInputsForTCS.zipIdx.foldl (fun ids p => (so.disjInputs p.2 p.1).foldl addInput ids) []

/-- The rows of the states of one class. -/
def splitClass (states : List (List Trans)) (ids : List IncSpecSeq) (rows : List StateRow)
    (p : List Bool × List IncSpecSeq) : List StateRow :=
  (classStates states p.1).foldl (fun rows curTcs =>
    rows.set curTcs (splitState ids p.2 (rowsOf states curTcs))) rows

def splitTransitions (hs : ℕ → Hashing) (so : SetOrders) (fuel : ℕ) (states : List (List Trans))
    (incompMatrix : List Bool) : Option SplitMachine := do
  let tcs ← getTransitivelyCompatibleStates states.length incompMatrix
  let disjInputsForTCS ← tcs.zipIdx.mapM fun p => getDisjointInputSet (hs p.2) fuel states p.1
  let ids := inputIDs so disjInputsForTCS
  let copies := disjInputsForTCS.zipIdx.map fun p => so.copy p.2 p.1
  let rows := (tcs.zip copies).foldl (splitClass states ids) (List.replicate states.length ([], []))
  return ⟨rows.map (·.1), rows.map (·.2), ids⟩

/-! ## Numbers -/

variable {n : ℕ} {ids D : List IncSpecSeq} {d e : IncSpecSeq}

/-- Sequences of length `n` with different words. -/
def Numbering (n : ℕ) (ids : List IncSpecSeq) : Prop :=
  (∀ d ∈ ids, d.Wf n) ∧ ids.Pairwise fun c d => c.words n ≠ d.words n

theorem any_equals (hids : ∀ d ∈ ids, d.Wf n) (he : e.Wf n) :
    ids.any (·.equals e) = true ↔ ∃ d ∈ ids, d.words n = e.words n := by
  rw [List.any_eq_true]
  exact exists_congr fun d => and_congr_right fun hd => IncSpecSeq.equals_iff_words (hids d hd) he

theorem Numbering.addInput (h : Numbering n ids) (hd : d.Wf n) :
    Numbering n (addInput ids d) ∧ (∃ e ∈ MeMin.addInput ids d, e.words n = d.words n) ∧
      ids <+: MeMin.addInput ids d := by
  unfold MeMin.addInput
  split
  · next hany => exact ⟨h, (any_equals h.1 hd).mp hany, List.prefix_refl ids⟩
  · next hany =>
      rw [any_equals h.1 hd] at hany
      refine ⟨⟨fun e he => ?_, ?_⟩, ⟨d, by simp, rfl⟩, List.prefix_append ids [d]⟩
      · rcases List.mem_append.mp he with he | he
        · exact h.1 e he
        · exact List.mem_singleton.mp he ▸ hd
      · refine List.pairwise_append.mpr ⟨h.2, List.pairwise_singleton _ _, fun c hc e he heq => ?_⟩
        exact hany ⟨c, hc, List.mem_singleton.mp he ▸ heq⟩

/-- All inputs are numbered. -/
theorem inputIDs_spec (so : SetOrders) {Ds : List (List IncSpecSeq)}
    (hDs : ∀ D ∈ Ds, ∀ d ∈ D, d.Wf n) :
    Numbering n (inputIDs so Ds) ∧
      ∀ D ∈ Ds, ∀ d ∈ D, ∃ e ∈ inputIDs so Ds, e.words n = d.words n := by
  have hclass : ∀ {l ids : List IncSpecSeq}, Numbering n ids → (∀ d ∈ l, d.Wf n) →
      Numbering n (l.foldl addInput ids) ∧
        (∀ d ∈ l, ∃ e ∈ l.foldl addInput ids, e.words n = d.words n) ∧
        ids ⊆ l.foldl addInput ids := by
    intro l ids hids hl
    refine foldl_inv (fun (pre ids' : List IncSpecSeq) => Numbering n ids' ∧
      (∀ d ∈ pre, ∃ e ∈ ids', e.words n = d.words n) ∧ ids ⊆ ids')
      (fun pre d post ids' hsplit ⟨hnum, hmem, hsub⟩ => ?_) ⟨hids, by simp, List.Subset.refl ids⟩
    obtain ⟨hnum', hd, hpre⟩ := hnum.addInput (hl d (hsplit ▸ by simp))
    refine ⟨hnum', fun x hx => ?_, fun x hx => hpre.subset (hsub hx)⟩
    rcases List.mem_append.mp hx with hx | hx
    · obtain ⟨e, he, heq⟩ := hmem x hx
      exact ⟨e, hpre.subset he, heq⟩
    · rwa [List.mem_singleton.mp hx]
  have hrun := foldl_inv
    (f := fun ids (p : List IncSpecSeq × ℕ) => (so.disjInputs p.2 p.1).foldl addInput ids)
    (fun pre ids => Numbering n ids ∧
      ∀ p ∈ pre, ∀ d ∈ p.1, ∃ e ∈ ids, e.words n = d.words n)
    (l := Ds.zipIdx) (b := []) (fun pre p post ids hsplit ⟨hnum, hmem⟩ => by
      have hp : p.1 ∈ Ds :=
        List.mem_of_getElem? (List.mem_zipIdx_iff_getElem?.mp (hsplit ▸ by simp))
      have hperm := so.perm p.2 p.1
      obtain ⟨hnum', hd, hsub⟩ := hclass hnum fun d hd => hDs p.1 hp d (hperm.mem_iff.mp hd)
      refine ⟨hnum', fun q hq d hdq => ?_⟩
      rcases List.mem_append.mp hq with hq | hq
      · obtain ⟨e, he, heq⟩ := hmem q hq d hdq
        exact ⟨e, hsub he, heq⟩
      · rw [List.mem_singleton.mp hq] at hdq
        exact hd d (hperm.mem_iff.mpr hdq))
    ⟨⟨by simp, List.Pairwise.nil⟩, by simp⟩
  refine ⟨hrun.1, fun D hD d hd => ?_⟩
  obtain ⟨i, hi⟩ := List.mem_iff_getElem?.mp hD
  exact hrun.2 (D, i) (List.mk_mem_zipIdx_iff_getElem?.mpr hi) d hd

/-- The number of an input is the place of an equal one. -/
theorem inputID_spec (hids : Numbering n ids) (hd : d.Wf n)
    (h : ∃ e ∈ ids, e.words n = d.words n) :
    ∃ e, ids[inputID ids d]? = some e ∧ e.words n = d.words n := by
  obtain ⟨e, he, heq⟩ := h
  have hlt : inputID ids d < ids.length := List.findIdx_lt_length_of_exists
    ⟨e, he, (IncSpecSeq.equals_iff_words (hids.1 e he) hd).mpr heq⟩
  have hfound : ids[inputID ids d].equals d = true :=
    List.findIdx_getElem (p := fun e : IncSpecSeq => e.equals d) (w := hlt)
  exact ⟨_, List.getElem?_eq_getElem hlt, (IncSpecSeq.equals_iff_words
    (hids.1 _ (List.getElem_mem hlt)) hd).mp hfound⟩

/-! ## The rows of a state -/

theorem getD_foldl_set {α β : Type} {g : α → ℕ} {f : α → β} {l : List α} {r : List β} {b : β}
    (hl : ∀ x ∈ l, g x < r.length) (a : ℕ) :
    (∃ x ∈ l, g x = a ∧ (l.foldl (fun r x => r.set (g x) (f x)) r).getD a b = f x) ∨
      (∀ x ∈ l, g x ≠ a) ∧ (l.foldl (fun r x => r.set (g x) (f x)) r).getD a b = r.getD a b := by
  induction l generalizing r with
  | nil => exact Or.inr ⟨by simp, rfl⟩
  | cons x l ih =>
      obtain ⟨hx, hl⟩ := List.forall_mem_cons.mp hl
      rcases ih (r := r.set (g x) (f x)) (fun y hy => by rw [List.length_set]; exact hl y hy) with
        ⟨y, hy, hya, heq⟩ | ⟨hno, heq⟩
      · exact Or.inl ⟨y, List.mem_cons_of_mem _ hy, hya, heq⟩
      · rw [Marking.getD_set hx] at heq
        by_cases hxa : g x = a
        · rw [if_pos hxa.symm] at heq
          exact Or.inl ⟨x, List.mem_cons_self, hxa, heq⟩
        · rw [if_neg (Ne.symm hxa)] at heq
          exact Or.inr ⟨List.forall_mem_cons.mpr ⟨hxa, hno⟩, heq⟩

theorem length_foldl_set {α β : Type} {g : α → ℕ} {f : α → β} (l : List α) (r : List β) :
    (l.foldl (fun r x => r.set (g x) (f x)) r).length = r.length := by
  induction l generalizing r with
  | nil => rfl
  | cons x l ih => rw [List.foldl_cons, ih, List.length_set]

/-- The inputs that a transition is written under. -/
def touched (D : List IncSpecSeq) (t : Trans) : List IncSpecSeq :=
  if D.any (·.equals t.1) then [t.1] else D.filter (·.isSubset t.1)

theorem splitRowOf_eq (ids D : List IncSpecSeq) (r : StateRow) (t : Trans) :
    splitRowOf ids D r t = (touched D t).foldl (assign ids t) r := by
  unfold splitRowOf touched
  split
  · rfl
  · rw [List.foldl_filter]

theorem foldl_assign (ids : List IncSpecSeq) (t : Trans) (l : List IncSpecSeq) (r : StateRow) :
    l.foldl (assign ids t) r =
      (l.foldl (fun r d => r.set (inputID ids d) (some t.2.1)) r.1,
        l.foldl (fun r d => r.set (inputID ids d) (some t.2.2)) r.2) := by
  induction l generalizing r with
  | nil => rfl
  | cons d l ih => rw [List.foldl_cons, ih]; rfl

theorem mem_touched {t : Trans} (hD : ∀ d ∈ D, d.Wf n) (ht : t.1.Wf n) (h : d ∈ touched D t) :
    d.Wf n ∧ ∃ e ∈ D, e.words n = d.words n ∧ e.words n ⊆ t.1.words n := by
  unfold touched at h
  split at h
  · next hany =>
      obtain ⟨e, he, heq⟩ := (any_equals hD ht).mp hany
      rw [List.mem_singleton.mp h]
      exact ⟨ht, e, he, heq, heq.subset⟩
  · obtain ⟨hd, hsub⟩ := List.mem_filter.mp h
    exact ⟨hD d hd, d, hd, rfl, (IncSpecSeq.isSubset_iff_words (hD d hd) ht).mp hsub⟩

theorem findIdx_congr {α : Type} {p q : α → Bool} {l : List α} (h : ∀ x ∈ l, p x = q x) :
    l.findIdx p = l.findIdx q := by
  induction l with
  | nil => rfl
  | cons x l ih =>
      obtain ⟨hx, hl⟩ := List.forall_mem_cons.mp h
      rw [List.findIdx_cons, List.findIdx_cons, hx, ih hl]

theorem inputID_congr (hids : ∀ d ∈ ids, d.Wf n) (hd : d.Wf n) (he : e.Wf n)
    (h : d.words n = e.words n) : inputID ids d = inputID ids e := by
  refine findIdx_congr fun x hx => ?_
  rw [Bool.eq_iff_iff, IncSpecSeq.equals_iff_words (hids x hx) hd,
    IncSpecSeq.equals_iff_words (hids x hx) he, h]

/-- The inputs are numbered. -/
def Numbered (n : ℕ) (ids D : List IncSpecSeq) : Prop :=
  Numbering n ids ∧ ∀ d ∈ D, d.Wf n ∧ ∃ e ∈ ids, e.words n = d.words n

/-- What the row of a state says after the transitions `pre`: an entry comes from a transition whose
input contains the numbered one, and each transition has written its entries. -/
structure RowInv (n : ℕ) (ids D : List IncSpecSeq) (pre : List Trans) (r : StateRow) : Prop where
  nextLength : r.1.length = ids.length
  outLength : r.2.length = ids.length
  entry : ∀ a t, r.1.getD a none = some t → ∃ q ∈ pre, q.2.1 = t ∧
    r.2.getD a none = some q.2.2 ∧ ∃ d ∈ D, inputID ids d = a ∧ d.words n ⊆ q.1.words n
  written : ∀ q ∈ pre, ∀ d ∈ touched D q, r.1.getD (inputID ids d) none ≠ none

theorem RowInv.step (h : Numbered n ids D) {pre : List Trans} {r : StateRow}
    (hr : RowInv n ids D pre r) {t : Trans} (ht : t.1.Wf n) :
    RowInv n ids D (pre ++ [t]) (splitRowOf ids D r t) := by
  rw [splitRowOf_eq, foldl_assign]
  have hD : ∀ d ∈ D, d.Wf n := fun d hd => (h.2 d hd).1
  have hlt : ∀ d ∈ touched D t, inputID ids d < ids.length := by
    intro d hd
    obtain ⟨hdwf, e, he, heq, -⟩ := mem_touched hD ht hd
    obtain ⟨e', he', heq'⟩ := (h.2 e he).2
    obtain ⟨_, hget, -⟩ := inputID_spec h.1 hdwf ⟨e', he', heq'.trans heq⟩
    exact (List.getElem?_eq_some_iff.mp hget).1
  have hnext := getD_foldl_set (g := inputID ids) (f := fun _ => some t.2.1) (r := r.1) (b := none)
    fun d hd => hr.nextLength.symm ▸ hlt d hd
  have hout := getD_foldl_set (g := inputID ids) (f := fun _ => some t.2.2) (r := r.2) (b := none)
    fun d hd => hr.outLength.symm ▸ hlt d hd
  refine ⟨(length_foldl_set _ _).trans hr.nextLength, (length_foldl_set _ _).trans hr.outLength,
    fun a u hu => ?_, fun q hq d hd hnone => ?_⟩
  · rcases hnext a with ⟨d, hd, rfl, heq⟩ | ⟨hno, heq⟩
    · obtain ⟨hdwf, e, he, hed, hsub⟩ := mem_touched hD ht hd
      have hval : t.2.1 = u := Option.some.inj (heq.symm.trans hu)
      have hother : (∃ x ∈ touched D t, inputID ids x = inputID ids d) := ⟨d, hd, rfl⟩
      refine ⟨t, by simp, hval, ?_, e, he, inputID_congr h.1.1 (hD e he) hdwf hed, hsub⟩
      rcases hout (inputID ids d) with ⟨-, -, -, heq'⟩ | ⟨hno, -⟩
      · exact heq'
      · exact absurd rfl (hno d hd)
    · obtain ⟨q, hq, hqt, hqo, hdq⟩ := hr.entry a u (heq.symm.trans hu)
      refine ⟨q, List.mem_append_left _ hq, hqt, ?_, hdq⟩
      rcases hout a with ⟨x, hx, hxa, -⟩ | ⟨-, heq'⟩
      · exact absurd hxa (hno x hx)
      · exact heq'.trans hqo
  · rcases hnext (inputID ids d) with ⟨-, -, -, heq⟩ | ⟨hno, heq⟩
    · exact Option.some_ne_none _ (heq.symm.trans hnone)
    · rcases List.mem_append.mp hq with hq | hq
      · exact hr.written q hq d hd (heq.symm.trans hnone)
      · rw [List.mem_singleton.mp hq] at hd
        exact hno d hd rfl

theorem splitState_spec (h : Numbered n ids D) {curMap : List Trans}
    (hmap : ∀ t ∈ curMap, t.1.Wf n) : RowInv n ids D curMap (splitState ids D curMap) := by
  have hstart : RowInv n ids D []
    (List.replicate ids.length none, List.replicate ids.length none) :=
    ⟨by simp, by simp, fun a t hat => by simp at hat, by simp⟩
  exact foldl_inv (RowInv n ids D) (l := curMap) (fun pre t post r hsplit hr =>
    hr.step h (hmap t (hsplit ▸ by simp))) hstart

/-! ## All states -/

variable {states : List (List Trans)} {incompMatrix : List Bool}

theorem mem_classStates {c : List Bool} {s : ℕ} :
    s ∈ classStates states c ↔ s < states.length ∧ c.getD s false = true := by
  rw [classStates, List.mem_filter, List.mem_range]

theorem Refined.perm {D' : List IncSpecSeq} {c : List Bool} (h : Refined n states c D)
    (hp : D'.Perm D) : Refined n states c D' := by
  have hiff : (D'.Pairwise fun c d => Disjoint (c.words n) (d.words n)) ↔
      D.Pairwise fun c d => Disjoint (c.words n) (d.words n) :=
    hp.pairwise_iff fun hdis => hdis.symm
  refine ⟨fun d hd => h.wf d (hp.mem_iff.mp hd), fun q hq => ?_, fun hf => hiff.mpr (h.disjoint hf),
    fun hu hpair => h.overlap hu (hiff.mp hpair)⟩
  simpa only [hp.mem_iff] using h.cover q hq

/-- The classes with their inputs, and the tables that are made from them. -/
structure TablesOk (n : ℕ) (states : List (List Trans)) (incompMatrix : List Bool)
    (parts : List (List Bool × List IncSpecSeq)) (sm : SplitMachine) : Prop where
  cover : ∀ s < states.length, ∃ p ∈ parts, s ∈ classStates states p.1
  closed : ∀ p ∈ parts, ∀ s < states.length, ∀ t < states.length,
    Compatible states.length incompMatrix s t → p.1.getD s false = true → p.1.getD t false = true
  refined : ∀ p ∈ parts, Refined n states p.1 p.2
  numbered : ∀ p ∈ parts, Numbered n sm.inputIDToIncSpecSeq p.2
  nextLength : sm.nextStatesMap.length = states.length
  outLength : sm.outputsMap.length = states.length
  next : ∀ p ∈ parts, ∀ s ∈ classStates states p.1, sm.nextStatesMap.getD s [] =
    (splitState sm.inputIDToIncSpecSeq p.2 (rowsOf states s)).1
  out : ∀ p ∈ parts, ∀ s ∈ classStates states p.1, sm.outputsMap.getD s [] =
    (splitState sm.inputIDToIncSpecSeq p.2 (rowsOf states s)).2

/-- Classes without a common state do not overwrite each other's rows. -/
theorem splitClasses_spec (ids : List IncSpecSeq) {parts : List (List Bool × List IncSpecSeq)}
    (hdis : parts.Pairwise fun p q => ∀ s, p.1.getD s false = true → q.1.getD s false = false)
    (rows : List StateRow) (hrows : rows.length = states.length) :
    (parts.foldl (splitClass states ids) rows).length = states.length ∧
      ∀ p ∈ parts, ∀ s ∈ classStates states p.1,
        (parts.foldl (splitClass states ids) rows).getD s ([], []) =
          splitState ids p.2 (rowsOf states s) := by
  refine foldl_inv (fun (pre : List (List Bool × List IncSpecSeq)) (rows : List StateRow) =>
    rows.length = states.length ∧ ∀ p ∈ pre,
    ∀ s ∈ classStates states p.1, rows.getD s ([], []) = splitState ids p.2 (rowsOf states s))
    (fun pre q post rows hsplit ⟨hlen, hmem⟩ => ?_) ⟨hrows, by simp⟩
  have hset := getD_foldl_set (g := id) (f := fun s => splitState ids q.2 (rowsOf states s))
    (r := rows) (b := ([], [])) (l := classStates states q.1)
    fun s hs => hlen.symm ▸ (mem_classStates.mp hs).1
  refine ⟨(length_foldl_set _ _).trans hlen, fun p hp s hs => ?_⟩
  rcases List.mem_append.mp hp with hp | hp
  · rcases hset s with ⟨x, hx, rfl, -⟩ | ⟨-, heq⟩
    · rw [← hsplit] at hdis
      have := (List.pairwise_append.mp hdis).2.2 p hp q (by simp) x (mem_classStates.mp hs).2
      exact Bool.noConfusion (this.symm.trans (mem_classStates.mp hx).2)
    · exact heq.trans (hmem p hp s hs)
  · rw [List.mem_singleton.mp hp] at hs ⊢
    rcases hset s with ⟨x, -, rfl, heq⟩ | ⟨hno, -⟩
    · exact heq
    · exact absurd rfl (hno s hs)

theorem exists_split (hwf : ∀ trans ∈ states, ∀ t ∈ trans, t.1.Wf n)
    (hsymm : ∀ s < states.length, ∀ t < states.length,
      Compatible states.length incompMatrix s t → Compatible states.length incompMatrix t s)
    (hs : ℕ → Hashing) (so : SetOrders) :
    ∃ N, ∀ fuel ≥ N, ∃ sm parts, splitTransitions hs so fuel states incompMatrix = some sm ∧
      TablesOk n states incompMatrix parts sm := by
  obtain ⟨tcs, htcs, hclasses, hcover⟩ := exists_compatClasses hsymm
  obtain ⟨N, hN⟩ := mapM_fuel
    (f := fun fuel (p : List Bool × ℕ) => getDisjointInputSet (hs p.2) fuel states p.1)
    (Q := fun p D => Refined n states p.1 D) (l := tcs.zipIdx)
    fun p _ => exists_refined hwf p.1 (hs p.2)
  refine ⟨N, fun fuel hfuel => ?_⟩
  obtain ⟨Ds, hDs, hall⟩ := hN fuel hfuel
  set ids := inputIDs so Ds with hids
  set copies := Ds.zipIdx.map fun p => so.copy p.2 p.1 with hcopies
  have hlen : Ds.length = tcs.length := by rw [← hall.length_eq, List.length_zipIdx]
  have hclen : copies.length = tcs.length := by simp [hcopies, hlen]
  set parts := tcs.zip copies with hparts
  have hat : ∀ {i : ℕ} {c D}, tcs[i]? = some c → Ds[i]? = some D → Refined n states c D := by
    intro i c D hc hD
    have hz : tcs.zipIdx[i]? = some (c, i) := by
      rw [List.getElem?_zipIdx, hc]
      simp
    exact List.forall₂_zip hall (List.mem_of_getElem? (List.getElem?_zip_eq_some.mpr ⟨hz, hD⟩))
  -- the entries of `parts`
  have hentry : ∀ p ∈ parts, p.1 ∈ tcs ∧ ∃ D ∈ Ds, p.2.Perm D ∧ Refined n states p.1 D := by
    intro p hp
    obtain ⟨i, hi⟩ := List.mem_iff_getElem?.mp hp
    obtain ⟨h₁, h₂⟩ := List.getElem?_zip_eq_some.mp hi
    rw [hcopies, List.getElem?_map, List.getElem?_zipIdx, Option.map_map] at h₂
    obtain ⟨D, hD, hpD⟩ := Option.map_eq_some_iff.mp h₂
    refine ⟨List.mem_of_getElem? h₁, D, List.mem_of_getElem? hD, ?_, hat h₁ hD⟩
    rw [← hpD]
    exact so.copyPerm _ D
  have hdis : parts.Pairwise fun p q => ∀ s, p.1.getD s false = true →
    q.1.getD s false = false := by
    have hmap : parts.map (·.1) = tcs := List.map_fst_zip hclen.ge
    exact List.pairwise_map.mp (hmap ▸ hclasses.disjoint)
  have hDwf : ∀ D ∈ Ds, ∀ d ∈ D, d.Wf n := by
    intro D hD d hd
    obtain ⟨i, hi⟩ := List.mem_iff_getElem?.mp hD
    have hi' : i < tcs.length := hlen ▸ (List.getElem?_eq_some_iff.mp hi).1
    exact (hat (List.getElem?_eq_getElem hi') hi).wf d hd
  obtain ⟨hnum, hmem⟩ := inputIDs_spec so hDwf
  obtain ⟨hrows, hrow⟩ := splitClasses_spec ids hdis
    (List.replicate states.length ([], [])) List.length_replicate
  set rows := parts.foldl (splitClass states ids) (List.replicate states.length ([], []))
  refine ⟨⟨rows.map (·.1), rows.map (·.2), ids⟩, parts, ?_, fun s hs => ?_, fun p hp =>
    hclasses.closed p.1 (hentry p hp).1, fun p hp => ?_, fun p hp => ⟨hnum, fun d hd => ?_⟩,
    by simp [hrows], by simp [hrows], fun p hp s hs => ?_, fun p hp s hs => ?_⟩
  · unfold splitTransitions
    rw [htcs, Option.bind_eq_bind, Option.bind_some, hDs, Option.bind_eq_bind, Option.bind_some]
    rfl
  · obtain ⟨c, hc, hcs⟩ := hcover s hs
    obtain ⟨i, hi⟩ := List.mem_iff_getElem?.mp hc
    have hi' : i < copies.length := hclen ▸ (List.getElem?_eq_some_iff.mp hi).1
    exact ⟨(c, copies[i]), List.mem_of_getElem? (List.getElem?_zip_eq_some.mpr
      ⟨hi, List.getElem?_eq_getElem hi'⟩), mem_classStates.mpr ⟨hs, hcs⟩⟩
  · obtain ⟨-, D, -, hperm, hD⟩ := hentry p hp
    exact hD.perm hperm
  · obtain ⟨-, D, hD, hperm, -⟩ := hentry p hp
    exact ⟨hDwf D hD d (hperm.mem_iff.mp hd), hmem D hD d (hperm.mem_iff.mp hd)⟩
  · exact (List.getD_map (f := Prod.fst) ..).trans (congrArg Prod.fst (hrow p hp s hs))
  · exact (List.getD_map (f := Prod.snd) ..).trans (congrArg Prod.snd (hrow p hp s hs))

end ExtFolding.MeMin
