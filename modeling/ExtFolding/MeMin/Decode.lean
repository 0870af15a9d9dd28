import ExtFolding.MeMin.Cnf

/-!
# `memin/MachineBuilder.cpp`: from a model to classes

The first loop of `buildMachine`: the positive literals that stand for a state and a class are
entered into the tables of the classes. For a model of the formula these are a closed cover.
-/

namespace ExtFolding.MeMin

open Std.Sat ExtFolding.Sat

/-! ## The code -/

/-- The states and classes of the positive literals, by number. -/
def stateClasses (literalToStateClass : List (Option (ℕ × ℕ))) (model : ℕ → Bool) : List (ℕ × ℕ) :=
  literalToStateClass.zipIdx.filterMap fun p => if model p.2 then p.1 else none

/-- `newStates`, `classesForOrigState` and `newResetState`. -/
structure Decoded where
  newStates : List (List ℕ)
  classesForOrigState : List (List Bool)
  newResetState : Option ℕ

namespace Decoded

/-- The tables before the loop. -/
def empty (nClasses nStates : ℕ) : Decoded :=
  ⟨List.replicate nClasses [], List.replicate nStates (List.replicate nClasses false), none⟩

/-- The body of the loop. -/
def place (origResetState : Option ℕ) (d : Decoded) (stateClass : ℕ × ℕ) : Decoded where
  newStates := d.newStates.modify stateClass.2 (· ++ [stateClass.1])
  classesForOrigState := d.classesForOrigState.modify stateClass.1 (·.set stateClass.2 true)
  newResetState :=
    if some stateClass.1 = origResetState then some stateClass.2 else d.newResetState

/-- `newStates[i]` -/
def members (d : Decoded) (i : ℕ) : List ℕ := d.newStates.getD i []

/-- `classesForOrigState[s][i]` -/
def inClass (d : Decoded) (s i : ℕ) : Bool := (d.classesForOrigState.getD s []).getD i false

end Decoded

def decode (nClasses nStates : ℕ) (literalToStateClass : List (Option (ℕ × ℕ)))
    (model : ℕ → Bool) (origResetState : Option ℕ) : Decoded :=
  (stateClasses literalToStateClass model).foldl (Decoded.place origResetState)
    (Decoded.empty nClasses nStates)

/-! ## The tables -/

theorem getD_modify {α : Type} {l : List α} {f : α → α} {i j : ℕ} {b : α} (hi : i < l.length) :
    (l.modify i f).getD j b = if i = j then f (l.getD j b) else l.getD j b := by
  rw [List.getD_eq_getElem?_getD, List.getElem?_modify, List.getD_eq_getElem?_getD]
  by_cases hij : i = j
  · subst hij
    simp [List.getElem?_eq_getElem hi]
  · simp [hij]

variable {n k : ℕ} {origResetState : Option ℕ}

/-- The tables of a relation between states and classes. -/
structure DecodedOk (n k : ℕ) (origResetState : Option ℕ) (mem : ℕ → ℕ → Prop) (d : Decoded) :
    Prop where
  newLength : d.newStates.length = k
  classLength : d.classesForOrigState.length = n
  rowLength : ∀ s < n, (d.classesForOrigState.getD s []).length = k
  members : ∀ s i, s ∈ d.members i ↔ mem s i
  inClass : ∀ s i, d.inClass s i = true ↔ mem s i
  reset : ∀ r, origResetState = some r → (∃ i, mem r i) → ∃ i, d.newResetState = some i ∧ mem r i

namespace DecodedOk

theorem empty (n k : ℕ) (origResetState : Option ℕ) :
    DecodedOk n k origResetState (fun _ _ => False) (Decoded.empty k n) := by
  refine ⟨List.length_replicate, List.length_replicate, fun s hs => ?_, fun s i => ?_,
    fun s i => ?_,
    fun r _ h => h.elim fun _ => False.elim⟩
  · simp [Decoded.empty, hs]
  · by_cases hi : i < k <;> simp [Decoded.members, Decoded.empty, List.getD_eq_getElem?_getD, hi]
  · by_cases hs : s < n <;> simp [Decoded.inClass, Decoded.empty, List.getD_eq_getElem?_getD, hs]

theorem place {mem : ℕ → ℕ → Prop} {d : Decoded} (h : DecodedOk n k origResetState mem d) {s i : ℕ}
    (hs : s < n) (hi : i < k) :
    DecodedOk n k origResetState (fun t j => mem t j ∨ t = s ∧ j = i)
      (d.place origResetState (s, i)) := by
  have hrow : ∀ t, (d.classesForOrigState.modify s (·.set i true)).getD t [] =
      if s = t then (d.classesForOrigState.getD t []).set i true
      else d.classesForOrigState.getD t [] := fun t => getD_modify (h.classLength.symm ▸ hs)
  refine ⟨by simp [Decoded.place, h.newLength], by simp [Decoded.place, h.classLength],
    fun t ht => ?_, fun t j => ?_, fun t j => ?_, fun r hr hex => ?_⟩
  · show ((d.classesForOrigState.modify s (·.set i true)).getD t []).length = k
    rw [hrow]
    split
    · rw [List.length_set, h.rowLength t ht]
    · exact h.rowLength t ht
  · show t ∈ (d.newStates.modify i (· ++ [s])).getD j [] ↔ _
    rw [getD_modify (h.newLength.symm ▸ hi)]
    by_cases hij : i = j
    · subst hij
      rw [if_pos rfl, List.mem_append, List.mem_singleton, and_iff_left rfl]
      exact or_congr_left (h.members t i)
    · rw [if_neg hij, or_iff_left fun hc => hij hc.2.symm]
      exact h.members t j
  · show ((d.classesForOrigState.modify s (·.set i true)).getD t []).getD j false = true ↔ _
    rw [hrow]
    by_cases hst : s = t
    · subst hst
      rw [if_pos rfl, Marking.getD_set ((h.rowLength s hs).symm ▸ hi), and_iff_right rfl]
      by_cases hji : j = i
      · simp [hji]
      · rw [if_neg hji, or_iff_left hji]
        exact h.inClass s j
    · rw [if_neg hst, or_iff_left fun hc => hst hc.1.symm]
      exact h.inClass t j
  · by_cases hsr : s = r
    · subst hsr
      exact ⟨i, if_pos hr.symm, Or.inr ⟨rfl, rfl⟩⟩
    · obtain ⟨j, hj⟩ := hex
      have hj' : mem r j := hj.resolve_right fun hc => hsr hc.1.symm
      obtain ⟨j', hreset, hm⟩ := h.reset r hr ⟨j, hj'⟩
      refine ⟨j', (if_neg fun hc => hsr ?_).trans hreset, Or.inl hm⟩
      exact Option.some.inj (hc.trans hr)

end DecodedOk

theorem foldl_place {l : List (ℕ × ℕ)} (hl : ∀ p ∈ l, p.1 < n ∧ p.2 < k) :
    DecodedOk n k origResetState (fun s i => (s, i) ∈ l)
      (l.foldl (Decoded.place origResetState) (Decoded.empty k n)) := by
  refine foldl_inv (fun (pre : List (ℕ × ℕ)) d =>
    DecodedOk n k origResetState (fun s i => (s, i) ∈ pre) d)
    (fun pre p post d hsplit hd => ?_) (by simpa using DecodedOk.empty n k origResetState)
  obtain ⟨hs, hi⟩ := hl p (hsplit ▸ by simp)
  simpa only [List.mem_append, List.mem_singleton, Prod.ext_iff] using hd.place hs hi

/-! ## The variables -/

namespace CnfInput

variable {c : CnfInput} {model : ℕ → Bool}

/-- A state and a class that exist. -/
def InRange (c : CnfInput) : CnfVar → Prop
  | .state s i => s < c.nStates ∧ i < c.numClasses
  | .aux _ _ _ => True

/-- The formula speaks about states and classes that exist, if the partial solution fits. -/
theorem inRange_of_mem (h : c.Ok) (hfit : c.pairwiseIncStates.length ≤ c.numClasses) :
    ∀ cl ∈ c.buildCNF, ∀ l ∈ cl, c.InRange l.1 := by
  have hmember : ∀ p ∈ c.pairwiseIncStates.zipIdx, p.1 < c.nStates ∧ p.2 < c.numClasses := by
    intro p hp
    refine ⟨h.member p.1 ?_, (lt_length_of_zipIdx hp).trans_le hfit⟩
    exact List.mem_of_getElem? (List.mem_zipIdx_iff_getElem?.mp hp)
  have hclass : ∀ {s i}, i ∈ c.classesOf s → i < c.numClasses := fun hi => (mem_classesOf.mp hi).1
  unfold buildCNF
  simp only [List.forall_mem_append]
  refine ⟨⟨⟨⟨?_, ?_⟩, ?_⟩, ?_⟩, ?_⟩
  · unfold fixedClauses
    simp only [List.forall_mem_map, List.forall_mem_singleton]
    exact hmember
  · unfold coverClauses
    simp only [List.forall_mem_map, List.mem_range]
    exact fun s hs i hi => ⟨hs, hclass hi⟩
  · unfold cliqueClauses
    simp only [List.forall_mem_flatMap, List.forall_mem_map, List.forall_mem_singleton,
      List.mem_filter, List.mem_range]
    exact fun p hp s hs => ⟨hs.1, (hmember p hp).2⟩
  · unfold pairClauses
    simp only [List.forall_mem_flatMap, List.forall_mem_map, List.forall_mem_cons,
      List.mem_filter, List.mem_range, List.mem_range'_1]
    exact fun s hs i hi t ht => ⟨⟨hs, hclass hi⟩, ⟨by omega, hclass hi⟩, by simp⟩
  · simp only [List.forall_mem_flatMap, List.mem_filter, List.mem_range]
    intro a _ i hi
    unfold closureClauses
    by_cases hjs : window (c.succClasses a i) = []
    · simp [hjs]
    · rw [if_neg hjs]
      simp only [List.forall_mem_cons, List.forall_mem_map, List.forall_mem_flatMap]
      refine ⟨fun j _ => trivial, fun p hp j hj => ⟨trivial, ?_, ?_, by simp⟩⟩
      · exact ⟨(mem_succsOfClass.mp hp).1, hi⟩
      · obtain ⟨q, -, hq⟩ := mem_window.mp hj
        exact ⟨(h.succ (mem_succsOfClass.mp hp).2.2).2, hclass hq⟩

theorem state_lt (h : c.Ok) (hfit : c.pairwiseIncStates.length ≤ c.numClasses) {s i : ℕ}
    (hv : CnfVar.state s i ∈ varsOf c.buildCNF) : s < c.nStates ∧ i < c.numClasses := by
  obtain ⟨cl, hcl, hl⟩ := mem_varsOf.mp hv
  have hcl' : cl ∈ c.buildCNF := by simpa [formula] using hcl
  rcases hl with hl | hl
  · exact inRange_of_mem h hfit cl hcl' _ hl
  · exact inRange_of_mem h hfit cl hcl' _ hl

/-- The positive literals are the variables that are true. -/
theorem mem_stateClasses {s i : ℕ} : (s, i) ∈ stateClasses c.literalToStateClass model ↔
    CnfVar.state s i ∈ varsOf c.buildCNF ∧
      model ((varsOf c.buildCNF).idxOf (.state s i)) = true := by
  set vars := varsOf c.buildCNF with hvars
  have hnodup : vars.Nodup := nodup_eraseDups _
  unfold stateClasses literalToStateClass
  rw [← hvars, List.mem_filterMap]
  constructor
  · rintro ⟨⟨o, j⟩, hj, heq⟩
    have hget := List.mk_mem_zipIdx_iff_getElem?.mp hj
    rw [List.getElem?_map] at hget
    obtain ⟨x, hx, rfl⟩ := Option.map_eq_some_iff.mp hget
    obtain ⟨hm, heq⟩ := Option.ite_none_right_eq_some.mp heq
    cases x with
    | aux a i' j' => exact absurd heq (by simp)
    | state s' i' =>
        obtain ⟨rfl, rfl⟩ := Prod.mk.inj (Option.some.inj heq)
        obtain ⟨hjlt, hxj⟩ := List.getElem?_eq_some_iff.mp hx
        refine ⟨List.mem_of_getElem? hx, ?_⟩
        rw [← hxj, hnodup.idxOf_getElem j hjlt]
        exact hm
  · rintro ⟨hv, hm⟩
    refine ⟨(some (s, i), vars.idxOf (.state s i)),
      List.mk_mem_zipIdx_iff_getElem?.mpr ?_, if_pos hm⟩
    rw [List.getElem?_map, List.getElem?_idxOf hv]
    rfl

/-- The classes of a model are a closed cover, and stand in the tables. -/
theorem exists_decoded (h : c.Ok) (hfit : c.pairwiseIncStates.length ≤ c.numClasses)
    (hmodel : CNF.Sat model (numbered c.buildCNF)) (origResetState : Option ℕ) :
    ∃ mem, c.Solution mem ∧ (∀ s i, mem s i → s < c.nStates ∧ i < c.numClasses) ∧
      DecodedOk c.nStates c.numClasses origResetState mem
        (decode c.numClasses c.nStates c.literalToStateClass model origResetState) := by
  refine ⟨fun s i => (s, i) ∈ stateClasses c.literalToStateClass model, ?_, fun s i hm =>
    state_lt h hfit (mem_stateClasses.mp hm).1, foldl_place fun p hp =>
    state_lt h hfit (mem_stateClasses.mp hp).1⟩
  have hsol := solution_of_sat h (sat_of_numbered hmodel)
  have hmem : classes (fun v => decide (v ∈ varsOf c.buildCNF) &&
      model ((varsOf c.buildCNF).idxOf v)) =
        fun s i => (s, i) ∈ stateClasses c.literalToStateClass model := by
    ext s i
    rw [mem_stateClasses, classes, Bool.and_eq_true, decide_eq_true_eq]
  rwa [hmem] at hsol

end CnfInput

end ExtFolding.MeMin
