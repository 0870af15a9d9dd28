import ExtFolding.MeMin.Decode
import ExtFolding.MeMin.KissWriter
import ExtFolding.MeMin.Tables

/-!
# `memin/MachineBuilder.cpp`: `buildMachine`

The classes become the states of the new machine. Under an input a class leads to the first class
that has all successors of its members, with what their outputs say together. The program is left
when a class that has the first successor is the last one and does not have the others.
-/

namespace ExtFolding.MeMin

open Std.Sat ExtFolding.Sat ExtFolding.Utils

/-! ## The code -/

/-- `output->intersect(*origOutput)`, unless the two are equal. -/
def mergeOutput (output origOutput : Option IncSpecSeq) : Option IncSpecSeq := do
  let output ← output
  let origOutput ← origOutput
  return if output.equals origOutput then output else output.intersect origOutput

/-- `succ` and `output` after one more state of the class. -/
def gather (sm : SplitMachine) (a : ℕ) (p : List ℕ × Option IncSpecSeq) (oldState : ℕ) :
    List ℕ × Option IncSpecSeq :=
  match sm.next oldState a with
  | none => p
  | some nextState =>
      (p.1 ++ [nextState],
        if p.1 = [] then sm.out oldState a else mergeOutput p.2 (sm.out oldState a))

/-- The loop over `succClass`: `none` is the exit, and `none` inside is the end of the loop. -/
def findSuccClass (classForFirst classForAllStates : ℕ → Bool) (nClasses : ℕ) :
    List ℕ → Option (Option ℕ)
  | [] => some none
  | succClass :: rest =>
      if !classForFirst succClass then findSuccClass classForFirst classForAllStates nClasses rest
      else if classForAllStates succClass then some (some succClass)
      else if succClass + 1 = nClasses then none
      else findSuccClass classForFirst classForAllStates nClasses rest

/-- `newMachineNextState[stateI][a]` and `newMachineOutput[stateI][a]` -/
def newEntry (sm : SplitMachine) (d : Decoded) (nClasses stateI a : ℕ) :
    Option (Option ℕ × Option IncSpecSeq) :=
  match (d.members stateI).foldl (gather sm a) ([], none) with
  | ([], _) => some (none, none)
  | (firstSucc :: others, output) => do
      match ← findSuccClass (d.inClass firstSucc)
          (fun succClass => others.all fun otherSucc => d.inClass otherSucc succClass) nClasses
          (List.range nClasses) with
      | none => return (none, none)
      | some succClass => return (some succClass, output)

/-- `buildMachine`; the columns have the lengths that are given to the writer. -/
def buildMachine (nClasses : ℕ) (model : ℕ → Bool) (literalToStateClass : List (Option (ℕ × ℕ)))
    (sm : SplitMachine) (origResetState : Option ℕ) (inputLength outputLength : ℕ) :
    Option NewMachine := do
  let d := decode nClasses sm.nextStatesMap.length literalToStateClass model origResetState
  let entries ← (List.range nClasses).mapM fun stateI =>
    (List.range sm.inputIDToIncSpecSeq.length).mapM (newEntry sm d nClasses stateI)
  return {
    machineNextState := entries.map fun row => row.map (·.1)
    machineOutput := entries.map fun row => row.map (·.2)
    resetState := d.newResetState
    inputLength := inputLength
    outputLength := outputLength
    inputIDToIncSpecSeq := sm.inputIDToIncSpecSeq }

/-! ## Rows of the new machine -/

namespace NewMachine

/-- The row of one state and one input, before it becomes text. -/
def transOf (m : NewMachine) (state a : ℕ) : Option Trans := do
  let next ← (← (← m.machineNextState[state]?)[a]?)
  let input ← m.inputIDToIncSpecSeq[a]?
  let output ← (← (← m.machineOutput[state]?)[a]?)
  return (input, next, output)

/-- The rows of each state. -/
def states (m : NewMachine) : List (List Trans) :=
  (List.range m.machineNextState.length).map fun state =>
    (List.range m.inputIDToIncSpecSeq.length).filterMap (m.transOf state)

/-- A row as text. -/
def rowText (state : ℕ) (t : Trans) : TransRow :=
  ⟨t.1.toCString, name state, name t.2.1, t.2.2.toCString⟩

/-- What is written for a state and an input is a row of the state. -/
theorem row_eq (m : NewMachine) (state a : ℕ) :
    m.row state a = (m.transOf state a).map (rowText state) := by
  unfold row transOf
  simp only [Option.bind_eq_bind, Option.map_bind, Function.comp_def, Option.pure_def,
    Option.map_some]
  rfl

@[simp] theorem length_states (m : NewMachine) : m.states.length = m.machineNextState.length := by
  simp [states]

theorem rowsOf_states {m : NewMachine} {state : ℕ} (h : state < m.machineNextState.length) :
    rowsOf m.states state =
      (List.range m.inputIDToIncSpecSeq.length).filterMap (m.transOf state) := by
  refine Option.some.inj ((getElem?_rowsOf (by simpa using h)).symm.trans ?_)
  simp [states, h]

end NewMachine

/-! ## What the members of a class say together -/

variable {sm : SplitMachine} {d : Decoded} {no k a i : ℕ} {l : List ℕ}

/-- A state has an entry with this output. -/
def Gives (sm : SplitMachine) (a s : ℕ) (x : IncSpecSeq) : Prop :=
  sm.next s a ≠ none ∧ sm.out s a = some x

/-- The states have outputs where they have successors, and the outputs do not clash. -/
structure OutputsOk (no : ℕ) (sm : SplitMachine) (a : ℕ) (l : List ℕ) : Prop where
  out : ∀ s ∈ l, sm.next s a ≠ none → ∃ x, sm.out s a = some x ∧ x.Wf no
  compat : ∀ s ∈ l, ∀ t ∈ l, ∀ x y, Gives sm a s x → Gives sm a t y → Cube.Compat x.cube y.cube

/-- The merged output says what one of the outputs says, and no more. -/
structure Merged (no : ℕ) (sm : SplitMachine) (a : ℕ) (l : List ℕ) (o : IncSpecSeq) : Prop where
  wf : o.Wf no
  agrees : ∀ s ∈ l, ∀ x, Gives sm a s x → Agrees x.cube o.cube
  origin : ∀ p v, o.cube p = some v → ∃ s ∈ l, ∃ x, Gives sm a s x ∧ x.cube p = some v

theorem mergeOutput_spec {o x : IncSpecSeq} (ho : o.Wf no) (hx : x.Wf no)
    (h : Cube.Compat o.cube x.cube) : ∃ o', mergeOutput (some o) (some x) = some o' ∧ o'.Wf no ∧
      o'.cube = Cube.meet o.cube x.cube := by
  by_cases heq : o.equals x = true
  · refine ⟨o, congrArg some (if_pos heq), ho, funext fun p => ?_⟩
    rw [Cube.meet, ← (IncSpecSeq.equals_iff ho hx).mp heq, Option.or_self]
  · exact ⟨o.intersect x, congrArg some (if_neg heq), IncSpecSeq.intersect_wf ho hx,
      IncSpecSeq.cube_intersect ho hx h⟩

/-- The successors and the output that are gathered from the states `pre`. -/
structure Gathered (no : ℕ) (sm : SplitMachine) (a : ℕ) (pre : List ℕ)
    (r : List ℕ × Option IncSpecSeq) : Prop where
  succ : r.1 = pre.filterMap fun s => sm.next s a
  output : r.1 ≠ [] → ∃ o, r.2 = some o ∧ Merged no sm a pre o

theorem Gathered.step {pre post : List ℕ} {s : ℕ} {r : List ℕ × Option IncSpecSeq}
    (h : OutputsOk no sm a (pre ++ s :: post)) (hr : Gathered no sm a pre r) :
    Gathered no sm a (pre ++ [s]) (gather sm a r s) := by
  unfold gather
  cases hst : sm.next s a with
  | none =>
      have hnone : ∀ x, ¬ Gives sm a s x := fun x hx => hx.1 hst
      refine ⟨by simp [hr.succ, hst], fun hne => ?_⟩
      obtain ⟨o, ho, hm⟩ := hr.output hne
      refine ⟨o, ho, hm.wf, fun t ht x hx => ?_, fun p v hv => ?_⟩
      · rcases List.mem_append.mp ht with ht | ht
        · exact hm.agrees t ht x hx
        · exact absurd (List.mem_singleton.mp ht ▸ hx) (hnone x)
      · obtain ⟨t, ht, hgives⟩ := hm.origin p v hv
        exact ⟨t, List.mem_append_left _ ht, hgives⟩
  | some u =>
      obtain ⟨x, hx, hxwf⟩ := h.out s (by simp) (hst ▸ Option.some_ne_none u)
      have hgives : Gives sm a s x := ⟨hst ▸ Option.some_ne_none u, hx⟩
      have hsame : ∀ y, Gives sm a s y → y = x := fun y hy =>
        Option.some.inj (hy.2.symm.trans hx)
      refine ⟨by simp [hr.succ, hst], fun _ => ?_⟩
      show ∃ o, (if r.1 = [] then sm.out s a else mergeOutput r.2 (sm.out s a)) = some o ∧ _
      by_cases hne : r.1 = []
      · -- the first state with a successor
        have hnone : ∀ t ∈ pre, ∀ y, ¬ Gives sm a t y := fun t ht y hy =>
          hy.1 (List.filterMap_eq_nil_iff.mp (hr.succ.symm.trans hne) t ht)
        refine ⟨x, (if_pos hne).trans hx, hxwf, fun t ht y hy => ?_, fun p v hv =>
          ⟨s, by simp, x, hgives, hv⟩⟩
        rcases List.mem_append.mp ht with ht | ht
        · exact absurd hy (hnone t ht y)
        · rw [hsame y (List.mem_singleton.mp ht ▸ hy)]
          exact Agrees.refl _
      · obtain ⟨o, ho, hm⟩ := hr.output hne
        have hcompat : Cube.Compat o.cube x.cube := by
          intro p u v hu hv
          obtain ⟨t, ht, y, hy, hyp⟩ := hm.origin p u hu
          exact h.compat t (by simp [ht]) s (by simp) y x hy hgives p u v hyp hv
        obtain ⟨o', ho', hwf', hcube⟩ := mergeOutput_spec hm.wf hxwf hcompat
        have hold : Agrees o.cube o'.cube := fun p v hv => by rw [hcube, Cube.meet, hv]; rfl
        have hnew : Agrees x.cube o'.cube := by
          intro p v hv
          rw [hcube, Cube.meet]
          cases hop : o.cube p with
          | none => exact hv
          | some u => exact congrArg some (hcompat p u v hop hv)
        refine ⟨o', by rw [if_neg hne, ho, hx, ho'], hwf', fun t ht y hy => ?_, fun p v hv => ?_⟩
        · rcases List.mem_append.mp ht with ht | ht
          · exact fun p v hv => hold p v (hm.agrees t ht y hy p v hv)
          · rw [hsame y (List.mem_singleton.mp ht ▸ hy)]
            exact hnew
        · rw [hcube, Cube.meet] at hv
          cases hop : o.cube p with
          | none => exact ⟨s, by simp, x, hgives, by rwa [hop] at hv⟩
          | some u =>
              rw [hop] at hv
              obtain ⟨t, ht, hgt⟩ := hm.origin p u hop
              exact ⟨t, List.mem_append_left _ ht, Option.some.inj hv ▸ hgt⟩

theorem gathered (h : OutputsOk no sm a l) :
    Gathered no sm a l (l.foldl (gather sm a) ([], none)) := by
  refine foldl_inv (Gathered no sm a) (fun pre s post r hsplit hr => hr.step (hsplit ▸ h))
    ⟨rfl, fun hne => absurd rfl hne⟩

/-- The loop finds a class with all successors before it could come to the exit. -/
theorem findSuccClass_spec {first all : ℕ → Bool} (hl : l.Pairwise (· < ·)) (hlt : ∀ c ∈ l, c < k)
    (h : ∃ c ∈ l, first c = true ∧ all c = true) :
    ∃ c ∈ l, findSuccClass first all k l = some (some c) ∧ first c = true ∧ all c = true := by
  induction l with
  | nil =>
      obtain ⟨c, hc, -⟩ := h
      exact absurd hc List.not_mem_nil
  | cons b l ih =>
      obtain ⟨hb, hl⟩ := List.pairwise_cons.mp hl
      obtain ⟨hbk, hlt⟩ := List.forall_mem_cons.mp hlt
      rw [findSuccClass]
      by_cases hgood : first b = true ∧ all b = true
      · exact ⟨b, by simp, by simp [hgood], hgood⟩
      · obtain ⟨c, hc, hfc, hac⟩ := h
        have hcl : c ∈ l := (List.mem_cons.mp hc).resolve_left (by
          rintro rfl
          exact hgood ⟨hfc, hac⟩)
        obtain ⟨c', hc', hrun, hgood'⟩ := ih hl hlt ⟨c, hcl, hfc, hac⟩
        refine ⟨c', List.mem_cons_of_mem _ hc', ?_, hgood'⟩
        -- a later class is good, so this one is not the last
        have hnext : b + 1 ≠ k := by
          have := hb c hcl
          have := hlt c hcl
          omega
        by_cases hfb : first b = true
        · have hab : all b ≠ true := fun hab => hgood ⟨hfb, hab⟩
          simp [hfb, hab, hnext, hrun]
        · simp [hfb, hrun]

/-- An entry of the new machine: none where no member has a successor; else a class with all
successors, and the merged output. -/
inductive EntryOk (no k : ℕ) (sm : SplitMachine) (mem : ℕ → ℕ → Prop) (a : ℕ) (l : List ℕ) :
    Option ℕ × Option IncSpecSeq → Prop
  | empty (h : ∀ s ∈ l, sm.next s a = none) : EntryOk no k sm mem a l (none, none)
  | entry {j o} (hj : j < k) (hs : ∃ s ∈ l, sm.next s a ≠ none) (ho : Merged no sm a l o)
      (h : ∀ s ∈ l, ∀ t, sm.next s a = some t → mem t j) : EntryOk no k sm mem a l (some j, some o)

theorem newEntry_spec {n : ℕ} {orig : Option ℕ} {mem : ℕ → ℕ → Prop} (hd : DecodedOk n k orig mem d)
    (hout : OutputsOk no sm a (d.members i))
    (hclosed : ∃ j < k, ∀ s, mem s i → ∀ t, sm.next s a = some t → mem t j) :
    ∃ e, newEntry sm d k i a = some e ∧ EntryOk no k sm mem a (d.members i) e := by
  have hg := gathered hout
  unfold newEntry
  set r := (d.members i).foldl (gather sm a) ([], none)
  obtain ⟨succ, output⟩ := r
  have hsucc : succ = (d.members i).filterMap fun s => sm.next s a := hg.succ
  cases succ with
  | nil => exact ⟨_, rfl, .empty (List.filterMap_eq_nil_iff.mp hsucc.symm)⟩
  | cons firstSucc others =>
      obtain ⟨o, ho, hm⟩ := hg.output (List.cons_ne_nil _ _)
      obtain rfl : output = some o := ho
      have hmem : ∀ {t}, t ∈ firstSucc :: others ↔ ∃ s ∈ d.members i, sm.next s a = some t := by
        intro t
        rw [hsucc, List.mem_filterMap]
      obtain ⟨j, hj, hjall⟩ := hclosed
      have hin : ∀ t ∈ firstSucc :: others, d.inClass t j = true := fun t ht => by
        obtain ⟨s, hs, hst⟩ := hmem.mp ht
        exact (hd.inClass t j).mpr (hjall s ((hd.members s i).mp hs) t hst)
      obtain ⟨hfirst, hothers⟩ := List.forall_mem_cons.mp hin
      obtain ⟨c, hc, hrun, hcf, hca⟩ := @findSuccClass_spec k (List.range k) (d.inClass firstSucc)
        (fun succClass => others.all fun otherSucc => d.inClass otherSucc succClass)
        List.pairwise_lt_range (fun c hc => List.mem_range.mp hc)
        ⟨j, List.mem_range.mpr hj, hfirst, List.all_eq_true.mpr hothers⟩
      refine ⟨(some c, some o), by simp [hrun], .entry (List.mem_range.mp hc) ?_ hm
        fun s hs t hst => ?_⟩
      · obtain ⟨s, hs, hst⟩ := hmem.mp List.mem_cons_self
        exact ⟨s, hs, hst ▸ Option.some_ne_none _⟩
      · rw [← hd.inClass]
        rcases List.mem_cons.mp (hmem.mpr ⟨s, hs, hst⟩) with rfl | ht
        · exact hcf
        · exact List.all_eq_true.mp hca t ht

/-! ## The new machine -/

/-- A row of a class: an input, and an entry for it. -/
def ClassRow (sm : SplitMachine) (d : Decoded) (k i a : ℕ) (q : Trans) : Prop :=
  sm.inputIDToIncSpecSeq[a]? = some q.1 ∧ newEntry sm d k i a = some (some q.2.1, some q.2.2)

/-- What the machine is that the tables of the classes make. -/
structure BuiltOk (sm : SplitMachine) (d : Decoded) (k : ℕ) (m : NewMachine) : Prop where
  length : m.states.length = k
  reset : m.resetState = d.newResetState
  rows : ∀ i < k, rowsOf m.states i =
    (List.range sm.inputIDToIncSpecSeq.length).filterMap (m.transOf i)
  transOf : ∀ i < k, ∀ a q, m.transOf i a = some q ↔ ClassRow sm d k i a q

/-- Without the exit the machine is built. -/
theorem exists_build {model : ℕ → Bool} {literalToStateClass : List (Option (ℕ × ℕ))}
    {orig : Option ℕ}
    (hd : d = decode k sm.nextStatesMap.length literalToStateClass model orig)
    (h : ∀ i < k, ∀ a < sm.inputIDToIncSpecSeq.length, ∃ e, newEntry sm d k i a = some e)
    (inputLength outputLength : ℕ) :
    ∃ m, buildMachine k model literalToStateClass sm orig inputLength outputLength = some m ∧
      BuiltOk sm d k m := by
  obtain ⟨entries, hentries, hlen, hrow⟩ := mapM_range_some
    (f := fun stateI => (List.range sm.inputIDToIncSpecSeq.length).mapM (newEntry sm d k stateI))
    fun i hi => by
      obtain ⟨as, has, -⟩ := mapM_range_some (h i hi)
      exact ⟨as, has⟩
  have hcell : ∀ i < k, ∃ row, entries[i]? = some row ∧
      row.length = sm.inputIDToIncSpecSeq.length ∧
      ∀ a < sm.inputIDToIncSpecSeq.length, row[a]? = newEntry sm d k i a := by
    intro i hi
    obtain ⟨row, hmap, hrlen, hget⟩ := mapM_range_some (h i hi)
    exact ⟨row, (hrow i hi).trans hmap, hrlen, hget⟩
  refine ⟨{ machineNextState := entries.map fun row => row.map (·.1)
            machineOutput := entries.map fun row => row.map (·.2)
            resetState := d.newResetState
            inputLength := inputLength
            outputLength := outputLength
            inputIDToIncSpecSeq := sm.inputIDToIncSpecSeq }, ?_, ?_, rfl, fun i hi => ?_,
    fun i hi a q => ?_⟩
  · unfold buildMachine
    rw [← hd]
    exact Option.bind_eq_some_iff.mpr ⟨entries, hentries, rfl⟩
  · simp [hlen]
  · exact NewMachine.rowsOf_states (by simpa [hlen] using hi)
  · obtain ⟨row, hi', hrlen, hget⟩ := hcell i hi
    unfold ClassRow NewMachine.transOf
    obtain ⟨input, next, output⟩ := q
    by_cases ha : a < sm.inputIDToIncSpecSeq.length
    · obtain ⟨⟨x, y⟩, he⟩ := h i hi a ha
      have hra : row[a]? = some (x, y) := (hget a ha).trans he
      cases x <;> cases y <;> simp [hi', hra, he, ha, and_left_comm]
    · have hra : row[a]? = none := List.getElem?_eq_none (hrlen ▸ Nat.le_of_not_lt ha)
      simp [hi', hra, List.getElem?_eq_none (Nat.le_of_not_lt ha)]

end ExtFolding.MeMin
