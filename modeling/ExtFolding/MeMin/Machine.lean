import ExtFolding.MeMin.KissParser

/-!
# Machines

The rows of each state, as `parseKISSFile` leaves them. In a well-formed machine the input columns
have one length, the output columns have one length, and every row leads to a state.
-/

namespace ExtFolding.MeMin

open ExtFolding.Utils

/-- The rows of a state. -/
def rowsOf (states : List (List Trans)) (s : ℕ) : List Trans := states.getD s []

/-- The next states of a state. -/
def nextStates (states : List (List Trans)) (s : ℕ) : List ℕ := (rowsOf states s).map (·.2.1)

/-- Rows lead to states. -/
def NextOk (states : List (List Trans)) : Prop :=
  ∀ trans ∈ states, ∀ t ∈ trans, t.2.1 < states.length

/-- Columns of `ni` and `no` bits. -/
structure MachOk (ni no : ℕ) (states : List (List Trans)) : Prop where
  next : NextOk states
  input : ∀ trans ∈ states, ∀ t ∈ trans, t.1.Wf ni
  output : ∀ trans ∈ states, ∀ t ∈ trans, t.2.2.Wf no

variable {machine : List (List Trans)}

theorem getElem?_rowsOf {s : ℕ} (h : s < machine.length) :
    machine[s]? = some (rowsOf machine s) := by
  unfold rowsOf
  rw [List.getD_eq_getElem?_getD, List.getElem?_eq_getElem h, Option.getD_some]

theorem rowsOf_mem {s : ℕ} {t : Trans} (h : t ∈ rowsOf machine s) :
    ∃ trans ∈ machine, t ∈ trans := by
  unfold rowsOf at h
  rw [List.getD_eq_getElem?_getD] at h
  cases hs : machine[s]? with
  | none => simp [hs] at h
  | some trans => exact ⟨trans, List.mem_of_getElem? hs, by simpa [hs] using h⟩

theorem lt_of_mem_rowsOf {s : ℕ} {t : Trans} (h : t ∈ rowsOf machine s) : s < machine.length := by
  by_contra hge
  rw [rowsOf, List.getD_eq_getElem?_getD, List.getElem?_eq_none (Nat.le_of_not_lt hge)] at h
  exact List.not_mem_nil h

theorem NextOk.lt (h : NextOk machine) {s t : ℕ} (ht : t ∈ nextStates machine s) :
    t < machine.length := by
  obtain ⟨r, hr, rfl⟩ := List.mem_map.mp ht
  obtain ⟨trans, htrans, hr⟩ := rowsOf_mem hr
  exact h trans htrans r hr

theorem NextOk.row_lt (h : NextOk machine) {s : ℕ} {t : Trans} (ht : t ∈ rowsOf machine s) :
    t.2.1 < machine.length := h.lt (List.mem_map.mpr ⟨t, ht, rfl⟩)

theorem MachOk.input_wf {ni no : ℕ} (h : MachOk ni no machine) {s : ℕ} {t : Trans}
    (ht : t ∈ rowsOf machine s) : t.1.Wf ni := by
  obtain ⟨trans, htrans, ht⟩ := rowsOf_mem ht
  exact h.input trans htrans t ht

theorem MachOk.output_wf {ni no : ℕ} (h : MachOk ni no machine) {s : ℕ} {t : Trans}
    (ht : t ∈ rowsOf machine s) : t.2.2.Wf no := by
  obtain ⟨trans, htrans, ht⟩ := rowsOf_mem ht
  exact h.output trans htrans t ht

/-! ## Machines that are read -/

/-- Names and states have the same numbers, and every number stands for a state. -/
structure ParseOk (p : ParseSt) : Prop where
  size : p.stateToInt.length = p.states.length
  rows : ∀ trans ∈ p.states, ∀ t ∈ trans, t.2.1 < p.states.length
  undefined : ∀ t ∈ p.undefinedFromStates, t.2.1 < p.states.length
  reset : ∀ r, p.resetState = some r → r < p.states.length

variable {p : ParseSt} {name : List Char} {b : Bool}

/-- The number of a known name. -/
theorem ParseOk.idxOf_lt (h : ParseOk p) (hname : name ∈ p.stateToInt) :
    p.stateToInt.idxOf name < p.states.length :=
  h.size ▸ List.idxOf_lt_length_of_mem hname

theorem ParseOk.enter (h : ParseOk p) (name : List Char) :
    ParseOk (p.enter name) ∧ name ∈ (p.enter name).stateToInt := by
  unfold ParseSt.enter
  split
  · have hle : p.states.length ≤ (p.states ++ [[]]).length := by simp
    refine ⟨⟨by simp [h.size], fun trans htrans t ht => ?_, fun t ht => ?_, fun r hr => ?_⟩,
      by simp⟩
    · rcases List.mem_append.mp htrans with htrans | htrans
      · exact (h.rows trans htrans t ht).trans_le hle
      · rw [List.mem_singleton.mp htrans] at ht
        exact absurd ht List.not_mem_nil
    · exact (h.undefined t ht).trans_le hle
    · exact (h.reset r hr).trans_le hle
  · next hcount =>
      exact ⟨h, List.count_pos_iff.mp (Nat.pos_of_ne_zero hcount)⟩

theorem ParseOk.meet (h : ParseOk p) (b : Bool) (name : List Char) :
    ParseOk (p.meet b name) ∧ name ∈ (p.meet b name).stateToInt := by
  obtain ⟨h', hname⟩ := h.enter name
  unfold ParseSt.meet
  split
  · dsimp only
    split
    · refine ⟨⟨h'.size, h'.rows, h'.undefined, fun r hr => ?_⟩, hname⟩
      rw [← Option.some.inj hr]
      exact h'.idxOf_lt hname
    · exact ⟨h', hname⟩
  · next hcount =>
      exact ⟨h, List.count_pos_iff.mp (Nat.pos_of_ne_zero hcount)⟩

theorem ParseOk.addRow (h : ParseOk p) (b : Bool) (r : TransRow) : ParseOk (addRow b p r) := by
  unfold MeMin.addRow
  set p₁ := if r.cst ≠ ['*'] then p.meet b r.cst else p with hp₁
  have h₁ : ParseOk p₁ := by
    rw [hp₁]
    split
    · exact (h.meet b r.cst).1
    · exact h
  obtain ⟨h₂, hnst⟩ := h₁.meet b r.nst
  have hlt := h₂.idxOf_lt hnst
  dsimp only
  split
  · refine ⟨h₂.size, h₂.rows, fun t ht => ?_, h₂.reset⟩
    rcases List.mem_append.mp ht with ht | ht
    · exact h₂.undefined t ht
    · rw [List.mem_singleton.mp ht]
      exact hlt
  · next hcst =>
      have hlen : ∀ (l : List (List Trans)) (i : ℕ) (f : List Trans → List Trans),
          (l.modify i f).length = l.length := fun l i f => List.length_modify ..
      refine ⟨by rw [hlen]; exact h₂.size, fun trans htrans t ht => ?_, fun t ht => ?_,
        fun q hq => ?_⟩
      · rw [hlen]
        obtain ⟨i, hi⟩ := List.mem_iff_getElem?.mp htrans
        rw [List.getElem?_modify] at hi
        obtain ⟨old, hold, rfl⟩ := Option.map_eq_some_iff.mp hi
        have hin := List.mem_of_getElem? hold
        split at ht
        · rcases List.mem_append.mp ht with ht | ht
          · exact h₂.rows old hin t ht
          · exact List.mem_singleton.mp ht ▸ hlt
        · exact h₂.rows old hin t ht
      · rw [hlen]
        exact h₂.undefined t ht
      · rw [hlen]
        exact h₂.reset q hq

theorem ParseOk.line {p' : ParseSt} (h : ParseOk p) {line : List Char}
    (hp : parseLine b p line = some p') : ParseOk p' := by
  unfold parseLine at hp
  split at hp
  · split at hp
    · obtain ⟨name, -, hp⟩ := Option.bind_eq_some_iff.mp hp
      obtain ⟨h', hname⟩ := h.enter name
      rw [← Option.some.inj hp]
      refine ⟨h'.size, h'.rows, h'.undefined, fun r hr => ?_⟩
      rw [← Option.some.inj hr]
      exact h'.idxOf_lt hname
    · split at hp
      · obtain ⟨_, -, hp⟩ := Option.bind_eq_some_iff.mp hp
        rw [← Option.some.inj hp]
        exact ⟨h.size, h.rows, h.undefined, h.reset⟩
      · split at hp
        · obtain ⟨_, -, hp⟩ := Option.bind_eq_some_iff.mp hp
          rw [← Option.some.inj hp]
          exact ⟨h.size, h.rows, h.undefined, h.reset⟩
        · exact Option.some.inj hp ▸ h
  · split at hp
    · obtain ⟨r, -, hp⟩ := Option.bind_eq_some_iff.mp hp
      exact Option.some.inj hp ▸ h.addRow b r
    · exact Option.some.inj hp ▸ h

/-- Every number in a machine that is read stands for one of its states. -/
theorem parseKISSFile_ok {text : List Char} {m : Machine} (h : parseKISSFile text b = some m) :
    NextOk m.states ∧ ∀ r, m.resetState = some r → r < m.states.length := by
  obtain ⟨p, hp, hm⟩ := Option.bind_eq_some_iff.mp h
  have hok : ParseOk p := (foldlM_inv (I := ParseOk) (fun _ _ _ h hp => h.line hp)
    ⟨rfl, by simp, by simp, by simp⟩ hp).1
  split at hm
  swap
  · cases hm
  rw [← Option.some.inj hm]
  refine ⟨fun trans htrans t ht => ?_, fun r hr => ?_⟩
  · rw [List.length_map]
    obtain ⟨rows, hrows, rfl⟩ := List.mem_map.mp htrans
    rcases List.mem_append.mp ht with ht | ht
    · exact hok.rows rows hrows t ht
    · exact hok.undefined t ht
  · rw [List.length_map]
    exact hok.reset r hr

end ExtFolding.MeMin
