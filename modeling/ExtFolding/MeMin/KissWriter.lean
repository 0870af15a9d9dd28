import ExtFolding.MeMin.KissParser
import Mathlib.Data.List.ReduceOption

/-!
# `memin/MachineBuilder.cpp`: `writeKISSFile`

State names and rows are put together in buffers of a fixed size. A name or a row that does not
fit, an index out of range and a missing output are failures.
-/

namespace ExtFolding.MeMin

open ExtFolding.Text ExtFolding.Utils

/-- The machine that is written: next states and outputs by state and input. -/
structure NewMachine where
  machineNextState : List (List (Option ℕ))
  machineOutput : List (List (Option IncSpecSeq))
  resetState : Option ℕ
  inputLength : ℕ
  outputLength : ℕ
  inputIDToIncSpecSeq : List IncSpecSeq

namespace NewMachine

/-- The name of a state without the blank that follows it. -/
def name (state : ℕ) : List Char := 'S' :: dec state

/-- `sprintf(stateStr, "S%d ", state)` into ten characters. -/
def stateStr (state : ℕ) : Option (List Char) :=
  if (name state ++ [' ']).length < 10 then some (name state ++ [' ']) else none

/-- `int bufferSize` -/
def bufferSize (m : NewMachine) : Option ℕ :=
  if m.inputLength + m.outputLength + 25 < 2 ^ 31 then some (m.inputLength + m.outputLength + 25)
  else none

/-- The line for one state and one input; `none` inside when there is no transition. -/
def line (m : NewMachine) (stateToStr : List (List Char)) (bufferSize state a : ℕ) :
    Option (Option (List Char)) := do
  match ← (← m.machineNextState[state]?)[a]? with
  | none => return none
  | some next =>
      let input ← m.inputIDToIncSpecSeq[a]?
      let output ← (← (← m.machineOutput[state]?)[a]?)
      let buffer := input.toCString ++ ' ' :: (← stateToStr[state]?) ++ (← stateToStr[next]?) ++
        output.toCString
      if buffer.length < bufferSize then return some buffer else none

def writeKISSFile (m : NewMachine) : Option (List Char) := do
  let n := m.machineNextState.length
  let stateToStr ← (List.range n).mapM stateStr
  let bufferSize ← m.bufferSize
  let buffers ← (List.range n).mapM fun state =>
    (List.range m.inputIDToIncSpecSeq.length).mapM (m.line stateToStr bufferSize state)
  let lines := buffers.flatten.reduceOption
  let resetLine := match m.resetState with
    | some q => [".r ".toList ++ name q]
    | none => []
  return ([".i ".toList ++ dec m.inputLength, ".o ".toList ++ dec m.outputLength,
    ".p ".toList ++ dec lines.length, ".s ".toList ++ dec n] ++ resetLine ++ lines ++
    [".s ".toList]).flatMap (· ++ ['\n'])

/-! ## What is written -/

/-- The row of one state and one input. -/
def row (m : NewMachine) (state a : ℕ) : Option TransRow := do
  let next ← (← (← m.machineNextState[state]?)[a]?)
  let input ← m.inputIDToIncSpecSeq[a]?
  let output ← (← (← m.machineOutput[state]?)[a]?)
  return ⟨input.toCString, name state, name next, output.toCString⟩

/-- The rows in the order in which they are written. -/
def rows (m : NewMachine) : List TransRow :=
  ((List.range m.machineNextState.length).flatMap fun state =>
    (List.range m.inputIDToIncSpecSeq.length).map (m.row state)).reduceOption

variable {m : NewMachine} {text : List Char}

theorem stateStr_eq {s : ℕ} {b : List Char} (h : stateStr s = some b) : b = name s ++ [' '] := by
  unfold stateStr at h
  split at h
  · exact (Option.some.inj h).symm
  · cases h

/-- The buffers of the names hold seven digits. -/
theorem length_of_writeKISSFile (h : m.writeKISSFile = some text) :
    m.machineNextState.length < 2 ^ 31 := by
  obtain ⟨strs, hstrs, -⟩ := Option.bind_eq_some_iff.mp h
  by_contra hge
  have hlast : m.machineNextState.length - 1 < m.machineNextState.length :=
    Nat.sub_one_lt (by omega)
  obtain ⟨b, hb⟩ := mapM_some_mem hstrs (List.mem_range.mpr hlast)
  unfold stateStr at hb
  split at hb
  · next hlen =>
      simp only [name, List.length_append, List.length_cons, List.length_nil] at hlen
      have hdigits := (Nat.length_toDigits_le_iff (b := 10) (k := 7) (by decide) (by decide)).mp
        (show (dec (m.machineNextState.length - 1)).length ≤ 7 by omega)
      omega
  · cases hb

/-- A line is the text of its row, and fits into the buffer. -/
theorem line_eq {n size state a : ℕ} {b : Option (List Char)}
    (h : m.line ((List.range n).map fun s => name s ++ [' ']) size state a = some b) :
    b = (m.row state a).map TransRow.text ∧ ∀ r, m.row state a = some r →
      r.text.length < size ∧ (∃ s < n, r.cst = name s) ∧ ∃ s < n, r.nst = name s := by
  simp only [line, Option.bind_eq_bind, Option.bind_eq_some_iff] at h
  obtain ⟨nexts, hnexts, next, hnext, h⟩ := h
  have hrow : m.row state a = next.bind fun next => (m.inputIDToIncSpecSeq[a]?).bind fun input =>
      (m.machineOutput[state]?).bind fun os => (os[a]?).bind fun o => o.bind fun output =>
        some ⟨input.toCString, name state, name next, output.toCString⟩ := by
    unfold row
    simp only [hnexts, hnext, Option.bind_eq_bind, Option.bind_some]
    rfl
  cases next with
  | none =>
      obtain rfl : none = b := Option.some.inj h
      exact ⟨by rw [hrow]; rfl, fun r hr => by rw [hrow] at hr; cases hr⟩
  | some next =>
      simp only [Option.bind_eq_some_iff] at h
      obtain ⟨input, hinput, os, hos, o, ho, output, rfl, cur, hcur, nst, hnst, h⟩ := h
      have name_of : ∀ {s w}, ((List.range n).map fun s => name s ++ [' '])[s]? = some w →
          s < n ∧ w = name s ++ [' '] := by
        intro s w hw
        rw [List.getElem?_map] at hw
        obtain ⟨s', hs', rfl⟩ := Option.map_eq_some_iff.mp hw
        obtain ⟨hlt, rfl⟩ := List.getElem?_eq_some_iff.mp hs'
        rw [List.length_range] at hlt
        rw [List.getElem_range]
        exact ⟨hlt, rfl⟩
      obtain ⟨hstate, rfl⟩ := name_of hcur
      obtain ⟨hlt, rfl⟩ := name_of hnst
      have hr : m.row state a = some ⟨input.toCString, name state, name next,
        output.toCString⟩ := by
        rw [hrow]
        simp [hinput, hos, ho]
      have htext : input.toCString ++ ' ' :: (name state ++ [' ']) ++ (name next ++ [' ']) ++
          output.toCString =
          TransRow.text ⟨input.toCString, name state, name next, output.toCString⟩ := by
        simp [TransRow.text]
      rw [htext] at h
      split at h
      · next hsize =>
          rw [hr]
          refine ⟨(Option.some.inj h).symm, fun r hr' => ?_⟩
          obtain rfl := Option.some.inj hr'
          exact ⟨hsize, ⟨state, hstate, rfl⟩, next, hlt, rfl⟩
      · cases h

/-- The lines of a file, and what the buffers ensure of its rows. -/
theorem writeKISSFile_eq (h : m.writeKISSFile = some text) :
    text = ([".i ".toList ++ dec m.inputLength, ".o ".toList ++ dec m.outputLength,
      ".p ".toList ++ dec m.rows.length, ".s ".toList ++ dec m.machineNextState.length] ++
      (match m.resetState with
        | some q => [".r ".toList ++ name q]
        | none => []) ++ m.rows.map TransRow.text ++ [".s ".toList]).flatMap (· ++ ['\n']) ∧
    m.inputLength + m.outputLength + 25 < 2 ^ 31 ∧ ∀ r ∈ m.rows, r.text.length < 2 ^ 31 ∧
      (∃ s < m.machineNextState.length, r.cst = name s) ∧
      ∃ s < m.machineNextState.length, r.nst = name s := by
  simp only [writeKISSFile, Option.bind_eq_bind, Option.bind_eq_some_iff] at h
  obtain ⟨strs, hstrs, size, hsize, buffers, hbuffers, h⟩ := h
  have hnames := eq_map_of_mapM hstrs fun s _ b hb => stateStr_eq hb
  subst hnames
  have hbound : m.inputLength + m.outputLength + 25 < 2 ^ 31 ∧
      size = m.inputLength + m.outputLength + 25 := by
    unfold bufferSize at hsize
    split at hsize
    · next hlt => exact ⟨hlt, (Option.some.inj hsize).symm⟩
    · cases hsize
  have hline : ∀ state < m.machineNextState.length, ∀ a < m.inputIDToIncSpecSeq.length,
      ∃ b, m.line ((List.range m.machineNextState.length).map fun s => name s ++ [' ']) size
        state a = some b := by
    intro state hstate a ha
    obtain ⟨bs, hbs⟩ := mapM_some_mem hbuffers (List.mem_range.mpr hstate)
    exact mapM_some_mem hbs (List.mem_range.mpr ha)
  have hbuf := eq_map_of_mapM hbuffers
    (g := fun state => (List.range m.inputIDToIncSpecSeq.length).map fun a =>
      (m.row state a).map TransRow.text)
    fun state _ bs hbs => eq_map_of_mapM hbs fun a _ b hb => (line_eq hb).1
  have hrows : buffers.flatten.reduceOption = m.rows.map TransRow.text := by
    rw [hbuf, rows, ← List.reduceOption_map, List.map_flatMap, List.flatMap_def]
    simp only [List.map_map]
    rfl
  rw [hrows] at h
  refine ⟨?_, hbound.1, fun r hr => ?_⟩
  · rw [← Option.some.inj h, List.length_map]
  · rw [rows, List.reduceOption_mem_iff, List.mem_flatMap] at hr
    obtain ⟨state, hstate, hr⟩ := hr
    obtain ⟨a, ha, hr⟩ := List.mem_map.mp hr
    obtain ⟨b, hb⟩ := hline state (List.mem_range.mp hstate) a (List.mem_range.mp ha)
    obtain ⟨hlen, hcst, hnst⟩ := (line_eq hb).2 r hr
    exact ⟨hlen.trans (hbound.2 ▸ hbound.1), hcst, hnst⟩

end NewMachine

end ExtFolding.MeMin
