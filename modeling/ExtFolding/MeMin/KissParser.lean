import ExtFolding.Lib.Str
import ExtFolding.MeMin.IncSpecSeq
import ExtFolding.Utils.StgWrite

/-!
# `memin/KISSParser.cpp`: `parseKISSFile`

The file is read line by line; positions in a row are kept in 32 bits, and the numbers of pins are
read as `int`s. A state gets the next free number when its name is first seen. A position behind the
end of a line is a failure, and so is a state whose number is no `int`.
-/

namespace ExtFolding.MeMin

open ExtFolding.Text ExtFolding.Utils ExtFolding.Str

/-- A row of a state: input, next state and output. -/
abbrev Trans := IncSpecSeq × (ℕ × IncSpecSeq)

/-- One of the characters `01-`. -/
def isCubeChar (c : Char) : Bool := c = '0' || c = '1' || c = '-'

/-- `line[i]`; the character after the last is null. -/
def lineChar (line : List Char) (i : ℕ) : Char := line.getD i '\x00'

/-- The lines for which `getline` succeeds: the last one only if it is not empty. -/
def getlines (text : List Char) : List (List Char) :=
  if (lines text).getLast? = some [] then (lines text).dropLast else lines text

/-- The variables of the parser. The entries of `stateToInt` stand in the order of their numbers. -/
structure ParseSt where
  stateToInt : List (List Char)
  states : List (List Trans)
  resetState : Option ℕ
  numInputBits : Option ℤ
  numOutputBits : Option ℤ
  undefinedFromStates : List Trans

/-- `stateToInt[name] = states.size(); states.resize(states.size()+1);` for a new name. -/
def ParseSt.enter (p : ParseSt) (name : List Char) : ParseSt :=
  if p.stateToInt.count name = 0 then
    { p with stateToInt := p.stateToInt ++ [name], states := p.states ++ [[]] }
  else p

/-- A new name in a row, which may become the reset state. -/
def ParseSt.meet (p : ParseSt) (firstStateReset : Bool) (name : List Char) : ParseSt :=
  if p.stateToInt.count name = 0 then
    let p' := p.enter name
    if p.resetState = none ∧ firstStateReset ∧ name ≠ ['*'] then
      { p' with resetState := some (p'.stateToInt.idxOf name) }
    else p'
  else p

/-- The value of a line with a keyword: everything from position 3 to the last character that is
no white space. -/
def headerValue (line : List Char) : Option (List Char) :=
  substr line 3 (sub64 (findLast (fun c => !isSpace c) line) 2)

/-- The columns of a row. -/
def splitRow (line : List Char) : Option TransRow := do
  let nextSplit := u32 (findFirst (fun c => !isCubeChar c) line 0)
  let inputStr ← substr line 0 nextSplit
  let startIndex := u32 (findFirst (fun c => !isSpace c) line nextSplit)
  let nextSplit := u32 (findFirst isSpace line startIndex)
  let fromState ← substr line startIndex (sub32 nextSplit startIndex)
  let startIndex := u32 (findFirst (fun c => !isSpace c) line nextSplit)
  let nextSplit := u32 (findFirst isSpace line startIndex)
  let toState ← substr line startIndex (sub32 nextSplit startIndex)
  let startIndex := u32 (findFirst (fun c => !isSpace c) line nextSplit)
  let nextSplit := u32 (findFirst (fun c => !isCubeChar c) line startIndex)
  -- the comparison is made in 64 bits
  let nextSplit := if nextSplit = npos then u32 line.length else nextSplit
  let outputStr ← substr line startIndex (sub32 nextSplit startIndex)
  return ⟨inputStr, fromState, toState, outputStr⟩

/-- What a row adds. -/
def addRow (firstStateReset : Bool) (p : ParseSt) (r : TransRow) : ParseSt :=
  let input := IncSpecSeq.ofString r.input
  let output := IncSpecSeq.ofString r.output
  let p := if r.cst ≠ ['*'] then p.meet firstStateReset r.cst else p
  let p := p.meet firstStateReset r.nst
  let trans : Trans := (input, p.stateToInt.idxOf r.nst, output)
  if r.cst = ['*'] then { p with undefinedFromStates := p.undefinedFromStates ++ [trans] }
  else { p with states := p.states.modify (p.stateToInt.idxOf r.cst) (· ++ [trans]) }

def parseLine (firstStateReset : Bool) (p : ParseSt) (line : List Char) : Option ParseSt :=
  if lineChar line 0 = '.' then
    if lineChar line 1 = 'r' then do
      let resetStateStr ← headerValue line
      let p := p.enter resetStateStr
      return { p with resetState := some (p.stateToInt.idxOf resetStateStr) }
    else if lineChar line 1 = 'i' then do
      let inputStr ← headerValue line
      return { p with numInputBits := (IStream.getInt32 ⟨inputStr, false⟩ p.numInputBits).1 }
    else if lineChar line 1 = 'o' then do
      let outputStr ← headerValue line
      return { p with numOutputBits := (IStream.getInt32 ⟨outputStr, false⟩ p.numOutputBits).1 }
    else some p
  else if isCubeChar (lineChar line 0) then do
    return addRow firstStateReset p (← splitRow line)
  else some p

/-- The machine that is read; `none` where nothing has been assigned, or -1. -/
structure Machine where
  states : List (List Trans)
  resetState : Option ℕ
  numInputBits : Option ℤ
  numOutputBits : Option ℤ

/-- `parseKISSFile`; the rows without a current state are added to every state. -/
def parseKISSFile (text : List Char) (firstStateReset : Bool) : Option Machine := do
  let p ← (getlines text).foldlM (parseLine firstStateReset) ⟨[], [], none, none, none, []⟩
  if p.states.length ≤ 2 ^ 31 then
    return ⟨p.states.map (· ++ p.undefinedFromStates), p.resetState, p.numInputBits,
      p.numOutputBits⟩
  else none

/-! ## Lines -/

/-- A nonempty string without white space. -/
def Word (w : List Char) : Prop := w ≠ [] ∧ ∀ c ∈ w, isSpace c = false

theorem word_dec (n : ℕ) : Word (dec n) :=
  ⟨(numeral_toDigits n).1, fun c hc => not_isSpace_of_isDigit ((numeral_toDigits n).2.1 c hc)⟩

theorem length_dec {n : ℕ} (h : n < 2 ^ 32) : (dec n).length ≤ 10 :=
  (Nat.length_toDigits_le_iff (by decide) (by decide)).mpr (h.trans (by decide))

theorem getlines_eq {text : List Char} {ls : List (List Char)} (h : lines text = ls ++ [[]]) :
    getlines text = ls := by
  rw [getlines, h, if_pos (by simp), List.dropLast_concat]

theorem headerValue_eq {a b : Char} {w : List Char} (hw : Word w) (hlen : w.length < 2 ^ 63) :
    headerValue (a :: b :: ' ' :: w) = some w := by
  obtain ⟨v, c, rfl⟩ : ∃ v c, w = v ++ [c] :=
    ⟨w.dropLast, w.getLast hw.1, (List.dropLast_append_getLast hw.1).symm⟩
  have hc : isSpace c = false := hw.2 c (by simp)
  have hlast : findLast (fun c => !isSpace c) ((a :: b :: ' ' :: v) ++ [c]) = v.length + 3 :=
    findLast_append (by simp [hc])
  rw [List.length_append, List.length_singleton] at hlen
  have hsub : sub64 (v.length + 3) 2 = (v ++ [c]).length := by
    rw [sub64_eq (by omega) (by omega)]
    simp
  rw [headerValue, show a :: b :: ' ' :: (v ++ [c]) = (a :: b :: ' ' :: v) ++ [c] from rfl, hlast,
    hsub]
  rw [show a :: b :: ' ' :: v ++ [c] = [a, b, ' '] ++ (v ++ [c]) from rfl]
  exact (substr_append (v := [a, b, ' ']) _).trans (congrArg some List.take_length)

theorem isCubeChar_iff {c : Char} : isCubeChar c = true ↔ c = '0' ∨ c = '1' ∨ c = '-' := by
  simp [isCubeChar, or_assoc]

theorem isCubeChar_of_column {n : ℕ} {s : List Char} (h : Column n s) :
    ∀ c ∈ s, (!isCubeChar c) = false := fun c hc => by
  rw [isCubeChar_iff.mpr (h.2 c hc)]
  rfl

/-- The position of the output column. -/
def outStart (r : TransRow) : ℕ := r.input.length + r.cst.length + r.nst.length + 3

/-- What is left of the output column when the row is read. -/
def cutRow (r : TransRow) : TransRow := { r with output := r.output.take (2 ^ 32 - 1 - outStart r) }

theorem not_isSpace_of_isCubeChar {c : Char} (h : isCubeChar c = true) : isSpace c = false := by
  rcases isCubeChar_iff.mp h with rfl | rfl | rfl <;> decide

/-- A search between two pieces of a line. -/
theorem findFirst_mid {p : Char → Bool} {line v u w : List Char} {c : Char} {pos : ℕ}
    (hline : line = v ++ (u ++ c :: w)) (hpos : v.length = pos) (hu : ∀ x ∈ u, p x = false)
    (hc : p c = true) : findFirst p line pos = pos + u.length := by
  subst hline hpos
  exact findFirst_append_cons hu hc

theorem substr_mid {line v u w : List Char} {pos n : ℕ} (hline : line = v ++ (u ++ w))
    (hpos : v.length = pos) (hn : u.length = n) : substr line pos n = some u := by
  subst hline hpos hn
  exact substr_append_append

/-- The columns are found, but the end of the last one is taken to be the largest number of 32
bits. -/
theorem splitRow_text {nPi nPo : ℕ} {r : TransRow} (hi : Column nPi r.input) (hc : Word r.cst)
    (hn : Word r.nst) (ho : Column nPo r.output) (hPo : 1 ≤ nPo) (hlt : outStart r < 2 ^ 32) :
    splitRow r.text = some (cutRow r) := by
  obtain ⟨a, b, c, o⟩ := r
  simp only [outStart] at hi hc hn ho hlt
  -- the positions fit into 32 bits
  have u₁ : u32 a.length = a.length := u32_eq (by omega)
  have u₂ : u32 (a.length + 1) = a.length + 1 := u32_eq (by omega)
  have u₃ : u32 (a.length + 1 + b.length) = a.length + 1 + b.length := u32_eq (by omega)
  have u₄ : u32 (a.length + 1 + b.length + 1) = a.length + 1 + b.length + 1 := u32_eq (by omega)
  have u₅ : u32 (a.length + 1 + b.length + 1 + c.length) =
      a.length + 1 + b.length + 1 + c.length := u32_eq (by omega)
  have u₆ : u32 (a.length + 1 + b.length + 1 + c.length + 1) =
      a.length + 1 + b.length + 1 + c.length + 1 := u32_eq (by omega)
  have d₃ : sub32 (a.length + 1 + b.length) (a.length + 1) = b.length := by
    rw [sub32_eq (Nat.le_add_right _ _) (by omega), Nat.add_sub_cancel_left]
  have d₅ : sub32 (a.length + 1 + b.length + 1 + c.length) (a.length + 1 + b.length + 1) =
      c.length := by
    rw [sub32_eq (Nat.le_add_right _ _) (by omega), Nat.add_sub_cancel_left]
  have d₇ : sub32 (u32 npos) (a.length + 1 + b.length + 1 + c.length + 1) =
      2 ^ 32 - 1 - (a.length + b.length + c.length + 3) := by
    rw [u32_npos.1, sub32_eq (by omega) (by omega)]
    omega
  have l₂ : (a ++ [' ']).length = a.length + 1 := List.length_append
  have l₃ : (a ++ ' ' :: b).length = a.length + 1 + b.length := by
    rw [List.length_append, List.length_cons, Nat.add_assoc, Nat.add_comm 1]
  have l₄ : (a ++ ' ' :: b ++ [' ']).length = a.length + 1 + b.length + 1 := by
    rw [List.length_append, l₃, List.length_singleton]
  have l₅ : (a ++ ' ' :: b ++ ' ' :: c).length = a.length + 1 + b.length + 1 + c.length := by
    rw [List.length_append, l₃, List.length_cons, ← Nat.add_assoc, Nat.add_right_comm]
  have l₆ : (a ++ ' ' :: b ++ ' ' :: c ++ [' ']).length =
      a.length + 1 + b.length + 1 + c.length + 1 := by
    rw [List.length_append, l₅, List.length_singleton]
  obtain ⟨b₀, b', hb⟩ := List.exists_cons_of_ne_nil hc.1
  obtain ⟨c₀, c', hc'⟩ := List.exists_cons_of_ne_nil hn.1
  obtain ⟨o₀, o', ho'⟩ := List.exists_cons_of_ne_nil
    (List.ne_nil_of_length_pos (ho.1.symm ▸ hPo : 0 < o.length))
  have hb₀ : isSpace b₀ = false := hc.2 b₀ (by simp [hb])
  have hc₀ : isSpace c₀ = false := hn.2 c₀ (by simp [hc'])
  have ho₀ : isSpace o₀ = false :=
    not_isSpace_of_isCubeChar (isCubeChar_iff.mpr (ho.2 o₀ (by simp [ho'])))
  have hblank : ∀ x ∈ [' '], (!isSpace x) = false := fun x hx => by
    rw [List.mem_singleton.mp hx]
    rfl
  obtain ⟨line, hline⟩ : ∃ line, line = TransRow.text ⟨a, b, c, o⟩ := ⟨_, rfl⟩
  rw [← hline]
  have f₁ : findFirst (fun c => !isCubeChar c) line 0 = a.length := by
    have h : findFirst (fun c => !isCubeChar c) line 0 = 0 + a.length :=
      findFirst_mid (v := []) (u := a) (c := ' ') (w := b ++ ' ' :: (c ++ ' ' :: o))
        (by simp [hline, TransRow.text]) rfl (isCubeChar_of_column hi) (by decide)
    rwa [Nat.zero_add] at h
  have s₁ : substr line 0 a.length = some a :=
    substr_mid (v := []) (w := ' ' :: (b ++ ' ' :: (c ++ ' ' :: o)))
      (by simp [hline, TransRow.text]) rfl rfl
  have f₂ : findFirst (fun c => !isSpace c) line a.length = a.length + 1 :=
    findFirst_mid (v := a) (u := [' ']) (c := b₀) (w := b' ++ ' ' :: (c ++ ' ' :: o))
      (by simp [hline, TransRow.text, hb]) rfl hblank (by simp [hb₀])
  have f₃ : findFirst isSpace line (a.length + 1) = a.length + 1 + b.length :=
    findFirst_mid (v := a ++ [' ']) (u := b) (c := ' ') (w := c ++ ' ' :: o)
      (by simp [hline, TransRow.text]) l₂ hc.2 (by decide)
  have s₃ : substr line (a.length + 1) b.length = some b :=
    substr_mid (v := a ++ [' ']) (w := ' ' :: (c ++ ' ' :: o))
      (by simp [hline, TransRow.text]) l₂ rfl
  have f₄ : findFirst (fun c => !isSpace c) line (a.length + 1 + b.length) =
      a.length + 1 + b.length + 1 :=
    findFirst_mid (v := a ++ ' ' :: b) (u := [' ']) (c := c₀) (w := c' ++ ' ' :: o)
      (by simp [hline, TransRow.text, hc']) l₃ hblank (by simp [hc₀])
  have f₅ : findFirst isSpace line (a.length + 1 + b.length + 1) =
      a.length + 1 + b.length + 1 + c.length :=
    findFirst_mid (v := a ++ ' ' :: b ++ [' ']) (u := c) (c := ' ') (w := o)
      (by simp [hline, TransRow.text]) l₄ hn.2 (by decide)
  have s₅ : substr line (a.length + 1 + b.length + 1) c.length = some c :=
    substr_mid (v := a ++ ' ' :: b ++ [' ']) (w := ' ' :: o)
      (by simp [hline, TransRow.text]) l₄ rfl
  have f₆ : findFirst (fun c => !isSpace c) line (a.length + 1 + b.length + 1 + c.length) =
      a.length + 1 + b.length + 1 + c.length + 1 :=
    findFirst_mid (v := a ++ ' ' :: b ++ ' ' :: c) (u := [' ']) (c := o₀) (w := o')
      (by simp [hline, TransRow.text, ho']) l₅ hblank (by simp [ho₀])
  -- behind the last column there is nothing to find
  have hlast : line = (a ++ ' ' :: b ++ ' ' :: c ++ [' ']) ++ o := by
    simp [hline, TransRow.text]
  have f₇ : findFirst (fun c => !isCubeChar c) line (a.length + 1 + b.length + 1 + c.length + 1) =
      npos := by
    rw [hlast, ← l₆]
    exact findFirst_none (isCubeChar_of_column ho)
  have s₇ : ∀ n, substr line (a.length + 1 + b.length + 1 + c.length + 1) n = some (o.take n) := by
    intro n
    rw [hlast, ← l₆, substr_append]
  simp only [splitRow, f₁, u₁, s₁, f₂, u₂, f₃, u₃, d₃, s₃, f₄, u₄, f₅, u₅, d₅, s₅, f₆, u₆, f₇,
    u32_npos.2, if_false, d₇, s₇, Option.bind_eq_bind, Option.bind_some]
  rfl

end ExtFolding.MeMin
