import ExtFolding.Misc.KissFile

/-!
# What `parseKISSFile` reads from a written file

The rows of each state, under the numbers that the states get when they are first seen. The end of
a row is kept in 32 bits, so an output column that reaches further is cut.
-/

namespace ExtFolding.Misc

open ExtFolding.Text ExtFolding.Utils ExtFolding.MeMin

variable {m : Kiss} {ns : ℕ} {text : List Char}

/-! ## The parser -/

/-- A row as it is stored when `F` are all names. -/
def readTrans (F : List (List Char)) (r : TransRow) : Trans :=
  (IncSpecSeq.ofString r.input, F.idxOf r.nst, IncSpecSeq.ofString r.output)

/-- The rows of a state as they are stored. -/
def readTranss (F : List (List Char)) (rows : List TransRow) (q : List Char) : List Trans :=
  (rows.filter fun r => r.cst = q).map (readTrans F)

/-- The names after the header and the rows `pre`. -/
def namesAfter (m : Kiss) (pre : List TransRow) : List (List Char) :=
  pre.foldl (fun l r => pushState (pushState l r.cst) r.nst) [m.reset]

theorem namesAfter_inv (m : Kiss) (pre : List TransRow) : (namesAfter m pre).Nodup ∧
    ∀ q, q ∈ namesAfter m pre ↔ q = m.reset ∨ ∃ r ∈ pre, q = r.cst ∨ q = r.nst := by
  obtain ⟨hnd, hmem⟩ := foldl_pushState_inv pre (List.nodup_singleton m.reset)
  exact ⟨hnd, fun q => (hmem q).trans (by rw [List.mem_singleton])⟩

/-- The state of the parser after the rows `pre`. -/
structure ParseInv (m : Kiss) (F : List (List Char)) (pre : List TransRow)
    (p : ParseSt) : Prop where
  names : p.stateToInt = namesAfter m pre
  states : p.states = p.stateToInt.map (readTranss F pre)
  reset : p.resetState = some 0
  inputBits : p.numInputBits = some (m.nPi : ℤ)
  outputBits : p.numOutputBits = some (m.nPo : ℤ)
  undefined : p.undefinedFromStates = []

/-- Entering a name in a table whose entries come from a function. -/
theorem ParseSt.enter_eq {p : ParseSt} {f : List Char → List Trans} (name : List Char)
    (hstates : p.states = p.stateToInt.map f) (hf : name ∉ p.stateToInt → f name = []) :
    (p.enter name).stateToInt = pushState p.stateToInt name ∧
      (p.enter name).states = (pushState p.stateToInt name).map f := by
  unfold ParseSt.enter pushState
  by_cases h : name ∈ p.stateToInt
  · rw [if_neg (List.count_pos_iff.mpr h).ne', if_pos h]
    exact ⟨rfl, hstates⟩
  · rw [if_pos (List.count_eq_zero.mpr h), if_neg h]
    exact ⟨rfl, by simp [hstates, hf h]⟩

/-- With a reset state, a new name in a row is only entered. -/
theorem ParseSt.meet_eq {p : ParseSt} {q : ℕ} (hq : p.resetState = some q) (first : Bool)
    (name : List Char) : p.meet first name = p.enter name := by
  unfold ParseSt.meet
  split
  · simp [hq]
  · next h => rw [ParseSt.enter, if_neg h]

theorem ParseSt.enter_rest (p : ParseSt) (name : List Char) :
    (p.enter name).resetState = p.resetState ∧ (p.enter name).numInputBits = p.numInputBits ∧
      (p.enter name).numOutputBits = p.numOutputBits ∧
      (p.enter name).undefinedFromStates = p.undefinedFromStates := by
  unfold ParseSt.enter
  split <;> exact ⟨rfl, rfl, rfl, rfl⟩

theorem modify_map_idxOf {F : List (List Char)} (hF : F.Nodup) {f : List Char → List Trans}
    {q : List Char} (hq : q ∈ F) (x : Trans) :
    (F.map f).modify (F.idxOf q) (· ++ [x]) =
      F.map fun q' => if q' = q then f q' ++ [x] else f q' := by
  refine List.ext_getElem (by simp) fun i h₁ h₂ => ?_
  have hi : i < F.length := by simpa using h₂
  rw [List.getElem_modify, List.getElem_map, List.getElem_map]
  have hiff : F.idxOf q = i ↔ F[i] = q := by
    constructor
    · rintro rfl
      exact List.getElem_idxOf _
    · rintro rfl
      exact hF.idxOf_getElem i hi
  by_cases h : F[i] = q
  · rw [if_pos (hiff.mpr h), if_pos h]
  · rw [if_neg (mt hiff.mp h), if_neg h]

theorem readTranss_eq_nil {F : List (List Char)} {rows : List TransRow} {q : List Char}
    (h : ∀ r ∈ rows, r.cst ≠ q) : readTranss F rows q = [] := by
  rw [readTranss, List.filter_eq_nil_iff.mpr fun r hr => by simpa using h r hr]
  rfl

/-- One row. -/
theorem ParseInv.step {F : List (List Char)} {pre : List TransRow} {p : ParseSt}
    (h : ParseInv m F pre p) (first : Bool) {r : TransRow} (hstar : r.cst ≠ ['*'])
    (hF : namesAfter m (pre ++ [r]) <+: F) : ParseInv m F (pre ++ [r]) (addRow first p r) := by
  have hnames : namesAfter m (pre ++ [r]) =
      pushState (pushState p.stateToInt r.cst) r.nst := by
    rw [h.names, namesAfter, namesAfter, List.foldl_append]
    rfl
  -- a new name has no rows yet
  have hnew : ∀ q ∉ p.stateToInt, readTranss F pre q = [] := fun q hq =>
    readTranss_eq_nil fun r' hr' heq => hq (by
      rw [h.names]
      exact ((namesAfter_inv m pre).2 q).mpr (Or.inr ⟨r', hr', Or.inl heq.symm⟩))
  obtain ⟨hn₁, hs₁⟩ := ParseSt.enter_eq r.cst h.states (hnew r.cst)
  obtain ⟨hr₁, hi₁, ho₁, hu₁⟩ := ParseSt.enter_rest p r.cst
  obtain ⟨hn₂, hs₂⟩ := ParseSt.enter_eq (p := p.enter r.cst) r.nst (by rw [hs₁, hn₁])
    fun hq => hnew r.nst fun hmem => hq (by rw [hn₁]; exact mem_pushState.mpr (Or.inl hmem))
  obtain ⟨hr₂, hi₂, ho₂, hu₂⟩ := ParseSt.enter_rest (p.enter r.cst) r.nst
  rw [hn₁, ← hnames] at hn₂ hs₂
  have hadd : addRow first p r = { (p.enter r.cst).enter r.nst with
      states := ((namesAfter m (pre ++ [r])).map (readTranss F pre)).modify
        ((namesAfter m (pre ++ [r])).idxOf r.cst) (· ++ [readTrans F r]) } := by
    have hnst : F.idxOf r.nst = (namesAfter m (pre ++ [r])).idxOf r.nst :=
      idxOf_of_prefix hF (by rw [hnames]; exact mem_pushState.mpr (Or.inr rfl))
    simp only [addRow, if_pos hstar, if_neg hstar, ParseSt.meet_eq h.reset,
      ParseSt.meet_eq (hr₁.trans h.reset), hn₂, hs₂, ← hnst]
    rfl
  have hnd := (namesAfter_inv m (pre ++ [r])).1
  have hcst : r.cst ∈ namesAfter m (pre ++ [r]) :=
    ((namesAfter_inv m _).2 r.cst).mpr (Or.inr ⟨r, by simp, Or.inl rfl⟩)
  rw [hadd]
  refine ⟨hn₂, ?_, hr₂.trans (hr₁.trans h.reset), hi₂.trans (hi₁.trans h.inputBits),
    ho₂.trans (ho₁.trans h.outputBits), hu₂.trans (hu₁.trans h.undefined)⟩
  simp only [hn₂, modify_map_idxOf hnd hcst]
  refine List.map_congr_left fun q _ => ?_
  rw [readTranss, readTranss, List.filter_append, List.map_append]
  by_cases hq : q = r.cst
  · subst hq
    simp
  · rw [if_neg hq, List.filter_cons_of_neg (by simpa using fun h => hq h.symm)]
    simp

/-! ## The lines of a file -/

theorem parseLine_comment (first : Bool) (p : ParseSt) {c : List Char} (hc : Comment c) :
    parseLine first p c = some p := by
  obtain ⟨u, rfl⟩ : ∃ u, c = '#' :: u := by
    cases c with
    | nil => exact absurd hc.1 (by simp)
    | cons d u => exact ⟨u, by rw [Option.some.inj hc.1]⟩
  rfl

/-- The value of a line with a number. -/
theorem getInt32_dec {n : ℕ} (hn : n < 2 ^ 31) (old : Option ℤ) :
    (IStream.getInt32 ⟨dec n, false⟩ old).1 = some (n : ℤ) := by
  have hleft : IStream.left ⟨dec n, false⟩ = [dec n] := words_word (word_dec n)
  obtain ⟨s', h, -⟩ := IStream.getInt32_cons hleft (numeral_toDigits n) hn old
  rw [h]

theorem headerValue_dec {a b : Char} {n : ℕ} (hn : n < 2 ^ 31) :
    headerValue (a :: b :: ' ' :: dec n) = some (dec n) :=
  headerValue_eq (word_dec n) ((length_dec (hn.trans (by decide))).trans_lt (by decide))

theorem parseLine_row (first : Bool) (p : ParseSt) {r : TransRow} (hpi : 1 ≤ m.nPi)
    (hpo : 1 ≤ m.nPo) (hr : FileRow m r) (hlt : outStart r < 2 ^ 32) :
    parseLine first p r.text = some (addRow first p (cutRow r)) := by
  have hchar : isCubeChar (lineChar r.text 0) = true := by
    obtain ⟨c, u, hc⟩ := List.exists_cons_of_ne_nil (word_column hpi hr.input).1
    have htext : lineChar r.text 0 = c := by simp [lineChar, TransRow.text, hc]
    rw [htext]
    exact isCubeChar_iff.mpr (hr.input.2 c (by rw [hc]; exact List.mem_cons_self))
  have hdot : lineChar r.text 0 ≠ '.' := fun h => by
    rw [h] at hchar
    exact absurd hchar (by decide)
  rw [parseLine, if_neg hdot, if_pos hchar, splitRow_text hr.input hr.cst hr.nst hr.output hpo hlt]
  rfl

theorem lineChar_key (c : Char) (w : List Char) :
    lineChar ('.' :: c :: ' ' :: w) 0 = '.' ∧ lineChar ('.' :: c :: ' ' :: w) 1 = c := ⟨rfl, rfl⟩

/-- The header names the reset state, which gets number 0. -/
theorem parseHeader (first : Bool) (ns : ℕ) (hpi : m.nPi < 2 ^ 31) (hpo : m.nPo < 2 ^ 31)
    (hw : Word m.reset) (hreset : m.reset.length < 2 ^ 63) :
    (headerLines m ns).foldlM (parseLine first) ⟨[], [], none, none, none, []⟩ =
      some ⟨[m.reset], [[]], some 0, some (m.nPi : ℤ), some (m.nPo : ℤ), []⟩ := by
  have hi : ∀ p, parseLine first p (['.', 'i', ' '] ++ dec m.nPi) =
      some { p with numInputBits := some (m.nPi : ℤ) } := fun p => by
    simp [parseLine, lineChar_key, headerValue_dec hpi, getInt32_dec hpi]
  have ho : ∀ p, parseLine first p (['.', 'o', ' '] ++ dec m.nPo) =
      some { p with numOutputBits := some (m.nPo : ℤ) } := fun p => by
    simp [parseLine, lineChar_key, headerValue_dec hpo, getInt32_dec hpo]
  have hr : ∀ p : ParseSt, p.stateToInt = [] → parseLine first p (['.', 'r', ' '] ++ m.reset) =
      some { p with
        stateToInt := [m.reset], states := p.states ++ [[]], resetState := some 0 } := by
    intro p hp
    simp [parseLine, lineChar_key, headerValue_eq hw hreset, ParseSt.enter, hp]
  -- the lines with the counts of rows and states are passed over
  have hskip : ∀ p w, parseLine first p (['.', 'p', ' '] ++ w) = some p ∧
      parseLine first p (['.', 's', ' '] ++ w) = some p := fun p w => ⟨rfl, rfl⟩
  show ([['.', 'i', ' '] ++ dec m.nPi, ['.', 'o', ' '] ++ dec m.nPo,
    ['.', 'p', ' '] ++ dec m.rows.length, ['.', 's', ' '] ++ dec ns,
    ['.', 'r', ' '] ++ m.reset]).foldlM (parseLine first) _ = _
  simp only [List.foldlM_cons, hi, ho, (hskip _ _).1, (hskip _ _).2, Option.bind_eq_bind,
    Option.bind_some, List.foldlM_nil]
  rw [hr _ rfl]
  rfl

theorem foldlM_append_some {α β : Type} {f : β → α → Option β} {l l' : List α} {b b₁ : β}
    (h : l.foldlM f b = some b₁) : (l ++ l').foldlM f b = l'.foldlM f b₁ := by
  rw [List.foldlM_append, h]
  rfl

theorem namesAfter_cut (rows : List TransRow) :
    namesAfter m (rows.map cutRow) = namesAfter m rows := by
  unfold namesAfter
  rw [List.foldl_map]
  rfl

/-- What `parseKISSFile` reads: the rows with cut columns, by state. -/
theorem parseKISSFile_eq (hf : KissFile m ns text) (hpi : m.nPi < 2 ^ 31) (hpo : m.nPo < 2 ^ 31)
    (hreset : m.reset.length < 2 ^ 63) (hlt : ∀ r ∈ m.rows, outStart r < 2 ^ 32)
    (hstates : (hotStates m).length ≤ 2 ^ 31) (first : Bool) :
    parseKISSFile text first =
      some ⟨(hotStates m).map (readTranss (hotStates m) (m.rows.map cutRow)), some 0,
        some (m.nPi : ℤ), some (m.nPo : ℤ)⟩ := by
  obtain ⟨cs, trailer, hlines, hcs, htrailer⟩ := hf.lines
  have hcomments : cs.foldlM (parseLine first) ⟨[], [], none, none, none, []⟩ =
      some ⟨[], [], none, none, none, []⟩ := by
    obtain ⟨p, hp, rfl⟩ := foldlM_some (f := parseLine first) (l := cs)
      (fun _ p => p = ⟨[], [], none, none, none, []⟩) (by
        rintro pre c post p hl rfl
        exact ⟨_, parseLine_comment first _ (hcs c (hl ▸ by simp)), rfl⟩) rfl
    exact hp
  obtain ⟨p, hp, hinv⟩ := foldlM_some (f := fun p (r : TransRow) => parseLine first p r.text)
    (b := ⟨[m.reset], [[]], some 0, some (m.nPi : ℤ), some (m.nPo : ℤ), []⟩) (l := m.rows)
    (fun pre p => ParseInv m (hotStates m) (pre.map cutRow) p) (by
      intro pre r post p hl h
      have hr : r ∈ m.rows := hl ▸ by simp
      refine ⟨_, parseLine_row first p hf.pi hf.po (hf.row r hr) (hlt r hr), ?_⟩
      rw [List.map_append]
      refine h.step first (r := cutRow r) (hf.row r hr).star ?_
      rw [← List.map_singleton, ← List.map_append, namesAfter_cut, hotStates, ← hl,
        List.foldl_append, namesAfter, List.foldl_append]
      exact prefix_foldl_pushState _ _)
    ⟨rfl, rfl, rfl, rfl, rfl, rfl⟩
  have htrail : parseLine first p trailer = some p := by
    rcases htrailer with rfl | rfl <;> rfl
  have hnames : p.stateToInt = hotStates m := hinv.names.trans (namesAfter_cut m.rows)
  have hrows : (m.rows.map TransRow.text).foldlM (parseLine first)
      ⟨[m.reset], [[]], some 0, some (m.nPi : ℤ), some (m.nPo : ℤ), []⟩ = some p := by
    rw [List.foldlM_map]
    exact hp
  have hread : (cs ++ headerLines m ns ++ m.rows.map TransRow.text ++ [trailer]).foldlM
      (parseLine first) ⟨[], [], none, none, none, []⟩ = some p := by
    have hhead := (foldlM_append_some hcomments).trans
      (parseHeader first ns hpi hpo hf.reset hreset)
    rw [foldlM_append_some ((foldlM_append_some hhead).trans hrows), List.foldlM_cons, htrail]
    rfl
  have hlen : p.states.length ≤ 2 ^ 31 := by rwa [hinv.states, hnames, List.length_map]
  rw [parseKISSFile, getlines_eq hlines, hread, Option.bind_eq_bind, Option.bind_some, if_pos hlen]
  simp [hinv.undefined, hinv.reset, hinv.inputBits, hinv.outputBits, hinv.states, hnames]

end ExtFolding.Misc
