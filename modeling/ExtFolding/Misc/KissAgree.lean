import ExtFolding.Misc.KissRead

/-!
# The KISS writers and readers agree

`natEnc`, `oneHotEnc` and `parseKISSFile` recover the rows of a written file when the header holds
`int`s and as many states as the rows name, and no row has `2 ^ 32` characters or more. Rows of
`writeKISSFile` are never that long, and its states are few.
-/

namespace ExtFolding.Misc

open ExtFolding.Text ExtFolding.Utils ExtFolding.MeMin

variable {m : Kiss} {ns : ℕ} {text : List Char}

/-! ## Agreement -/

/-- `natEnc` reads the rows, the reset state and the numbers of pins of `m`. -/
def NatRecovers (m : Kiss) (text : List Char) (dcVal : Bool) : Prop :=
  ∀ fuel > (words text).length, ∃ f, natRead fuel text dcVal = some f ∧ f.input_num = m.nPi ∧
    f.output_num = m.nPo ∧ f.reset = m.reset ∧ f.table = m.rows.map (tableRow dcVal)

/-- `oneHotEnc` reads them with numbers for states and collects the rows under these with `-` as
`dcVal`, and no index is out of range on the way to the netlist. -/
def HotRecovers (m : Kiss) (text : List Char) (dcVal : Bool) : Prop :=
  ∀ fuel > (lines text).length, ∃ f, hotRead fuel text = some f ∧ f.ni = m.nPi ∧ f.no = m.nPo ∧
    f.stateMap.Nodup ∧ m.reset ∈ f.stateMap ∧ f.rst = f.stateMap.idxOf m.reset ∧
    (∀ r ∈ m.rows, r.cst ∈ f.stateMap ∧ r.nst ∈ f.stateMap) ∧
    f.rows = m.rows.map (hotRow f.stateMap) ∧
    hotFill f dcVal = some (hotVecs f.ns f.no dcVal f.rows) ∧
    (∀ r ∈ f.rows, ∀ j, r.sets dcVal j = true ↔ (r.output.map (readDc dcVal))[j]? = some '1') ∧
    ∃ b, oneHotEnc fuel text dcVal = some b

/-- The machine has the rows of `m` when states are numbered as in `names`. -/
structure Reads (M : Machine) (m : Kiss) (names : List (List Char)) : Prop where
  nodup : names.Nodup
  length : M.states.length = names.length
  named : ∀ r ∈ m.rows, r.cst ∈ names ∧ r.nst ∈ names
  reset_mem : m.reset ∈ names
  reset : M.resetState = some (names.idxOf m.reset)
  inputBits : M.numInputBits = some (m.nPi : ℤ)
  outputBits : M.numOutputBits = some (m.nPo : ℤ)
  rows : ∀ q ∈ names, ∃ l, M.states[names.idxOf q]? = some l ∧
    l.map (fun t => (t.1.toCString, t.2.1, t.2.2.toCString)) =
      (m.rows.filter fun r => r.cst = q).map fun r => (r.input, names.idxOf r.nst, r.output)

def ParseRecovers (m : Kiss) (text : List Char) (firstStateReset : Bool) : Prop :=
  ∃ M names, parseKISSFile text firstStateReset = some M ∧ Reads M m names

/-- The three readers recover `m`. -/
def Agree (m : Kiss) (text : List Char) : Prop :=
  (∀ dcVal, NatRecovers m text dcVal ∧ HotRecovers m text dcVal) ∧
    ∀ firstStateReset, ParseRecovers m text firstStateReset

/-- The reset state has number 0. -/
theorem idxOf_reset (m : Kiss) : (hotStates m).idxOf m.reset = 0 := by
  obtain ⟨u, hu⟩ := prefix_foldl_pushState m.rows [m.reset]
  rw [hotStates, ← hu]
  simp

theorem hotStates_named (m : Kiss) : ∀ r ∈ m.rows, r.cst ∈ hotStates m ∧ r.nst ∈ hotStates m :=
  fun r hr => ⟨((namesAfter_inv m m.rows).2 _).mpr (Or.inr ⟨r, hr, Or.inl rfl⟩),
    ((namesAfter_inv m m.rows).2 _).mpr (Or.inr ⟨r, hr, Or.inr rfl⟩)⟩

/-- A file that all readers take: the header holds `int`s, it announces as many states as there are
names, and the rows are not too long. -/
structure Readable (m : Kiss) (ns : ℕ) : Prop where
  rows : m.rows.length < 2 ^ 31
  states : ns < 2 ^ 31
  names : (hotStates m).length ≤ ns
  text : ∀ r ∈ m.rows, r.text.length < 2 ^ 32

theorem KissFile.natRecovers (hf : KissFile m ns text) (hints : HeaderInts m ns) (dcVal : Bool) :
    NatRecovers m text dcVal := by
  intro fuel hfuel
  obtain ⟨state_list, hread, -⟩ := natRead_spec hints hf.natText dcVal hfuel
  exact ⟨_, hread, rfl, rfl, rfl, rfl⟩

theorem readDc_eq_one {dcVal : Bool} {c : Char} :
    readDc dcVal c = '1' ↔ c = '1' ∨ dcVal = true ∧ c = '-' := by
  unfold readDc
  by_cases hc : c = '-'
  · subst hc
    cases dcVal <;> decide
  · simp [hc]

theorem KissFile.hotRead_iff (hf : KissFile m ns text) {fuel : ℕ}
    (hfuel : (Text.lines text).length < fuel) {f : HotInput} :
    hotRead fuel text = some f ↔ HeaderInts m ns ∧
      f = ⟨m.nPi, m.nPo, ns, 0, hotStates m, m.rows.map (hotRow (hotStates m))⟩ :=
  hotRead_spec (fun r hr => ⟨(hf.row r hr).input.1, (hf.row r hr).output.1⟩) hf.hotText hfuel

theorem KissFile.hotRecovers (hf : KissFile m ns text) (hints : HeaderInts m ns)
    (hns : (hotStates m).length ≤ ns) (dcVal : Bool) : HotRecovers m text dcVal := by
  intro fuel hfuel
  obtain ⟨hnd, hmem⟩ := namesAfter_inv m m.rows
  have hnamed := hotStates_named m
  have hcol : ∀ r ∈ m.rows, Column m.nPi r.input ∧ Column m.nPo r.output := fun r hr =>
    ⟨(hf.row r hr).input, (hf.row r hr).output⟩
  refine ⟨_, (hf.hotRead_iff hfuel).mpr ⟨hints, rfl⟩, rfl, rfl, hnd, (hmem _).mpr (Or.inl rfl),
    (idxOf_reset m).symm, hnamed, rfl, hotFill_spec (fun r hr => ?_) dcVal, fun r _ j => ?_, _,
    oneHotEnc_eq hns hcol hints hf.hotText dcVal hfuel⟩
  · obtain ⟨r', hr', rfl⟩ := List.mem_map.mp hr
    exact (List.idxOf_lt_length_of_mem (hnamed r' hr').2).trans_le hns
  · unfold HotRow.sets
    rw [decide_eq_true_iff, List.getElem?_map]
    cases r.output[j]? with
    | none => simp
    | some c => simp [readDc_eq_one]

/-- `oneHotEnc` alone asks for the counts. -/
theorem KissFile.ints_of_hotRecovers (hf : KissFile m ns text) (hne : m.rows ≠ []) {dcVal : Bool}
    (h : HotRecovers m text dcVal) : HeaderInts m ns ∧ (hotStates m).length ≤ ns := by
  obtain ⟨f, hread, -, -, -, -, -, -, -, hfill, -, b, hb⟩ := h _ (Nat.lt_succ_self _)
  obtain ⟨hints, rfl⟩ := (hf.hotRead_iff (Nat.lt_succ_self _)).mp hread
  rw [oneHotEnc, hread, Option.bind_eq_bind, Option.bind_some, hfill, Option.bind_eq_bind,
    Option.bind_some] at hb
  have hrow : ∀ r ∈ m.rows, (hotStates m).idxOf r.cst < ns ∧ (hotStates m).idxOf r.nst < ns := by
    intro r hr
    have hr' := List.mem_map_of_mem (f := hotRow (hotStates m)) hr
    have hy := lt_of_hotFill hfill _ hr'
    exact ⟨lt_of_hotWrite hb hr' hy, hy⟩
  have hlt : ∀ q ∈ hotStates m, (hotStates m).idxOf q < ns := by
    intro q hq
    obtain ⟨r, hr⟩ := List.exists_mem_of_ne_nil _ hne
    rcases mem_hotStates.mp hq with rfl | ⟨r', hr', rfl | rfl⟩
    · rw [idxOf_reset]
      exact (Nat.zero_le _).trans_lt (hrow r hr).1
    · exact (hrow r' hr').1
    · exact (hrow r' hr').2
  refine ⟨hints, Nat.le_of_not_lt fun hgt => ?_⟩
  have hnd : (hotStates m).Nodup := (namesAfter_inv m m.rows).1
  have hlast := hlt _ (List.getElem_mem hgt)
  rw [hnd.idxOf_getElem ns hgt] at hlast
  exact Nat.lt_irrefl ns hlast

theorem length_text (r : TransRow) : r.text.length = outStart r + r.output.length := by
  simp only [TransRow.text, outStart, List.length_append, List.length_cons]
  omega

theorem cutRow_eq {r : TransRow} (h : r.text.length < 2 ^ 32) : cutRow r = r := by
  rw [length_text] at h
  unfold cutRow
  rw [List.take_of_length_le (by omega)]

/-- Columns that are not cut are read back. -/
theorem reads_of_short (hf : KissFile m ns text)
    (hlt : ∀ r ∈ m.rows, r.text.length < 2 ^ 32) :
    Reads ⟨(hotStates m).map (readTranss (hotStates m) (m.rows.map cutRow)), some 0,
      some (m.nPi : ℤ), some (m.nPo : ℤ)⟩ m (hotStates m) := by
  obtain ⟨hnd, hmem⟩ := namesAfter_inv m m.rows
  have hreset : (hotStates m).idxOf m.reset = 0 := idxOf_reset m
  have hrows : m.rows.map cutRow = m.rows :=
    (List.map_congr_left fun r hr => cutRow_eq (hlt r hr)).trans (List.map_id' _)
  refine ⟨hnd, List.length_map _, hotStates_named m, (hmem _).mpr (Or.inl rfl), by rw [hreset],
    rfl, rfl, fun q hq => ⟨readTranss (hotStates m) m.rows q, ?_, ?_⟩⟩
  · rw [hrows, List.getElem?_map, List.getElem?_eq_getElem (List.idxOf_lt_length_of_mem hq),
      List.getElem_idxOf]
    rfl
  · rw [readTranss, List.map_map]
    refine List.map_congr_left fun r hr => ?_
    have hr := hf.row r (List.mem_filter.mp hr).1
    show ((IncSpecSeq.ofString r.input).toCString, (hotStates m).idxOf r.nst,
      (IncSpecSeq.ofString r.output).toCString) = _
    rw [IncSpecSeq.toCString_ofString hr.input.2, IncSpecSeq.toCString_ofString hr.output.2]

/-- A column that is cut is not read back under any numbers. -/
theorem short_of_reads (hf : KissFile m ns text) {F names : List (List Char)} {q : Option ℕ}
    {i o : Option ℤ} (hF : ∀ r ∈ m.rows, r.cst ∈ F)
    (h : Reads ⟨F.map (readTranss F (m.rows.map cutRow)), q, i, o⟩ m names) :
    ∀ r ∈ m.rows, r.text.length < 2 ^ 32 := by
  intro r hr
  -- every output that is kept is a whole column
  have hwhole : ∀ l ∈ F.map (readTranss F (m.rows.map cutRow)), ∀ t ∈ l,
      t.2.2.toCString.length = m.nPo := by
    intro l hl t ht
    obtain ⟨k, hk, rfl⟩ := List.mem_iff_getElem.mp hl
    have hk' : k < names.length := h.length ▸ hk
    obtain ⟨l', hl', hdec⟩ := h.rows names[k] (List.getElem_mem hk')
    rw [h.nodup.idxOf_getElem k hk', List.getElem?_eq_getElem hk] at hl'
    rw [← Option.some.inj hl'] at hdec
    obtain ⟨r', hr', heq⟩ := List.mem_map.mp (hdec ▸ List.mem_map_of_mem ht)
    rw [← congrArg (fun p => p.2.2.length) heq]
    exact (hf.row r' (List.mem_filter.mp hr').1).output.1
  have hmem : readTrans F (cutRow r) ∈ readTranss F (m.rows.map cutRow) r.cst :=
    List.mem_map_of_mem (List.mem_filter.mpr ⟨List.mem_map_of_mem hr, decide_eq_true rfl⟩)
  have hlen := hwhole _ (List.mem_map_of_mem (hF r hr)) _ hmem
  have hchars : ∀ c ∈ (cutRow r).output, c = '0' ∨ c = '1' ∨ c = '-' := fun c hc =>
    (hf.row r hr).output.2 c (List.mem_of_mem_take hc)
  rw [show (readTrans F (cutRow r)).2.2 = IncSpecSeq.ofString (cutRow r).output from rfl,
    IncSpecSeq.toCString_ofString hchars,
    show (cutRow r).output = r.output.take (2 ^ 32 - 1 - outStart r) from rfl, List.length_take,
    (hf.row r hr).output.1] at hlen
  rw [length_text, (hf.row r hr).output.1]
  have hpo := hf.po
  omega

/-- What is small in a file: header values and the part of a row before the outputs. -/
structure KissFile.Small (m : Kiss) : Prop where
  pi : m.nPi < 2 ^ 31
  po : m.nPo < 2 ^ 31
  reset : m.reset.length < 2 ^ 63
  start : ∀ r ∈ m.rows, outStart r < 2 ^ 32

/-- The readers agree on the readable files and on no other. -/
theorem KissFile.agree_iff (hf : KissFile m ns text) (hs : KissFile.Small m) (hne : m.rows ≠ []) :
    Agree m text ↔ Readable m ns := by
  constructor
  · intro h
    obtain ⟨hints, hns⟩ := hf.ints_of_hotRecovers hne (h.1 true).2
    have hparse := parseKISSFile_eq hf hs.pi hs.po hs.reset hs.start
      (hns.trans hints.states.le) true
    obtain ⟨M, names, hM, hreads⟩ := h.2 true
    rw [hparse] at hM
    rw [← Option.some.inj hM] at hreads
    exact ⟨hints.rows, hints.states, hns,
      short_of_reads hf (fun r hr => (hotStates_named m r hr).1) hreads⟩
  · intro h
    have hints : HeaderInts m ns := ⟨hs.pi, hs.po, h.rows, h.states⟩
    have hparse := parseKISSFile_eq hf hs.pi hs.po hs.reset hs.start (h.names.trans h.states.le)
    exact ⟨fun dcVal => ⟨hf.natRecovers hints dcVal, hf.hotRecovers hints h.names dcVal⟩,
      fun first => ⟨_, _, hparse first, reads_of_short hf h.text⟩⟩

/-! ## The writers -/

/-- Rows as `addOneTrans` writes them; frames and classes are counted in 32 bits, and pins are
counted by the network, with `int`. -/
structure StgRows (G : STG) : Prop where
  pi : 1 ≤ G.nPi ∧ G.nPi < 2 ^ 31
  po : 1 ≤ G.nPo ∧ G.nPo < 2 ^ 31
  rows : G.transs ≠ []
  column : ∀ r ∈ G.transs, Column G.nPi r.input ∧ Column G.nPo r.output
  cst : ∀ r ∈ G.transs, ∃ t < 2 ^ 32, ∃ c < 2 ^ 32, r.cst = stName t c
  nst : ∀ r ∈ G.transs, r.nst = ['*'] ∨ ∃ t < 2 ^ 32, ∃ c < 2 ^ 32, r.nst = stName t c

theorem word_stName (t c : ℕ) : Word (stName t c) :=
  ⟨List.cons_ne_nil _ _,
    forall_mem_stName (by decide) (by decide) (fun _ => not_isSpace_of_isDigit) t c⟩

theorem length_stName {t c : ℕ} (ht : t < 2 ^ 32) (hc : c < 2 ^ 32) :
    (stName t c).length ≤ 22 := by
  have h₁ : (Nat.toDigits 10 t).length ≤ 10 := length_dec ht
  have h₂ : (Nat.toDigits 10 c).length ≤ 10 := length_dec hc
  simp only [stName, List.length_cons, List.length_append]
  omega

theorem StgRows.word_nst {G : STG} (h : StgRows G) {r : TransRow} (hr : r ∈ G.transs) :
    Word r.nst ∧ r.nst.length ≤ 22 := by
  rcases h.nst r hr with hn | ⟨t, ht, c, hc, hn⟩
  · rw [hn]
    exact ⟨by simp [Word, isSpace], by decide⟩
  · rw [hn]
    exact ⟨word_stName t c, length_stName ht hc⟩

/-- What `STG::write` writes. -/
theorem StgRows.kissFile {G : STG} (h : StgRows G) {iPerm oPerm : Option (List ℕ)}
    (hw : G.write iPerm oPerm = some text) : KissFile (kissOf G) G.nSts text := by
  have hrow : ∀ r ∈ G.transs, FileRow (kissOf G) r := fun r hr => by
    obtain ⟨t, -, c, -, hc⟩ := h.cst r hr
    obtain ⟨hi, ho⟩ := h.column r hr
    exact ⟨hi, hc ▸ word_stName t c, hc ▸ stName_ne_star t c, (h.word_nst hr).1, ho⟩
  have hclean : ∀ r ∈ G.transs, CleanRow r := fun r hr =>
    ⟨clean_word (word_column h.pi.1 (hrow r hr).input), clean_word (hrow r hr).cst,
      clean_word (hrow r hr).nst, clean_word (word_column h.po.1 (hrow r hr).output)⟩
  obtain ⟨cs, hlines, hcs⟩ := write_lines hclean hw
  refine ⟨h.pi.1, h.po.1, word_stName 0 0, hrow, cs, ".e".toList, ?_, hcs, Or.inl rfl⟩
  rw [hlines]
  simp [STG.bodyLines, headerLines, kissOf, stName]

theorem StgRows.small {G : STG} (h : StgRows G) : KissFile.Small (kissOf G) := by
  refine ⟨h.pi.2, h.po.2, (length_stName (t := 0) (c := 0) (by decide) (by decide)).trans_lt
    (by decide), fun r hr => ?_⟩
  obtain ⟨t, ht, c, hc, hcst⟩ := h.cst r hr
  have h₁ : r.input.length < 2 ^ 31 := (h.column r hr).1.1 ▸ h.pi.2
  have h₂ : r.cst.length ≤ 22 := hcst ▸ length_stName ht hc
  have h₃ := (h.word_nst hr).2
  unfold outStart
  omega

/-- The machine of the rows that `writeKISSFile` writes. -/
def newKiss (m : NewMachine) (q : ℕ) : Kiss :=
    ⟨m.inputLength, m.outputLength, NewMachine.name q, m.rows⟩

/-- Columns of one width, and a reset state that occurs in a row. -/
structure NewOk (m : NewMachine) (q : ℕ) : Prop where
  pi : 1 ≤ m.inputLength
  po : 1 ≤ m.outputLength
  input : ∀ a ∈ m.inputIDToIncSpecSeq, a.Wf m.inputLength
  output : ∀ l ∈ m.machineOutput, ∀ o ∈ l, ∀ a, o = some a → a.Wf m.outputLength
  reset : m.resetState = some q
  occurs : ∃ r ∈ m.rows, r.cst = NewMachine.name q ∨ r.nst = NewMachine.name q

theorem word_name (s : ℕ) : Word (NewMachine.name s) := by
  refine ⟨List.cons_ne_nil _ _, fun ch hch => ?_⟩
  rcases List.mem_cons.mp hch with rfl | hch
  · decide
  · exact (word_dec s).2 ch hch

theorem NewMachine.name_ne_star (s : ℕ) : NewMachine.name s ≠ ['*'] := by
  intro h
  exact absurd (List.cons.inj h).1 (by decide)

theorem column_toCString {n : ℕ} {a : IncSpecSeq} (ha : a.Wf n) : Column n a.toCString := by
  rw [IncSpecSeq.toCString_eq ha]
  refine ⟨by simp, fun c hc => ?_⟩
  obtain ⟨p, -, rfl⟩ := List.mem_map.mp hc
  cases a.cube p with
  | none => exact Or.inr (Or.inr rfl)
  | some b => exact bitChar_cases b

theorem NewOk.fileRow {m : NewMachine} {q : ℕ} (h : NewOk m q) :
    ∀ r ∈ m.rows, FileRow (newKiss m q) r := by
  intro r hr
  rw [NewMachine.rows, List.reduceOption_mem_iff, List.mem_flatMap] at hr
  obtain ⟨state, -, hr⟩ := hr
  obtain ⟨a, -, hr⟩ := List.mem_map.mp hr
  simp only [NewMachine.row, Option.bind_eq_bind, Option.bind_eq_some_iff] at hr
  obtain ⟨nexts, -, _, -, next, -, input, hinput, os, hos, o, ho, output, rfl, hr⟩ := hr
  obtain rfl := Option.some.inj hr
  exact ⟨column_toCString (h.input input (List.mem_of_getElem? hinput)), word_name state,
    NewMachine.name_ne_star state, word_name next,
    column_toCString (h.output os (List.mem_of_getElem? hos) _ (List.mem_of_getElem? ho) _ rfl)⟩

/-- What `writeKISSFile` writes; its rows are short. -/
theorem NewOk.kissFile {m : NewMachine} {q : ℕ} (h : NewOk m q)
    (hw : m.writeKISSFile = some text) :
    KissFile (newKiss m q) m.machineNextState.length text ∧ KissFile.Small (newKiss m q) ∧
      ∀ r ∈ m.rows, r.text.length < 2 ^ 32 := by
  obtain ⟨htext, hsize, hrows⟩ := NewMachine.writeKISSFile_eq hw
  have hfile : KissFile (newKiss m q) m.machineNextState.length text := by
    refine ⟨h.pi, h.po, word_name q, h.fileRow, [], ".s ".toList, ?_, by simp, Or.inr rfl⟩
    rw [htext, h.reset]
    refine lines_flatMap fun l hl => ?_
    have hword : ∀ {w : List Char}, Word w → '\n' ∉ w := fun hw hmem =>
      absurd (hw.2 _ hmem) (by decide)
    rcases List.mem_append.mp hl with hl | hl
    · rcases List.mem_append.mp hl with hl | hl
      · have hdec : ∀ n, '\n' ∉ dec n := fun n => hword (word_dec n)
        have hname : '\n' ∉ NewMachine.name q := hword (word_name q)
        simp only [List.mem_append, List.mem_cons, List.not_mem_nil, or_false] at hl
        rcases hl with (rfl | rfl | rfl | rfl) | rfl <;> simp [hdec, hname]
      · obtain ⟨r, hr, rfl⟩ := List.mem_map.mp hl
        have hr := h.fileRow r hr
        exact newline_not_mem_row ⟨clean_word (word_column h.pi hr.input), clean_word hr.cst,
          clean_word hr.nst, clean_word (word_column h.po hr.output)⟩
    · rw [List.mem_singleton.mp hl]
      decide
  have hlen : ∀ r ∈ m.rows, r.text.length < 2 ^ 31 := fun r hr => (hrows r hr).1
  refine ⟨hfile, ⟨?_, ?_, ?_, ?_⟩, fun r hr => (hlen r hr).trans (by decide)⟩
  · show m.inputLength < 2 ^ 31
    omega
  · show m.outputLength < 2 ^ 31
    omega
  · obtain ⟨r, hr, hq⟩ := h.occurs
    have hr := hlen r hr
    rw [length_text, outStart] at hr
    show (NewMachine.name q).length < 2 ^ 63
    rcases hq with hq | hq <;> rw [← hq] <;> omega
  · intro r hr
    have hr := hlen r hr
    rw [length_text] at hr
    omega

/-- In a file of `writeKISSFile` only the number of rows can be too large. -/
theorem NewOk.readable_iff {m : NewMachine} {q : ℕ} (h : NewOk m q)
    (hw : m.writeKISSFile = some text) :
    Readable (newKiss m q) m.machineNextState.length ↔ m.rows.length < 2 ^ 31 := by
  refine ⟨Readable.rows, fun hrows => ⟨hrows, NewMachine.length_of_writeKISSFile hw, ?_,
    (h.kissFile hw).2.2⟩⟩
  obtain ⟨hnd, hmem⟩ := namesAfter_inv (newKiss m q) m.rows
  obtain ⟨-, -, hnames⟩ := NewMachine.writeKISSFile_eq hw
  have hsub : hotStates (newKiss m q) ⊆
      (List.range m.machineNextState.length).map NewMachine.name := by
    intro s hs
    have hrow : ∃ r ∈ m.rows, s = r.cst ∨ s = r.nst := by
      rcases (hmem s).mp hs with rfl | hrow
      · obtain ⟨r, hr, hq⟩ := h.occurs
        exact ⟨r, hr, hq.imp Eq.symm Eq.symm⟩
      · exact hrow
    obtain ⟨r, hr, hs⟩ := hrow
    obtain ⟨-, ⟨c, hc, hcst⟩, n, hn, hnst⟩ := hnames r hr
    rw [List.mem_map]
    rcases hs with rfl | rfl
    · exact ⟨c, List.mem_range.mpr hc, hcst.symm⟩
    · exact ⟨n, List.mem_range.mpr hn, hnst.symm⟩
  have hle := (List.subperm_of_subset hnd hsub).length_le
  rwa [List.length_map, List.length_range] at hle

/-- A file of `STG::write`, with or without permutations, or of `writeKISSFile`, and the number of
states in its header. -/
inductive Written : Kiss → ℕ → List Char → Prop
  | stg {G : STG} {iPerm oPerm : Option (List ℕ)} {text : List Char} (hG : StgRows G)
      (hw : G.write iPerm oPerm = some text) : Written (kissOf G) G.nSts text
  | new {m : NewMachine} {q : ℕ} {text : List Char} (hm : NewOk m q)
      (hw : m.writeKISSFile = some text) : Written (newKiss m q) m.machineNextState.length text

/-- The readers recover the readable files and no other. -/
theorem readers_agree (h : Written m ns text) : Agree m text ↔ Readable m ns := by
  cases h with
  | stg hG hw => exact (hG.kissFile hw).agree_iff hG.small hG.rows
  | new hm hw =>
      obtain ⟨r, hr, -⟩ := hm.occurs
      exact (hm.kissFile hw).1.agree_iff (hm.kissFile hw).2.1 (List.ne_nil_of_mem hr)

/-- One frame with one row that matches everything and asks for nothing. -/
def freeStg (n : ℕ) : STG :=
  ⟨n, n, n, n, 1, 2, [⟨List.replicate n '-', stName 0 0, ['*'], List.replicate n '-'⟩]⟩

theorem column_free (n : ℕ) : Column n (List.replicate n '-') :=
  ⟨List.length_replicate, fun _ hc => Or.inr (Or.inr (List.eq_of_mem_replicate hc))⟩

theorem freeStg_rows {n : ℕ} (h₁ : 1 ≤ n) (h₂ : n < 2 ^ 31) : StgRows (freeStg n) where
  pi := ⟨h₁, h₂⟩
  po := ⟨h₁, h₂⟩
  rows := List.cons_ne_nil _ _
  column := fun r hr => by
    rw [List.mem_singleton.mp hr]
    exact ⟨column_free n, column_free n⟩
  cst := fun r hr => ⟨0, by decide, 0, by decide, by rw [List.mem_singleton.mp hr]⟩
  nst := fun r hr => Or.inl (by rw [List.mem_singleton.mp hr])

/-- Two states that alternate, with one input and one output. -/
def toggleNew : NewMachine where
  machineNextState := [[some 1], [some 0]]
  machineOutput := [[some (IncSpecSeq.ofString ['0'])], [some (IncSpecSeq.ofString ['-'])]]
  resetState := some 0
  inputLength := 1
  outputLength := 1
  inputIDToIncSpecSeq := [IncSpecSeq.ofString ['-']]

theorem toggleNew_ok : NewOk toggleNew 0 where
  pi := le_rfl
  po := le_rfl
  input := by
    intro a ha
    rw [List.mem_singleton.mp ha]
    exact IncSpecSeq.ofString_wf ['-']
  output := by
    intro l hl o ho a ha
    simp only [toggleNew, List.mem_cons, List.not_mem_nil, or_false] at hl
    rcases hl with rfl | rfl
    · rw [List.mem_singleton.mp ho] at ha
      exact Option.some.inj ha ▸ IncSpecSeq.ofString_wf ['0']
    · rw [List.mem_singleton.mp ho] at ha
      exact Option.some.inj ha ▸ IncSpecSeq.ofString_wf ['-']
  reset := rfl
  occurs := ⟨_, List.mem_cons_self, Or.inl rfl⟩

theorem readers_agree_small :
    (∃ text, (freeStg 1).write none (some [0]) = some text ∧ Agree (kissOf (freeStg 1)) text) ∧
    ∃ text, toggleNew.writeKISSFile = some text ∧ Agree (newKiss toggleNew 0) text := by
  have hstg : ∃ text, (freeStg 1).write none (some [0]) = some text := ⟨_, rfl⟩
  have hnew : ∃ text, toggleNew.writeKISSFile = some text := ⟨_, rfl⟩
  obtain ⟨text, hw⟩ := hstg
  obtain ⟨text', hw'⟩ := hnew
  have hfree : Readable (kissOf (freeStg 1)) 2 := by
    refine ⟨by decide, by decide, by decide, fun r hr => ?_⟩
    rw [List.mem_singleton.mp hr]
    decide
  exact ⟨⟨text, hw, (readers_agree (.stg (freeStg_rows le_rfl (by decide)) hw)).mpr hfree⟩,
    text', hw', (readers_agree (.new toggleNew_ok hw')).mpr
      ((toggleNew_ok.readable_iff hw').mpr (by decide))⟩

theorem freeStg_long {n : ℕ} (h : 2 ^ 32 ≤ 2 * n + 8) :
    ¬ ∀ r ∈ (freeStg n).transs, r.text.length < 2 ^ 32 := by
  intro hlt
  have hlen := hlt _ List.mem_cons_self
  have h₁ : (stName 0 0).length = 4 := rfl
  have h₂ : ['*'].length = 1 := rfl
  rw [length_text, outStart, List.length_replicate] at hlen
  simp only [h₁, h₂] at hlen
  omega

/-- The output column of the widest graph is not read to its end. -/
theorem readers_disagree : ∃ text, StgRows (freeStg (2 ^ 31 - 1)) ∧
    (freeStg (2 ^ 31 - 1)).write none none = some text ∧
    ¬ Agree (kissOf (freeStg (2 ^ 31 - 1))) text := by
  have hrows : StgRows (freeStg (2 ^ 31 - 1)) := freeStg_rows (by decide) (by decide)
  have hwrite (n : ℕ) : (freeStg n).write none none =
      some ((freeStg n).bodyLines.flatMap (· ++ ['\n'])) := rfl
  exact ⟨_, hrows, hwrite _, fun h => freeStg_long (by decide)
    (((hrows.kissFile (hwrite _)).agree_iff hrows.small hrows.rows).mp h).text⟩

end ExtFolding.Misc
