import ExtFolding.Misc.NatEnc

/-!
# `misc/oneHotEnc.cpp`: reading the machine

The file is read line by line: comment lines, the five header lines in a fixed order, the rows,
and a line that starts with a dot. States are numbered on first sight, the reset state first. A
count of the header that is no `int` is an exception.
-/

namespace ExtFolding.Misc

open ExtFolding.Text ExtFolding.Utils

/-! ## The reader -/

/-- The tokens of a line. -/
def lineTokens (x : List Char) : List (List Char) :=
  tokens (fun c => c = ' ' || c = '\t') (x.filter fun c => c ≠ '\n' && c ≠ '\r')

/-- `tokenize` with its assertion. -/
def tokenize (x : List Char) (size : ℕ) : Option (List (List Char)) :=
  if (lineTokens x).length = size then some (lineTokens x) else none

/-- `stoi` into an unsigned variable; without a number, and out of range, it throws. -/
def stoi (s : List Char) : Option ℕ := do
  let n ← (readInt (s.dropWhile isSpace)).1
  if n < -2 ^ 31 then none else if 2 ^ 31 ≤ n then none else return (n % 2 ^ 32).toNat

/-- The index of a state in the map, whose entries stand here in the order of their indices. -/
def getStateIdx (name : List Char) (stateMap : List (List Char)) : ℕ × List (List Char) :=
  if stateMap.count name > 0 then (stateMap.idxOf name, stateMap)
  else (stateMap.length, stateMap ++ [name])

/-- The loop that passes over the lines with `#`. -/
def skipComments : ℕ → IStream → List Char → Option (List Char × IStream)
  | 0, _, _ => none
  | fuel + 1, ifs, buf =>
      let (buf, ifs) := ifs.getline buf
      if buf.head? = some '#' then skipComments fuel ifs buf else some (buf, ifs)

/-- A header line with its keyword. -/
def headerLine (key buf : List Char) : Option (List Char) := do
  match ← tokenize buf 2 with
  | [k, w] => if k = key then some w else none
  | _ => none

/-- A row with the indices of its states. -/
structure HotRow where
  input : List Char
  x : ℕ
  y : ℕ
  output : List Char
deriving DecidableEq

structure HotVars where
  ifs : IStream
  buf : List Char
  stateMap : List (List Char)
  rows : List HotRow

/-- One round of the loop over the rows. -/
def hotReadRow (ni no : ℕ) (v : HotVars) : Option HotVars := do
  let (buf, ifs) := v.ifs.getline v.buf
  match ← tokenize buf 4 with
  | [input, cst, nst, output] =>
      if input.length = ni ∧ output.length = no then
        let (x, stateMap) := getStateIdx cst v.stateMap
        let (y, stateMap) := getStateIdx nst stateMap
        return ⟨ifs, buf, stateMap, v.rows ++ [⟨input, x, y, output⟩]⟩
      else none
  | _ => none

def hotReadRows (ni no : ℕ) : ℕ → HotVars → Option HotVars
  | 0, v => some v
  | np + 1, v => do hotReadRows ni no np (← hotReadRow ni no v)

/-- What `oneHotEnc` reads; the collecting of the rows in vectors is `hotFill`. -/
structure HotInput where
  ni : ℕ
  no : ℕ
  ns : ℕ
  rst : ℕ
  stateMap : List (List Char)
  rows : List HotRow

def hotRead (fuel : ℕ) (text : List Char) : Option HotInput := do
  let (buf, ifs) ← skipComments fuel ⟨text, false⟩ []
  let ni ← stoi (← headerLine ['.', 'i'] buf)
  let (buf, ifs) := ifs.getline buf
  let no ← stoi (← headerLine ['.', 'o'] buf)
  let (buf, ifs) := ifs.getline buf
  let np ← stoi (← headerLine ['.', 'p'] buf)
  let (buf, ifs) := ifs.getline buf
  let ns ← stoi (← headerLine ['.', 's'] buf)
  let (buf, ifs) := ifs.getline buf
  let (rst, stateMap) := getStateIdx (← headerLine ['.', 'r'] buf) []
  let v ← hotReadRows ni no np ⟨ifs, buf, stateMap, []⟩
  let (buf, _) := v.ifs.getline v.buf
  if buf.head? = some '.' then return ⟨ni, no, ns, rst, v.stateMap, v.rows⟩ else none

/-! ## The accepted files -/

/-- A line with a keyword and its value. -/
def HeaderLine (m : Kiss) (ns : ℕ) (k : Key) (l : List Char) : Prop :=
  ∃ w, lineTokens l = [k.text, w] ∧ k.Value m ns w

/-- A file of `m` for `oneHotEnc`, where `ns` is the number of states that it announces. -/
def HotText (m : Kiss) (ns : ℕ) (text : List Char) : Prop :=
  ∃ (cs rl rest : List (List Char)) (li lo lp ls lr lend : List Char),
    lines text = cs ++ li :: lo :: lp :: ls :: lr :: (rl ++ lend :: rest) ∧
    (∀ c ∈ cs, c.head? = some '#') ∧ HeaderLine m ns .i li ∧ HeaderLine m ns .o lo ∧
    HeaderLine m ns .p lp ∧ HeaderLine m ns .s ls ∧ HeaderLine m ns .r lr ∧
    List.Forall₂ (fun l r => lineTokens l = rowWords r) rl m.rows ∧ lend.head? = some '.'

/-! ## What is read -/

/-- The states in the order in which `oneHotEnc` sees them. -/
def hotStates (m : Kiss) : List (List Char) :=
  m.rows.foldl (fun l r => pushState (pushState l r.cst) r.nst) [m.reset]

/-- A row as it is read when `l` are all states. -/
def hotRow (l : List (List Char)) (r : TransRow) : HotRow :=
  ⟨r.input, l.idxOf r.cst, l.idxOf r.nst, r.output⟩

theorem getStateIdx_eq (name : List Char) (l : List (List Char)) :
    getStateIdx name l = ((pushState l name).idxOf name, pushState l name) := by
  unfold getStateIdx pushState
  by_cases h : name ∈ l
  · rw [if_pos (List.count_pos_iff.mpr h), if_pos h]
  · rw [if_neg fun hc => h (List.count_pos_iff.mp hc), if_neg h, List.idxOf_append_of_notMem h,
      List.idxOf_cons_self, Nat.add_zero]

/-- A state keeps its index when others are added. -/
theorem idxOf_of_prefix {l l' : List (List Char)} (h : l <+: l') {s : List Char} (hs : s ∈ l) :
    l'.idxOf s = l.idxOf s := by
  obtain ⟨u, rfl⟩ := h
  exact List.idxOf_append_of_mem hs

theorem tokenize_eq {l : List Char} {toks : List (List Char)} (h : lineTokens l = toks) :
    tokenize l toks.length = some toks := by
  unfold tokenize
  rw [h, if_pos rfl]

/-- Only an `int` is converted, to its value. -/
theorem stoi_numeral {w : List Char} {n a : ℕ} (h : Numeral w n) :
    stoi w = some a ↔ n < 2 ^ 31 ∧ a = n := by
  obtain ⟨c, u, rfl⟩ := List.exists_cons_of_ne_nil h.1
  have hsp : isSpace c = false := not_isSpace_of_isDigit (h.2.1 c List.mem_cons_self)
  have hread : readInt (c :: u) = (some (n : ℤ), []) := by
    have := readInt_numeral h (u := []) (by simp)
    rwa [List.append_nil] at this
  unfold stoi
  rw [List.dropWhile_cons_of_neg (by simp [hsp]), hread, Option.bind_eq_bind, Option.bind_some,
    if_neg (by omega)]
  split
  · next hn => exact iff_of_false (by simp) fun hlt => absurd hlt.1 (by omega)
  · next hn =>
      rw [Int.emod_eq_of_lt (by omega) (by omega), Int.toNat_natCast, Option.pure_def,
        Option.some.injEq, and_iff_right (by omega), eq_comm]

theorem headerLine_eq {k w l : List Char} (h : lineTokens l = [k, w]) :
    headerLine k l = some w := by
  unfold headerLine
  rw [show (2 : ℕ) = [k, w].length from rfl, tokenize_eq h]
  show (if k = k then some w else none) = some w
  rw [if_pos rfl]

/-- A line whose first token starts with a dot is no comment. -/
theorem head?_ne_of_lineTokens {l w : List Char} {ts : List (List Char)}
    (h : lineTokens l = ('.' :: w) :: ts) : l.head? ≠ some '#' := by
  intro hl
  obtain ⟨u, rfl⟩ : ∃ u, l = '#' :: u := by
    cases l with
    | nil => simp at hl
    | cons c u => exact ⟨u, by rw [Option.some.inj hl]⟩
  unfold lineTokens at h
  rw [List.filter_cons_of_pos (by decide), tokens_eq_takeWhile _ (by
    rw [List.dropWhile_cons_of_neg (by decide)]; exact List.cons_ne_nil _ _),
    List.dropWhile_cons_of_neg (by decide), List.takeWhile_cons_of_pos (by decide)] at h
  exact absurd (List.cons.inj (List.cons.inj h).1).1 (by decide)

theorem skipComments_spec {cs : List (List Char)} (hcs : ∀ c ∈ cs, c.head? = some '#')
    {l : List Char} (hl : l.head? ≠ some '#') {ls : List (List Char)} :
    ∀ (fuel : ℕ) (s : IStream) (buf : List Char), cs.length < fuel →
      s.linesLeft = cs ++ l :: ls →
      ∃ s', skipComments fuel s buf = some (l, s') ∧ s'.linesLeft = ls := by
  induction cs with
  | nil =>
      intro fuel s buf hfuel hs
      obtain ⟨fuel, rfl⟩ := Nat.exists_eq_add_one_of_ne_zero (Nat.ne_zero_of_lt hfuel)
      obtain ⟨s', hget, hs'⟩ := IStream.getline_cons hs buf
      exact ⟨s', by simp [skipComments, hget, hl], hs'⟩
  | cons c cs ih =>
      intro fuel s buf hfuel hs
      obtain ⟨fuel, rfl⟩ := Nat.exists_eq_add_one_of_ne_zero (Nat.ne_zero_of_lt hfuel)
      obtain ⟨s₁, hget, hs₁⟩ := IStream.getline_cons hs buf
      obtain ⟨s', hskip, hs'⟩ := ih (fun c hc => hcs c (List.mem_cons_of_mem _ hc)) fuel s₁ c
        (Nat.lt_of_succ_lt_succ hfuel) hs₁
      refine ⟨s', ?_, hs'⟩
      simp only [skipComments, hget, hcs c List.mem_cons_self, if_true, hskip]

theorem hotReadRow_spec {ni no : ℕ} {v : HotVars} {l : List Char} {ls : List (List Char)}
    {r : TransRow} (hs : v.ifs.linesLeft = l :: ls) (hl : lineTokens l = rowWords r)
    (hi : r.input.length = ni) (ho : r.output.length = no) {F : List (List Char)}
    (hF : pushState (pushState v.stateMap r.cst) r.nst <+: F) :
    ∃ v', hotReadRow ni no v = some v' ∧ v'.ifs.linesLeft = ls ∧
      v'.stateMap = pushState (pushState v.stateMap r.cst) r.nst ∧
      v'.rows = v.rows ++ [hotRow F r] := by
  obtain ⟨s', hget, hs'⟩ := IStream.getline_cons hs v.buf
  have hx : F.idxOf r.cst = (pushState v.stateMap r.cst).idxOf r.cst :=
    idxOf_of_prefix ((prefix_pushState _ _).trans hF) (mem_pushState.mpr (Or.inr rfl))
  have hy : F.idxOf r.nst = (pushState (pushState v.stateMap r.cst) r.nst).idxOf r.nst :=
    idxOf_of_prefix hF (mem_pushState.mpr (Or.inr rfl))
  refine ⟨⟨s', l, _, v.rows ++ [hotRow F r]⟩, ?_, hs', rfl, rfl⟩
  have htok : tokenize l 4 = some (rowWords r) := tokenize_eq hl
  simp only [hotReadRow, hget, htok, getStateIdx_eq]
  show (if r.input.length = ni ∧ r.output.length = no then _ else none) = _
  rw [if_pos ⟨hi, ho⟩, hotRow, hx, hy]
  rfl

theorem hotReadRows_spec {ni no : ℕ} {F : List (List Char)} {rest rl : List (List Char)}
    {rows : List TransRow} (hrl : List.Forall₂ (fun l r => lineTokens l = rowWords r) rl rows) :
    ∀ v : HotVars, v.ifs.linesLeft = rl ++ rest →
      (∀ r ∈ rows, r.input.length = ni ∧ r.output.length = no) →
      rows.foldl (fun l r => pushState (pushState l r.cst) r.nst) v.stateMap = F →
      ∃ v', hotReadRows ni no rows.length v = some v' ∧ v'.ifs.linesLeft = rest ∧
        v'.stateMap = F ∧ v'.rows = v.rows ++ rows.map (hotRow F) := by
  induction hrl with
  | nil => exact fun v hs _ hF => ⟨v, rfl, hs, hF, (List.append_nil _).symm⟩
  | @cons l r rl rows hl _ ih =>
      intro v hs hw hF
      obtain ⟨hi, ho⟩ := hw r List.mem_cons_self
      obtain ⟨v₁, hrow, hs₁, hmap, hrows⟩ := hotReadRow_spec hs hl hi ho (F := F)
        (hF ▸ prefix_foldl_pushState rows _)
      obtain ⟨v', hread, hs', hmap', hrows'⟩ := ih v₁ hs₁
        (fun r' hr' => hw r' (List.mem_cons_of_mem _ hr')) (by rw [hmap]; exact hF)
      refine ⟨v', ?_, hs', hmap', ?_⟩
      · rw [List.length_cons, hotReadRows, hrow]
        exact hread
      · rw [hrows', hrows, List.map_cons, List.append_assoc]
        rfl

/-- The machine that `oneHotEnc` reads is the one of the file, with numbers for states; it is read
if and only if the counts are `int`s. -/
theorem hotRead_spec {m : Kiss}
    (hm : ∀ r ∈ m.rows, r.input.length = m.nPi ∧ r.output.length = m.nPo) {ns : ℕ}
    {text : List Char} (ht : HotText m ns text) {fuel : ℕ} (hfuel : (lines text).length < fuel)
    {f : HotInput} : hotRead fuel text = some f ↔ HeaderInts m ns ∧
      f = ⟨m.nPi, m.nPo, ns, 0, hotStates m, m.rows.map (hotRow (hotStates m))⟩ := by
  obtain ⟨cs, rl, rest, li, lo, lp, ls, lr, lend, hlines, hcs, ⟨wi, hli, hwi⟩, ⟨wo, hlo, hwo⟩,
    ⟨wp, hlp, hwp⟩, ⟨ws, hls, hws⟩, ⟨wr, hlr, rfl⟩, hrl, hend⟩ := ht
  obtain ⟨s₀, h₀, hs₀⟩ := skipComments_spec hcs (head?_ne_of_lineTokens hli) fuel ⟨text, false⟩ []
    (by rw [hlines, List.length_append] at hfuel; omega) hlines
  obtain ⟨s₁, h₁, hs₁⟩ := IStream.getline_cons hs₀ li
  obtain ⟨s₂, h₂, hs₂⟩ := IStream.getline_cons hs₁ lo
  obtain ⟨s₃, h₃, hs₃⟩ := IStream.getline_cons hs₂ lp
  obtain ⟨s₄, h₄, hs₄⟩ := IStream.getline_cons hs₃ ls
  obtain ⟨v, hread, hv, hmap, hrows⟩ := hotReadRows_spec hrl ⟨s₄, lr, [m.reset], []⟩ hs₄
    hm rfl
  obtain ⟨s₅, h₅, -⟩ := IStream.getline_cons hv v.buf
  have hi : headerLine ['.', 'i'] li = some wi := headerLine_eq hli
  have ho : headerLine ['.', 'o'] lo = some wo := headerLine_eq hlo
  have hp : headerLine ['.', 'p'] lp = some wp := headerLine_eq hlp
  have hs : headerLine ['.', 's'] ls = some ws := headerLine_eq hls
  have hr : headerLine ['.', 'r'] lr = some m.reset := headerLine_eq hlr
  have hrun : HeaderInts m ns → hotRead fuel text =
      some ⟨m.nPi, m.nPo, ns, 0, hotStates m, m.rows.map (hotRow (hotStates m))⟩ := by
    intro hints
    have ni := (stoi_numeral hwi).mpr ⟨hints.nPi, rfl⟩
    have no := (stoi_numeral hwo).mpr ⟨hints.nPo, rfl⟩
    have np := (stoi_numeral hwp).mpr ⟨hints.rows, rfl⟩
    have nst := (stoi_numeral hws).mpr ⟨hints.states, rfl⟩
    simp [hotRead, h₀, h₁, h₂, h₃, h₄, h₅, hi, ho, hp, hs, hr, ni, no, np, nst, getStateIdx, hread,
      hend, hmap, hrows, hotStates]
  constructor
  · intro h
    have hints : HeaderInts m ns := by
      obtain ⟨_, e, hf⟩ := Option.bind_eq_some_iff.mp h
      rw [h₀] at e
      cases e
      obtain ⟨_, e, hf⟩ := Option.bind_eq_some_iff.mp hf
      rw [hi] at e
      cases e
      obtain ⟨_, ni, hf⟩ := Option.bind_eq_some_iff.mp hf
      simp only [h₁] at hf
      obtain ⟨_, e, hf⟩ := Option.bind_eq_some_iff.mp hf
      rw [ho] at e
      cases e
      obtain ⟨_, no, hf⟩ := Option.bind_eq_some_iff.mp hf
      simp only [h₂] at hf
      obtain ⟨_, e, hf⟩ := Option.bind_eq_some_iff.mp hf
      rw [hp] at e
      cases e
      obtain ⟨_, np, hf⟩ := Option.bind_eq_some_iff.mp hf
      simp only [h₃] at hf
      obtain ⟨_, e, hf⟩ := Option.bind_eq_some_iff.mp hf
      rw [hs] at e
      cases e
      obtain ⟨_, nst, -⟩ := Option.bind_eq_some_iff.mp hf
      exact ⟨((stoi_numeral hwi).mp ni).1, ((stoi_numeral hwo).mp no).1,
        ((stoi_numeral hwp).mp np).1, ((stoi_numeral hws).mp nst).1⟩
    rw [hrun hints] at h
    exact ⟨hints, (Option.some.inj h).symm⟩
  · rintro ⟨hints, rfl⟩
    exact hrun hints

end ExtFolding.Misc
