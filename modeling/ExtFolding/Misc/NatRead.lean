import ExtFolding.Lib.Text
import ExtFolding.Misc.Encoding

/-!
# `misc/natEnc.cpp`: reading the machine

Five keywords in any order, each with its value, then the rows, all word by word. Words that are
no keyword are skipped while the header is read. The counts are `int`s: a larger one fails the
stream, and nothing is read after it.
-/

namespace ExtFolding.Misc

open ExtFolding.Text ExtFolding.Utils

/-! ## The header loop -/

/-- The variables that the header fills. -/
structure NatHeader where
  dump : List Char
  input_num : Option ℤ
  output_num : Option ℤ
  state_num : Option ℤ
  term_num : Option ℤ
  reset : List Char

/-- One word of the header; tells whether it is a keyword. -/
def headerStep (s : IStream) (h : NatHeader) : Bool × IStream × NatHeader :=
  let (dump, s) := s.getStr h.dump
  let h := { h with dump := dump }
  if dump = ['.', 'i'] then
    let (n, s) := s.getInt32 h.input_num
    (true, s, { h with input_num := n })
  else if dump = ['.', 'o'] then
    let (n, s) := s.getInt32 h.output_num
    (true, s, { h with output_num := n })
  else if dump = ['.', 's'] then
    let (n, s) := s.getInt32 h.state_num
    (true, s, { h with state_num := n })
  else if dump = ['.', 'p'] then
    let (n, s) := s.getInt32 h.term_num
    (true, s, { h with term_num := n })
  else if dump = ['.', 'r'] then
    let (q, s) := s.getStr h.reset
    (true, s, { h with reset := q })
  else (false, s, h)

/-- The loop over `i`, which goes back by one for a word that is no keyword. -/
def headerLoop : ℕ → ℕ → IStream → NatHeader → Option (IStream × NatHeader)
  | 0, _, _, _ => none
  | fuel + 1, i, s, h =>
      if i < 5 then
        let (key, s, h) := headerStep s h
        headerLoop fuel (if key then i + 1 else i) s h
      else some (s, h)

/-! ## The row loop -/

/-- The variables of the row loop. -/
structure RowVars where
  fin : IStream
  input : List Char
  state : List Char
  output : List Char
  state_list : List (List Char)
  table : List TransRow

/-- Appends a state that is not in the list. -/
def pushState (state_list : List (List Char)) (state : List Char) : List (List Char) :=
  if state ∈ state_list then state_list else state_list ++ [state]

/-- The loop over `j` with `int sls=state_list.size()`, which does not run when `sls` is
negative. -/
def natPush (state_list : List (List Char)) (state : List Char) : List (List Char) :=
  if state_list.length < 2 ^ 31 then pushState state_list state else state_list

/-- One row. -/
def readRow (dcVal : Bool) (v : RowVars) : RowVars :=
  let (input, fin) := v.fin.getStr v.input
  let (cst, fin) := fin.getStr v.state
  let (nst, fin) := fin.getStr cst
  let (output, fin) := fin.getStr v.output
  let output := output.map (readDc dcVal)
  { fin, input, state := nst, output,
    state_list := natPush (natPush v.state_list cst) nst,
    table := v.table ++ [⟨input, cst, nst, output⟩] }

/-- What `natEnc` knows after reading. -/
structure NatInput where
  input_num : ℕ
  output_num : ℕ
  term_num : ℕ
  reset : List Char
  state_list : List (List Char)
  table : List TransRow

/-- The reading part of `natEnc`; negative counts do not get further. -/
def natRead (fuel : ℕ) (text : List Char) (dcVal : Bool) : Option NatInput := do
  let (fin, h) ← headerLoop fuel 0 ⟨text, false⟩ ⟨[], none, none, none, none, []⟩
  let input_num ← h.input_num.bind Int.toNat?
  let output_num ← h.output_num.bind Int.toNat?
  let term_num ← h.term_num.bind Int.toNat?
  let v := (readRow dcVal)^[term_num] ⟨fin, [], [], [], [], []⟩
  return ⟨input_num, output_num, term_num, h.reset, v.state_list, v.table⟩

/-! ## The accepted files -/

/-- The five keywords. -/
inductive Key
  | i | o | s | p | r
deriving DecidableEq

def Key.text : Key → List Char
  | .i => ['.', 'i']
  | .o => ['.', 'o']
  | .s => ['.', 's']
  | .p => ['.', 'p']
  | .r => ['.', 'r']

def keys : Finset Key := {.i, .o, .s, .p, .r}

theorem mem_keys (k : Key) : k ∈ keys := by
  cases k <;> decide

/-- `w` is the value of keyword `k` in a file of `m` that announces `ns` states. -/
def Key.Value (m : Kiss) (ns : ℕ) (w : List Char) : Key → Prop
  | .i => Numeral w m.nPi
  | .o => Numeral w m.nPo
  | .s => Numeral w ns
  | .p => Numeral w m.rows.length
  | .r => w = m.reset

/-- The words of a header in which the keywords `ks` are still to come. -/
inductive HeaderWords (m : Kiss) (ns : ℕ) : Finset Key → List (List Char) → Prop
  | done : HeaderWords m ns ∅ []
  | comment {ks w ws} (hne : ks.Nonempty) (hw : ∀ k : Key, w ≠ k.text)
      (h : HeaderWords m ns ks ws) : HeaderWords m ns ks (w :: ws)
  | key {ks w ws} (k : Key) (hk : k ∈ ks) (hw : k.Value m ns w)
      (h : HeaderWords m ns (ks.erase k) ws) : HeaderWords m ns ks (k.text :: w :: ws)

/-- The words of a row. -/
def rowWords (r : TransRow) : List (List Char) := [r.input, r.cst, r.nst, r.output]

/-- A file of `m` for `natEnc`: a header, the rows, and anything after them. -/
def NatText (m : Kiss) (ns : ℕ) (text : List Char) : Prop :=
  ∃ ws rest, HeaderWords m ns keys ws ∧ words text = ws ++ m.rows.flatMap rowWords ++ rest

/-- The counts of a header are `int`s. -/
structure HeaderInts (m : Kiss) (ns : ℕ) : Prop where
  nPi : m.nPi < 2 ^ 31
  nPo : m.nPo < 2 ^ 31
  rows : m.rows.length < 2 ^ 31
  states : ns < 2 ^ 31

/-! ## What is read -/

/-- The variable of keyword `k` has its value. -/
def Key.Known (m : Kiss) (h : NatHeader) : Key → Prop
  | .i => h.input_num = some (m.nPi : ℤ)
  | .o => h.output_num = some (m.nPo : ℤ)
  | .s => True
  | .p => h.term_num = some (m.rows.length : ℤ)
  | .r => h.reset = m.reset

/-- A word that is no keyword is only kept in `dump`. -/
theorem headerStep_word {s : IStream} {h : NatHeader}
    (hw : ∀ k : Key, (s.getStr h.dump).1 ≠ k.text) :
    headerStep s h = (false, (s.getStr h.dump).2, { h with dump := (s.getStr h.dump).1 }) := by
  simp only [headerStep]
  rw [if_neg (show _ ≠ ['.', 'i'] from hw .i), if_neg (show _ ≠ ['.', 'o'] from hw .o),
    if_neg (show _ ≠ ['.', 's'] from hw .s), if_neg (show _ ≠ ['.', 'p'] from hw .p),
    if_neg (show _ ≠ ['.', 'r'] from hw .r)]

theorem headerStep_comment {s : IStream} {w : List Char} {ws : List (List Char)}
    (hs : s.left = w :: ws) (hw : ∀ k : Key, w ≠ k.text) (h : NatHeader) :
    ∃ s', headerStep s h = (false, s', { h with dump := w }) ∧ s'.left = ws := by
  obtain ⟨s', hget, hs'⟩ := IStream.getStr_cons hs h.dump
  have hstep : headerStep s h = _ := headerStep_word (by rwa [hget])
  rw [hget] at hstep
  exact ⟨s', hstep, hs'⟩

/-- A keyword sets its own variable and no other. -/
theorem headerStep_key {m : Kiss} {ns : ℕ} (hints : HeaderInts m ns) {s : IStream} (k : Key)
    {w : List Char} {ws : List (List Char)} (hs : s.left = k.text :: w :: ws)
    (hw : k.Value m ns w) (h : NatHeader) :
    ∃ s' h', headerStep s h = (true, s', h') ∧ s'.left = ws ∧ k.Known m h' ∧
      ∀ k', k' ≠ k → k'.Known m h → k'.Known m h' := by
  obtain ⟨s₁, hget, hs₁⟩ := IStream.getStr_cons hs h.dump
  cases k with
  | i =>
      obtain ⟨s₂, hget', hs₂⟩ := IStream.getInt32_cons hs₁ hw hints.nPi h.input_num
      refine ⟨s₂, { h with dump := Key.text .i, input_num := some (m.nPi : ℤ) }, ?_, hs₂, rfl, ?_⟩
      · simp [headerStep, hget, Key.text, hget']
      · intro k' hne hk'
        cases k' <;> first | exact absurd rfl hne | exact hk'
  | o =>
      obtain ⟨s₂, hget', hs₂⟩ := IStream.getInt32_cons hs₁ hw hints.nPo h.output_num
      refine ⟨s₂, { h with dump := Key.text .o, output_num := some (m.nPo : ℤ) }, ?_, hs₂, rfl, ?_⟩
      · simp [headerStep, hget, Key.text, hget']
      · intro k' hne hk'
        cases k' <;> first | exact absurd rfl hne | exact hk'
  | s =>
      obtain ⟨s₂, hget', hs₂⟩ := IStream.getInt32_cons hs₁ hw hints.states h.state_num
      refine ⟨s₂, { h with dump := Key.text .s, state_num := some (ns : ℤ) }, ?_, hs₂, trivial, ?_⟩
      · simp [headerStep, hget, Key.text, hget']
      · intro k' hne hk'
        cases k' <;> first | exact absurd rfl hne | exact hk'
  | p =>
      obtain ⟨s₂, hget', hs₂⟩ := IStream.getInt32_cons hs₁ hw hints.rows h.term_num
      refine ⟨s₂, { h with dump := Key.text .p, term_num := some (m.rows.length : ℤ) }, ?_, hs₂,
        rfl, ?_⟩
      · simp [headerStep, hget, Key.text, hget']
      · intro k' hne hk'
        cases k' <;> first | exact absurd rfl hne | exact hk'
  | r =>
      obtain ⟨s₂, hget', hs₂⟩ := IStream.getStr_cons hs₁ h.reset
      refine ⟨s₂, { h with dump := Key.text .r, reset := w }, ?_, hs₂, hw, ?_⟩
      · simp [headerStep, hget, Key.text, hget']
      · intro k' hne hk'
        cases k' <;> first | exact absurd rfl hne | exact hk'

/-- Every word of the header takes at most one round. -/
theorem headerLoop_spec {m : Kiss} {ns : ℕ} (hints : HeaderInts m ns) {ks : Finset Key}
    {ws : List (List Char)} (hw : HeaderWords m ns ks ws) (rest : List (List Char)) :
    ∀ (fuel i : ℕ) (s : IStream) (h : NatHeader), ws.length < fuel → i + ks.card = 5 →
      s.left = ws ++ rest → (∀ k ∉ ks, k.Known m h) →
      ∃ s' h', headerLoop fuel i s h = some (s', h') ∧ s'.left = rest ∧ ∀ k : Key,
        k.Known m h' := by
  induction hw with
  | done =>
      intro fuel i s h hfuel hi hs hk
      obtain ⟨fuel, rfl⟩ := Nat.exists_eq_add_one_of_ne_zero (Nat.ne_of_gt hfuel)
      refine ⟨s, h, ?_, hs, fun k => hk k (Finset.notMem_empty k)⟩
      rw [headerLoop, if_neg (by simpa using hi.ge)]
  | @comment ks w ws hne hw _ ih =>
      intro fuel i s h hfuel hi hs hk
      obtain ⟨fuel, rfl⟩ := Nat.exists_eq_add_one_of_ne_zero (Nat.ne_zero_of_lt hfuel)
      obtain ⟨s₁, hstep, hs₁⟩ := headerStep_comment hs hw h
      have hpos := Finset.card_pos.mpr hne
      obtain ⟨s', h', hloop, hs', hk'⟩ := ih fuel i s₁ { h with dump := w }
        (Nat.lt_of_succ_lt_succ hfuel) hi hs₁ (fun k hks => by
          have := hk k hks
          cases k <;> exact this)
      refine ⟨s', h', ?_, hs', hk'⟩
      rw [headerLoop, if_pos (by omega), hstep]
      exact hloop
  | @key ks w ws k hmem hval _ ih =>
      intro fuel i s h hfuel hi hs hk
      obtain ⟨fuel, rfl⟩ := Nat.exists_eq_add_one_of_ne_zero (Nat.ne_zero_of_lt hfuel)
      obtain ⟨s₁, h₁, hstep, hs₁, hknown, hkeep⟩ := headerStep_key hints k hs hval h
      have hcard := Finset.card_erase_add_one hmem
      obtain ⟨s', h', hloop, hs', hk'⟩ := ih fuel (i + 1) s₁ h₁
        (by simp only [List.length_cons] at hfuel; omega) (by omega) hs₁ (fun k' hks => by
          by_cases hkk : k' = k
          · exact hkk ▸ hknown
          · exact hkeep k' hkk (hk k' fun h => hks (Finset.mem_erase.mpr ⟨hkk, h⟩)))
      refine ⟨s', h', ?_, hs', hk'⟩
      rw [headerLoop, if_pos (by omega), hstep]
      exact hloop

/-- States in the order in which the rows name them. -/
def stateList (rows : List TransRow) : List (List Char) :=
  rows.foldl (fun l r => pushState (pushState l r.cst) r.nst) []

theorem prefix_pushState (l : List (List Char)) (s : List Char) : l <+: pushState l s := by
  unfold pushState
  split
  · exact List.prefix_rfl
  · exact List.prefix_append _ _

theorem prefix_foldl_pushState (rows : List TransRow) (l : List (List Char)) :
    l <+: rows.foldl (fun l r => pushState (pushState l r.cst) r.nst) l := by
  induction rows generalizing l with
  | nil => exact List.prefix_rfl
  | cons r rows ih =>
      exact ((prefix_pushState l _).trans (prefix_pushState _ _)).trans (ih _)

theorem natPush_eq {l : List (List Char)} (h : l.length < 2 ^ 31) (s : List Char) :
    natPush l s = pushState l s := if_pos h

/-- A row as it stands in the table. -/
def tableRow (dcVal : Bool) (r : TransRow) : TransRow :=
  { r with output := r.output.map (readDc dcVal) }

theorem readRow_spec (dcVal : Bool) {v : RowVars} {r : TransRow} {ws : List (List Char)}
    (hs : v.fin.left = rowWords r ++ ws) :
    (readRow dcVal v).fin.left = ws ∧
      (readRow dcVal v).state_list = natPush (natPush v.state_list r.cst) r.nst ∧
      (readRow dcVal v).table = v.table ++ [tableRow dcVal r] := by
  obtain ⟨s₁, h₁, hs₁⟩ := IStream.getStr_cons hs v.input
  obtain ⟨s₂, h₂, hs₂⟩ := IStream.getStr_cons hs₁ v.state
  obtain ⟨s₃, h₃, hs₃⟩ := IStream.getStr_cons hs₂ r.cst
  obtain ⟨s₄, h₄, hs₄⟩ := IStream.getStr_cons hs₃ v.output
  simp only [readRow, h₁, h₂, h₃, h₄]
  exact ⟨hs₄, trivial, rfl⟩

theorem readRows_spec (dcVal : Bool) {rest : List (List Char)} (rows : List TransRow) :
    ∀ v : RowVars, v.fin.left = rows.flatMap rowWords ++ rest →
      ((readRow dcVal)^[rows.length] v).state_list =
          rows.foldl (fun l r => natPush (natPush l r.cst) r.nst) v.state_list ∧
        ((readRow dcVal)^[rows.length] v).table = v.table ++ rows.map (tableRow dcVal) := by
  induction rows with
  | nil => exact fun v _ => ⟨rfl, (List.append_nil _).symm⟩
  | cons r rows ih =>
      intro v hs
      rw [List.flatMap_cons, List.append_assoc] at hs
      obtain ⟨hfin, hlist, htable⟩ := readRow_spec dcVal hs
      obtain ⟨ih₁, ih₂⟩ := ih (readRow dcVal v) hfin
      rw [List.length_cons, Function.iterate_succ_apply, ih₁, ih₂, hlist, htable]
      exact ⟨rfl, by simp⟩

/-- As long as the states can be counted in an `int`, they are all entered. -/
theorem foldl_natPush {rows : List TransRow} {l : List (List Char)}
    (h : (rows.foldl (fun l r => pushState (pushState l r.cst) r.nst) l).length < 2 ^ 31) :
    rows.foldl (fun l r => natPush (natPush l r.cst) r.nst) l =
      rows.foldl (fun l r => pushState (pushState l r.cst) r.nst) l := by
  induction rows generalizing l with
  | nil => rfl
  | cons r rows ih =>
      have hrow := prefix_foldl_pushState rows (pushState (pushState l r.cst) r.nst)
      have hcst := (prefix_pushState (pushState l r.cst) r.nst).trans hrow
      have hl := (prefix_pushState l r.cst).trans hcst
      rw [List.foldl_cons] at h ⊢
      rw [natPush_eq (hl.length_le.trans_lt h), natPush_eq (hcst.length_le.trans_lt h)]
      exact ih h

/-- The machine that `natEnc` reads is the one of the file. -/
theorem natRead_spec {m : Kiss} {ns : ℕ} (hints : HeaderInts m ns) {text : List Char}
    (ht : NatText m ns text) (dcVal : Bool) {fuel : ℕ} (hfuel : (words text).length < fuel) :
    ∃ state_list, natRead fuel text dcVal = some ⟨m.nPi, m.nPo, m.rows.length, m.reset, state_list,
      m.rows.map (tableRow dcVal)⟩ ∧
      ((stateList m.rows).length < 2 ^ 31 → state_list = stateList m.rows) := by
  obtain ⟨ws, rest, hw, htext⟩ := ht
  rw [List.append_assoc] at htext
  have hlen : ws.length < fuel := by
    refine lt_of_le_of_lt ?_ hfuel
    rw [htext, List.length_append]
    exact Nat.le_add_right _ _
  obtain ⟨s, h, hloop, hs, hk⟩ := headerLoop_spec hints hw _ fuel 0 ⟨text, false⟩
    ⟨[], none, none, none, none, []⟩ hlen rfl htext fun k hk => absurd (mem_keys k) hk
  obtain ⟨hlist, htable⟩ := readRows_spec dcVal m.rows ⟨s, [], [], [], [], []⟩ hs
  have hi : h.input_num = some (m.nPi : ℤ) := hk .i
  have ho : h.output_num = some (m.nPo : ℤ) := hk .o
  have hp : h.term_num = some (m.rows.length : ℤ) := hk .p
  have hr : h.reset = m.reset := hk .r
  refine ⟨_, ?_, fun hstates => foldl_natPush hstates⟩
  unfold natRead
  rw [hloop]
  simp [hi, ho, hp, hr, hlist, htable, Int.toNat?]

end ExtFolding.Misc
