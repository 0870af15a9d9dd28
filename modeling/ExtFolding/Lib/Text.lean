import Mathlib.Tactic

/-!
# Text input

Files are lists of characters. They are read in two ways: word by word through a stream with a
failure flag (`>>`), where a failed extraction leaves the variable as it was, and line by line.
What the extractions do is stated on the words that are left in the stream.
-/

namespace ExtFolding.Text

/-- White space of the C locale. -/
def isSpace (c : Char) : Bool := c = ' ' || ('\t' ≤ c && c ≤ '\r')

/-- The nonempty pieces of a text between separators. -/
def tokens (sep : Char → Bool) (s : List Char) : List (List Char) :=
  (s.splitOnP sep).filter (· ≠ [])

/-- The words of a text. -/
def words (s : List Char) : List (List Char) := tokens isSpace s

/-- `getline` until the end. -/
def lines (s : List Char) : List (List Char) := s.splitOn '\n'

/-- A line that ends is read, whatever follows. -/
theorem lines_line {l : List Char} (hl : '\n' ∉ l) (s : List Char) :
    lines (l ++ '\n' :: s) = l :: lines s :=
  List.splitOn_append_cons_self_of_not_mem hl s

theorem lines_flatMap {ls : List (List Char)} (h : ∀ l ∈ ls, '\n' ∉ l) :
    lines (ls.flatMap (· ++ ['\n'])) = ls ++ [[]] := by
  induction ls with
  | nil => rfl
  | cons l ls ih =>
      rw [List.flatMap_cons, List.append_assoc, List.singleton_append,
        lines_line (h l List.mem_cons_self), ih fun l' hl' => h l' (List.mem_cons_of_mem l hl')]
      rfl

section Tokens

variable {sep : Char → Bool}

@[simp] theorem tokens_nil : tokens sep [] = [] := by
  simp [tokens, List.splitOnP_nil]

theorem tokens_append_cons (s : List Char) {c : Char} (u : List Char) (hc : sep c) :
    tokens sep (s ++ c :: u) = tokens sep s ++ tokens sep u := by
  unfold tokens
  rw [List.splitOnP_append_cons _ _ hc, List.filter_append]

theorem tokens_cons_sep {c : Char} (u : List Char) (hc : sep c) :
    tokens sep (c :: u) = tokens sep u := by
  rw [← List.nil_append (c :: u), tokens_append_cons [] u hc, tokens_nil, List.nil_append]

/-- A nonempty piece without separators is one token. -/
theorem tokens_piece {t : List Char} (ht : t ≠ []) (hsep : ∀ c ∈ t, sep c = false) :
    tokens sep t = [t] := by
  unfold tokens
  rw [List.splitOnP_eq_singleton hsep]
  simp [ht]

theorem tokens_piece_cons {t : List Char} (ht : t ≠ []) (hsep : ∀ c ∈ t, sep c = false) {c : Char}
    (u : List Char) (hc : sep c) : tokens sep (t ++ c :: u) = t :: tokens sep u := by
  rw [tokens_append_cons t u hc, tokens_piece ht hsep, List.singleton_append]

theorem tokens_dropWhile (s : List Char) : tokens sep (s.dropWhile sep) = tokens sep s := by
  induction s with
  | nil => rfl
  | cons c s ih =>
      rw [List.dropWhile_cons]
      split
      · next hc => rw [ih, tokens_cons_sep s hc]
      · rfl

/-- The first token and the rest, by hand. -/
theorem tokens_eq_takeWhile (s : List Char) (h : s.dropWhile sep ≠ []) :
    tokens sep s = (s.dropWhile sep).takeWhile (fun c => !sep c) ::
      tokens sep ((s.dropWhile sep).dropWhile (fun c => !sep c)) := by
  rw [← tokens_dropWhile s]
  obtain ⟨c, u, hu⟩ := List.exists_cons_of_ne_nil h
  have hc : sep c = false := by
    have := List.head_dropWhile_not sep h
    simpa [hu] using this
  set v := s.dropWhile sep
  have ht : ∀ x ∈ v.takeWhile (fun c => !sep c), sep x = false := fun x hx => by
    simpa using List.all_eq_true.mp List.all_takeWhile x hx
  have hne : v.takeWhile (fun c => !sep c) ≠ [] := by
    rw [hu, List.takeWhile_cons_of_pos (by simp [hc])]
    exact List.cons_ne_nil _ _
  conv_lhs => rw [← List.takeWhile_append_dropWhile (p := fun c => !sep c) (l := v)]
  rcases hd : v.dropWhile (fun c => !sep c) with _ | ⟨d, w⟩
  · rw [List.append_nil, tokens_piece hne ht, tokens_nil]
  · have hd' : sep d := by
      have := List.head_dropWhile_not (fun c => !sep c) (l := v)
        (by rw [hd]; exact List.cons_ne_nil _ _)
      simpa [hd] using this
    rw [tokens_piece_cons hne ht w hd', tokens_cons_sep w hd']

theorem tokens_eq_nil_iff (s : List Char) : tokens sep s = [] ↔ s.dropWhile sep = [] := by
  constructor
  · intro h
    by_contra hne
    rw [tokens_eq_takeWhile s hne] at h
    exact List.cons_ne_nil _ _ h
  · intro h
    rw [← tokens_dropWhile, h, tokens_nil]

/-- A token consists of characters of the text. -/
theorem mem_of_mem_tokens {t : List Char} : ∀ {s : List Char}, t ∈ tokens sep s → ∀ c ∈ t,
    c ∈ s := by
  intro s
  induction hn : s.length using Nat.strong_induction_on generalizing s with
  | _ n ih =>
      intro ht c hc
      have hd : s.dropWhile sep ≠ [] := fun h => by
        rw [(tokens_eq_nil_iff s).mpr h] at ht
        exact List.not_mem_nil ht
      have hsub : ∀ x ∈ s.dropWhile sep, x ∈ s := fun x hx => (List.dropWhile_sublist sep).mem hx
      rw [tokens_eq_takeWhile s hd] at ht
      rcases List.mem_cons.mp ht with rfl | ht
      · exact hsub c ((List.takeWhile_sublist _).mem hc)
      · refine hsub c ((List.dropWhile_sublist _).mem (ih _ ?_ rfl ht c hc))
        -- the first character of a token is no separator
        obtain ⟨x, u, hu⟩ := List.exists_cons_of_ne_nil hd
        have hx : sep x = false := by
          have := List.head_dropWhile_not sep hd
          simpa [hu] using this
        have hle := (List.dropWhile_sublist sep (l := s)).length_le
        have hle' := (List.dropWhile_sublist (fun c => !sep c) (l := u)).length_le
        rw [hu] at hle ⊢
        rw [List.dropWhile_cons_of_pos (by simp [hx])]
        simp only [List.length_cons] at hle
        omega

end Tokens

/-- The words of a text are those of its lines. -/
theorem words_eq_flatMap_lines (s : List Char) : words s = (lines s).flatMap words := by
  induction hn : s.length using Nat.strong_induction_on generalizing s with
  | _ n ih =>
      by_cases hs : '\n' ∈ s
      · obtain ⟨u, v, rfl, hu⟩ := List.eq_append_cons_of_mem hs
        rw [lines_line hu, List.flatMap_cons, ← ih v.length (by simp [← hn]; omega) v rfl]
        exact tokens_append_cons u v (by decide)
      · rw [lines, List.splitOn_eq_singleton hs, List.flatMap_singleton]

/-! ## Numerals -/

/-- `t` is a string of decimal digits with value `n`. -/
def Numeral (t : List Char) (n : ℕ) : Prop :=
  t ≠ [] ∧ (∀ c ∈ t, c.isDigit) ∧ Nat.ofDigitChars 10 t 0 = n

theorem numeral_toDigits (n : ℕ) : Numeral (Nat.toDigits 10 n) n :=
  ⟨Nat.toDigits_ne_nil, fun _ => Nat.isDigit_of_mem_toDigits (by decide) (by decide),
    Nat.ofDigitChars_ten_toDigits⟩

theorem numeral_digit (c : Char) (hc : c.isDigit) : Numeral [c] (c.toNat - 48) :=
  ⟨List.cons_ne_nil c [], by simpa using hc, by simp [Nat.ofDigitChars]⟩

theorem toDigits_inj {m n : ℕ} (h : Nat.toDigits 10 m = Nat.toDigits 10 n) : m = n := by
  rw [← Nat.ofDigitChars_ten_toDigits (n := m), h, Nat.ofDigitChars_ten_toDigits]

theorem not_isSpace_of_isDigit {c : Char} (h : c.isDigit) : isSpace c = false := by
  have hc : '0'.val ≤ c.val := by
    rw [Char.isDigit, Bool.and_eq_true, decide_eq_true_eq] at h
    exact h.1
  unfold isSpace
  rw [Bool.or_eq_false_iff]
  refine ⟨decide_eq_false ?_, Bool.and_eq_false_imp.mpr fun _ => decide_eq_false ?_⟩
  · rintro rfl
    exact absurd hc (by decide)
  · exact fun h' => absurd (UInt32.le_trans hc h') (by decide)

/-- The longest number at the start of a text, and what follows it. -/
def readNat (s : List Char) : Option ℤ × List Char :=
  let ds := s.takeWhile Char.isDigit
  (if ds = [] then none else some (Nat.ofDigitChars 10 ds 0 : ℕ), s.dropWhile Char.isDigit)

/-- A number with an optional sign. -/
def readInt : List Char → Option ℤ × List Char
  | '-' :: s => ((readNat s).1.map Neg.neg, (readNat s).2)
  | '+' :: s => readNat s
  | s => readNat s

theorem readInt_numeral {t : List Char} {n : ℕ} (ht : Numeral t n) {u : List Char}
    (hu : ∀ c ∈ u.head?, c.isDigit = false) : readInt (t ++ u) = (some (n : ℤ), u) := by
  obtain ⟨hne, hdig, hval⟩ := ht
  have htake : (t ++ u).takeWhile Char.isDigit = t := by
    rw [List.takeWhile_append_of_pos hdig]
    cases u with
    | nil => simp
    | cons c u => rw [List.takeWhile_cons_of_neg (by simp [hu c (by simp)]), List.append_nil]
  have hdrop : (t ++ u).dropWhile Char.isDigit = u := by
    rw [List.dropWhile_append_of_pos hdig]
    cases u with
    | nil => rfl
    | cons c u => rw [List.dropWhile_cons_of_neg (by simp [hu c (by simp)])]
  have hread : readNat (t ++ u) = (some (n : ℤ), u) := by
    simp only [readNat, htake, hdrop, if_neg hne, hval]
  obtain ⟨c, s, rfl⟩ := List.exists_cons_of_ne_nil hne
  have hc : c.isDigit := hdig c List.mem_cons_self
  unfold readInt
  -- a sign is no digit
  split
  · next h => exact absurd hc (by rw [(List.cons.inj h).1]; decide)
  · next h => exact absurd hc (by rw [(List.cons.inj h).1]; decide)
  · exact hread

theorem length_readInt (s : List Char) : (readInt s).2.length ≤ s.length := by
  have hnat : ∀ u : List Char, (readNat u).2.length ≤ u.length := fun u =>
    (List.dropWhile_sublist _).length_le
  unfold readInt
  split
  · exact (hnat _).trans (Nat.le_succ _)
  · exact (hnat _).trans (Nat.le_succ _)
  · exact hnat s

/-! ## Streams -/

structure IStream where
  rest : List Char
  fail : Bool

namespace IStream

/-- `fin >> x` for a string `x` that holds `old`. -/
def getStr (s : IStream) (old : List Char) : List Char × IStream :=
  if s.fail then (old, s)
  else
    let u := s.rest.dropWhile isSpace
    if u = [] then (old, ⟨[], true⟩)
    else (u.takeWhile fun c => !isSpace c, ⟨u.dropWhile fun c => !isSpace c, false⟩)

/-- `fin >> x` for an integer `x`: without digits it becomes 0 and the stream fails. -/
def getInt (s : IStream) (old : Option ℤ) : Option ℤ × IStream :=
  if s.fail then (old, s)
  else
    let u := s.rest.dropWhile isSpace
    if u = [] then (old, ⟨[], true⟩)
    else
      match readInt u with
      | (some n, v) => (some n, ⟨v, false⟩)
      | (none, v) => (some 0, ⟨v, true⟩)

/-- `fin >> x` for an `int`: a number out of range becomes the nearest one, and the stream fails. -/
def getInt32 (s : IStream) (old : Option ℤ) : Option ℤ × IStream :=
  match s.getInt old with
  | (some n, s') =>
      if s'.fail then (some n, s')
      else if n < -2 ^ 31 then (some (-2 ^ 31), ⟨s'.rest, true⟩)
      else if 2 ^ 31 ≤ n then (some (2 ^ 31 - 1), ⟨s'.rest, true⟩)
      else (some n, s')
  | (none, s') => (none, s')

/-- `getline(fin, buf)`: the last line ends with the file, and later calls leave `buf` alone. -/
def getline (s : IStream) (buf : List Char) : List Char × IStream :=
  if s.fail then (buf, s)
  else if '\n' ∈ s.rest then
    (s.rest.takeWhile (· ≠ '\n'), ⟨(s.rest.dropWhile (· ≠ '\n')).tail, false⟩)
  else (s.rest, ⟨[], true⟩)

/-- A stream that has failed gives nothing more. -/
theorem getStr_fail {s : IStream} (h : s.fail = true) (old : List Char) :
    s.getStr old = (old, s) := by simp [getStr, h]

theorem getInt32_fail {s : IStream} (h : s.fail = true) (old : Option ℤ) :
    s.getInt32 old = (old, s) := by
  have hint : s.getInt old = (old, s) := by simp [getInt, h]
  unfold getInt32
  rw [hint]
  cases old with
  | none => rfl
  | some n => simp [h]

/-- The stream after an extraction does not depend on the variable. -/
theorem getStr_snd (s : IStream) (old old' : List Char) :
    (s.getStr old).2 = (s.getStr old').2 := by
  unfold getStr
  split <;> [rfl; (dsimp only; split <;> rfl)]

/-- A word is extracted, or the variable stays as it was. -/
theorem getStr_fst (s : IStream) (old : List Char) :
    (s.getStr old).1 = if (s.getStr []).2.fail then old else (s.getStr []).1 := by
  unfold getStr
  by_cases hf : s.fail = true
  · simp [hf]
  · by_cases hu : s.rest.dropWhile isSpace = [] <;> simp [hf, hu]

/-- A word that is extracted is taken from the stream. -/
theorem length_getStr {s : IStream} {old : List Char} (h : (s.getStr old).2.fail = false) :
    (s.getStr old).2.rest.length < s.rest.length := by
  unfold getStr at h ⊢
  split at h
  · next hf => exact absurd h (by simp [hf])
  · next hf =>
      rw [if_neg hf]
      dsimp only at h ⊢
      split at h
      · exact absurd h (by simp)
      · next hne =>
          rw [if_neg hne]
          obtain ⟨c, u, hu⟩ := List.exists_cons_of_ne_nil hne
          have hc : isSpace c = false := by
            have := List.head_dropWhile_not isSpace hne
            simpa [hu] using this
          have hle := (List.dropWhile_sublist isSpace (l := s.rest)).length_le
          have hle' := (List.dropWhile_sublist (fun c => !isSpace c) (l := u)).length_le
          rw [hu] at hle ⊢
          rw [List.dropWhile_cons_of_pos (by simp [hc])]
          exact lt_of_le_of_lt hle' (Nat.lt_of_succ_le hle)

theorem getInt32_snd (s : IStream) (old old' : Option ℤ) :
    (s.getInt32 old).2 = (s.getInt32 old').2 := by
  by_cases hf : s.fail = true
  · rw [getInt32_fail hf, getInt32_fail hf]
  · by_cases hu : s.rest.dropWhile isSpace = []
    · have hint : ∀ old, s.getInt old = (old, ⟨[], true⟩) := fun old => by simp [getInt, hf, hu]
      have hend : ∀ old, (s.getInt32 old).2 = ⟨[], true⟩ := fun old => by
        unfold getInt32
        rw [hint]
        cases old <;> simp
      rw [hend, hend]
    · have hint : s.getInt old = s.getInt old' := by simp [getInt, hf, hu]
      rw [getInt32, hint, getInt32]

theorem length_getInt32 {s : IStream} {old : Option ℤ} (h : (s.getInt32 old).2.fail = false) :
    (s.getInt32 old).2.rest.length ≤ s.rest.length := by
  have hint : (s.getInt old).2.rest.length ≤ s.rest.length := by
    unfold getInt
    split
    · exact le_rfl
    · dsimp only
      split
      · exact Nat.zero_le _
      · have hle := length_readInt (s.rest.dropWhile isSpace)
        have hle' := (List.dropWhile_sublist isSpace (l := s.rest)).length_le
        split
        · next hr => exact (hr ▸ hle).trans hle'
        · next hr => exact (hr ▸ hle).trans hle'
  unfold getInt32 at h ⊢
  rcases hr : s.getInt old with ⟨_ | n, s'⟩
  · simpa [hr] using hint
  · rw [hr] at h hint
    dsimp only at h ⊢
    by_cases hf : s'.fail = true
    · rw [if_pos hf] at h ⊢
      exact hint
    · rw [if_neg hf] at h ⊢
      split at h
      · exact absurd h (by simp)
      · split at h
        · exact absurd h (by simp)
        · next h₁ h₂ =>
            rw [if_neg h₁, if_neg h₂]
            exact hint

/-- The lines that can still be read. -/
def linesLeft (s : IStream) : List (List Char) := if s.fail then [] else lines s.rest

theorem getline_cons {s : IStream} {l : List Char} {ls : List (List Char)}
    (h : s.linesLeft = l :: ls) (buf : List Char) :
    ∃ s', s.getline buf = (l, s') ∧ s'.linesLeft = ls := by
  unfold linesLeft at h
  cases hf : s.fail with
  | true => simp [hf] at h
  | false =>
      rw [hf, if_neg Bool.false_ne_true, lines] at h
      unfold getline
      rw [hf, if_neg Bool.false_ne_true]
      by_cases hn : '\n' ∈ s.rest
      · obtain ⟨u, v, hu, huv⟩ := List.eq_append_cons_of_mem hn
        have hsep : ∀ c ∈ u, decide (c ≠ '\n') = true := fun c hc =>
          decide_eq_true fun h => huv (h ▸ hc)
        rw [hu, List.splitOn_append_cons_self_of_not_mem huv] at h
        rw [if_pos hn, hu, List.takeWhile_append_of_pos hsep, List.dropWhile_append_of_pos hsep,
          List.takeWhile_cons_of_neg (by simp), List.dropWhile_cons_of_neg (by simp),
          List.append_nil]
        exact ⟨⟨v, false⟩, by rw [(List.cons.inj h).1]; rfl, (List.cons.inj h).2⟩
      · rw [List.splitOn_eq_singleton hn] at h
        rw [if_neg hn]
        exact ⟨⟨[], true⟩, by rw [(List.cons.inj h).1], (List.cons.inj h).2⟩

/-- The words that can still be extracted. -/
def left (s : IStream) : List (List Char) := if s.fail then [] else words s.rest

/-- What a stream with words left looks like. -/
theorem left_cons {s : IStream} {t : List Char} {ts : List (List Char)} (h : s.left = t :: ts) :
    s.fail = false ∧ s.rest.dropWhile isSpace ≠ [] ∧
      (s.rest.dropWhile isSpace).takeWhile (fun c => !isSpace c) = t ∧
      words ((s.rest.dropWhile isSpace).dropWhile fun c => !isSpace c) = ts := by
  unfold left at h
  cases hf : s.fail with
  | true => simp [hf] at h
  | false =>
      rw [hf, if_neg Bool.false_ne_true] at h
      have hne : s.rest.dropWhile isSpace ≠ [] := by
        intro hnil
        rw [show words s.rest = [] from (tokens_eq_nil_iff _).mpr hnil] at h
        exact List.cons_ne_nil _ _ h.symm
      rw [words, tokens_eq_takeWhile _ hne] at h
      exact ⟨rfl, hne, List.cons.inj h⟩

theorem getStr_cons {s : IStream} {t : List Char} {ts : List (List Char)} (h : s.left = t :: ts)
    (old : List Char) : ∃ s', s.getStr old = (t, s') ∧ s'.left = ts := by
  obtain ⟨hf, hne, ht, hts⟩ := left_cons h
  refine ⟨⟨(s.rest.dropWhile isSpace).dropWhile fun c => !isSpace c, false⟩, ?_, hts⟩
  simp [getStr, hf, hne, ht]

theorem getInt_cons {s : IStream} {t : List Char} {n : ℕ} {ts : List (List Char)}
    (h : s.left = t :: ts) (ht : Numeral t n) (old : Option ℤ) :
    ∃ s', s.getInt old = (some (n : ℤ), s') ∧ s'.left = ts := by
  obtain ⟨hf, hne, htake, hts⟩ := left_cons h
  refine ⟨⟨(s.rest.dropWhile isSpace).dropWhile fun c => !isSpace c, false⟩, ?_, hts⟩
  set u := s.rest.dropWhile isSpace
  -- the word ends at white space or at the end, so the number takes all of it
  have hread : readInt u = (some (n : ℤ), u.dropWhile fun c => !isSpace c) := by
    conv_lhs => rw [← List.takeWhile_append_dropWhile (p := fun c => !isSpace c) (l := u), htake]
    refine readInt_numeral ht fun c hc => ?_
    have hsp : (!isSpace c) = false := by
      have := List.head?_dropWhile_not (fun c => !isSpace c) u
      rwa [hc] at this
    by_contra hd
    rw [not_isSpace_of_isDigit (by simpa using hd)] at hsp
    exact Bool.noConfusion hsp
  simp [getInt, hf, u, hne, hread]

/-- A number that fits is extracted. -/
theorem getInt32_cons {s : IStream} {t : List Char} {n : ℕ} {ts : List (List Char)}
    (h : s.left = t :: ts) (ht : Numeral t n) (hn : n < 2 ^ 31) (old : Option ℤ) :
    ∃ s', s.getInt32 old = (some (n : ℤ), s') ∧ s'.left = ts := by
  obtain ⟨s', hget, hs'⟩ := getInt_cons h ht old
  refine ⟨s', ?_, hs'⟩
  unfold getInt32
  rw [hget]
  dsimp only
  split
  · rfl
  · rw [if_neg (by omega), if_neg (by omega)]

end IStream

end ExtFolding.Text
