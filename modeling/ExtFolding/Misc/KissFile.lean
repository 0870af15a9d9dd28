import ExtFolding.MeMin.KissWriter
import ExtFolding.Misc.StgHeader

/-!
# Written files and their readers

`STG::write` and `writeKISSFile` write the same kind of file (`KissFile`): comments, five header
lines, the rows and one more line that starts with a dot. The readers of the two encoders take
words and lines from it, `parseKISSFile` lines and positions.
-/

namespace ExtFolding.Misc

open ExtFolding.Text ExtFolding.Utils ExtFolding.MeMin

def headerLines (m : Kiss) (ns : ℕ) : List (List Char) :=
  [".i ".toList ++ dec m.nPi, ".o ".toList ++ dec m.nPo, ".p ".toList ++ dec m.rows.length,
    ".s ".toList ++ dec ns, ".r ".toList ++ m.reset]

/-- The columns of a row that is written. -/
structure FileRow (m : Kiss) (r : TransRow) : Prop where
  input : Column m.nPi r.input
  cst : Word r.cst
  star : r.cst ≠ ['*']
  nst : Word r.nst
  output : Column m.nPo r.output

structure KissFile (m : Kiss) (ns : ℕ) (text : List Char) : Prop where
  pi : 1 ≤ m.nPi
  po : 1 ≤ m.nPo
  reset : Word m.reset
  row : ∀ r ∈ m.rows, FileRow m r
  lines : ∃ cs trailer, Text.lines text =
    cs ++ headerLines m ns ++ m.rows.map TransRow.text ++ [trailer] ++ [[]] ∧
    (∀ c ∈ cs, Comment c) ∧ (trailer = ".e".toList ∨ trailer = ".s ".toList)

variable {m : Kiss} {ns : ℕ} {text : List Char}

/-! ## Words -/

theorem word_column {n : ℕ} (hn : 1 ≤ n) {w : List Char} (h : Column n w) : Word w :=
  ⟨List.ne_nil_of_length_pos (h.1.symm ▸ hn), fun c hc =>
    not_isSpace_of_isCubeChar (isCubeChar_iff.mpr (h.2 c hc))⟩

theorem clean_word {w : List Char} (h : Word w) : Clean w := by
  refine ⟨h.1, fun c hc => ?_⟩
  have hsp := h.2 c hc
  refine ⟨?_, ?_, ?_, ?_⟩ <;> (rintro rfl; exact absurd hsp (by decide))

theorem words_word {w : List Char} (h : Word w) : words w = [w] := tokens_piece h.1 h.2

theorem words_cons {w : List Char} (h : Word w) (u : List Char) :
    words (w ++ ' ' :: u) = w :: words u := tokens_piece_cons h.1 h.2 u (by decide)

section File

variable (hf : KissFile m ns text)
include hf

theorem KissFile.cleanRow {r : TransRow} (hr : r ∈ m.rows) : CleanRow r := by
  have h := hf.row r hr
  exact ⟨clean_word (word_column hf.pi h.input), clean_word h.cst, clean_word h.nst,
    clean_word (word_column hf.po h.output)⟩

theorem KissFile.words_row {r : TransRow} (hr : r ∈ m.rows) : words r.text = rowWords r := by
  have h := hf.row r hr
  have htext : r.text = r.input ++ ' ' :: (r.cst ++ ' ' :: (r.nst ++ ' ' :: r.output)) := by
    simp [TransRow.text]
  rw [htext, words_cons (word_column hf.pi h.input), words_cons h.cst, words_cons h.nst,
    words_word (word_column hf.po h.output), rowWords]

end File

/-- Words of comments come before a header. -/
theorem HeaderWords.comments {ks : Finset Key} {us ws : List (List Char)} (hne : ks.Nonempty)
    (hus : ∀ w ∈ us, ∀ k : Key, w ≠ k.text) (h : HeaderWords m ns ks ws) :
    HeaderWords m ns ks (us ++ ws) := by
  induction us with
  | nil => exact h
  | cons u us ih =>
      exact .comment hne (hus u List.mem_cons_self)
        (ih fun w hw => hus w (List.mem_cons_of_mem _ hw))

theorem Comment.words {c : List Char} (h : Comment c) : ∀ w ∈ words c, ∀ k : Key, w ≠ k.text := by
  rintro w hw k rfl
  refine h.2 (mem_of_mem_tokens hw '.' ?_)
  cases k <;> exact List.mem_cons_self

/-- The file as `natEnc` takes it. -/
theorem KissFile.natText (hf : KissFile m ns text) : NatText m ns text := by
  obtain ⟨cs, trailer, hlines, hcs, -⟩ := hf.lines
  have hkey : ∀ w ∈ [".i".toList, ".o".toList, ".p".toList, ".s".toList, ".r".toList], Word w := by
    simp [Word, isSpace]
  have hpair : ∀ w ∈ [".i".toList, ".o".toList, ".p".toList, ".s".toList, ".r".toList],
      ∀ v, Word v → words (w ++ ' ' :: v) = [w, v] := fun w hw v hv => by
    rw [words_cons (hkey w hw), words_word hv]
  refine ⟨cs.flatMap words ++ [Key.text .i, dec m.nPi, Key.text .o, dec m.nPo, Key.text .p,
    dec m.rows.length, Key.text .s, dec ns, Key.text .r, m.reset], words trailer, ?_, ?_⟩
  · refine HeaderWords.comments ⟨.i, mem_keys .i⟩ (fun w hw => ?_) ?_
    · obtain ⟨c, hc, hw⟩ := List.mem_flatMap.mp hw
      exact (hcs c hc).words w hw
    · exact .key .i (mem_keys .i) (numeral_toDigits _) (.key .o (by decide) (numeral_toDigits _)
        (.key .p (by decide) (numeral_toDigits _) (.key .s (by decide) (numeral_toDigits _)
          (.key .r (by decide) rfl .done))))
  · have hrows : (m.rows.map TransRow.text).flatMap words = m.rows.flatMap rowWords := by
      rw [List.flatMap_map]
      exact List.flatMap_congr fun r hr => hf.words_row hr
    have hhead : (headerLines m ns).flatMap words = [Key.text .i, dec m.nPi, Key.text .o,
        dec m.nPo, Key.text .p, dec m.rows.length, Key.text .s, dec ns, Key.text .r, m.reset] := by
      have h := hpair
      simp only [List.mem_cons, List.not_mem_nil, or_false, forall_eq_or_imp, forall_eq] at h
      obtain ⟨hi, ho, hp, hs, hr⟩ := h
      have hi' : words (".i ".toList ++ dec m.nPi) = [".i".toList, dec m.nPi] := hi _ (word_dec _)
      have ho' : words (".o ".toList ++ dec m.nPo) = [".o".toList, dec m.nPo] := ho _ (word_dec _)
      have hp' : words (".p ".toList ++ dec m.rows.length) = [".p".toList, dec m.rows.length] :=
        hp _ (word_dec _)
      have hs' : words (".s ".toList ++ dec ns) = [".s".toList, dec ns] := hs _ (word_dec _)
      have hr' : words (".r ".toList ++ m.reset) = [".r".toList, m.reset] := hr _ hf.reset
      simp only [headerLines, List.flatMap_cons, List.flatMap_nil, hi', ho', hp', hs', hr']
      rfl
    rw [words_eq_flatMap_lines, hlines]
    simp only [List.flatMap_append, hrows, hhead, List.flatMap_cons, List.flatMap_nil,
      List.append_nil, show words [] = [] from tokens_nil]

/-- The file as `oneHotEnc` takes it. -/
theorem KissFile.hotText (hf : KissFile m ns text) : HotText m ns text := by
  obtain ⟨cs, trailer, hlines, hcs, hend⟩ := hf.lines
  have hpair : ∀ w ∈ [".i".toList, ".o".toList, ".p".toList, ".s".toList, ".r".toList],
      ∀ v, Word v → lineTokens (w ++ ' ' :: v) = [w, v] := by
    intro w hw v hv
    have hclean : ∀ w ∈ [".i".toList, ".o".toList, ".p".toList, ".s".toList, ".r".toList],
        Clean w := by simp [Clean]
    rw [lineTokens_cons (hclean w hw), lineTokens_word (clean_word hv)]
  refine ⟨cs, m.rows.map TransRow.text, [[]], ".i ".toList ++ dec m.nPi, ".o ".toList ++ dec m.nPo,
    ".p ".toList ++ dec m.rows.length, ".s ".toList ++ dec ns, ".r ".toList ++ m.reset,
    trailer, ?_, fun c hc => (hcs c hc).1,
    ⟨dec m.nPi, hpair ".i".toList (by simp) _ (word_dec _), numeral_toDigits _⟩,
    ⟨dec m.nPo, hpair ".o".toList (by simp) _ (word_dec _), numeral_toDigits _⟩,
    ⟨dec m.rows.length, hpair ".p".toList (by simp) _ (word_dec _), numeral_toDigits _⟩,
    ⟨dec ns, hpair ".s".toList (by simp) _ (word_dec _), numeral_toDigits _⟩,
    ⟨m.reset, hpair ".r".toList (by simp) _ hf.reset, rfl⟩, ?_, ?_⟩
  · rw [hlines]
    simp [headerLines]
  · rw [List.forall₂_map_left_iff]
    exact List.forall₂_same.mpr fun r hr => lineTokens_row (hf.cleanRow hr)
  · rcases hend with rfl | rfl <;> rfl

end ExtFolding.Misc
