import ExtFolding.Misc.OneHotEnc
import ExtFolding.TimeFold.Accepted
import ExtFolding.TimeMux.BddMux
import ExtFolding.TimeMux2.BddMux2
import ExtFolding.Utils.StgWrite

/-!
# The header of a written graph

The counts in the header are accumulated apart from the rows. In a graph with one layer of
classes for every frame they agree with the rows: every class has a row and is entered by one,
so its name is counted once, and `*` is the one name more. `oneHotEnc` relies on it.
-/

namespace ExtFolding.Misc

open ExtFolding.Aig ExtFolding.Text ExtFolding.Utils ExtFolding.TimeFold

/-- The state names in the rows. -/
def stNames (G : STG) : Finset (List Char) := (G.transs.flatMap fun r => [r.cst, r.nst]).toFinset

/-- The states that rows reach from `S0_0`. -/
inductive Reachable (G : STG) : List Char → Prop
  | reset : Reachable G (stName 0 0)
  | row {r : TransRow} : r ∈ G.transs → Reachable G r.cst → Reachable G r.nst

/-- The graph names what it counts, and a state that is entered can be left. -/
structure HeaderOk (G : STG) : Prop where
  reset : stName 0 0 ∈ stNames G
  states : G.nSts = (stNames G).card
  reachable : ∀ s ∈ stNames G, Reachable G s
  target : ∀ r ∈ G.transs, r.nst = ['*'] ∨ ∃ r' ∈ G.transs, r'.cst = r.nst

/-- The machine of the rows. -/
def kissOf (G : STG) : Kiss := ⟨G.nPi, G.nPo, stName 0 0, G.transs⟩

theorem mem_stNames {G : STG} {s : List Char} :
    s ∈ stNames G ↔ ∃ r ∈ G.transs, s = r.cst ∨ s = r.nst := by
  simp [stNames]

theorem stName_ne_star (t c : ℕ) : stName t c ≠ ['*'] := by
  intro h
  exact absurd (List.cons.inj h).1 (by decide)

/-! ## The names of the layers -/

section Layers

variable {dd : Cudd} {order : List ℕ} {pNodeVec : List (Option dd.Node)} {nPo : ℕ} {G : STG}
  {tab : ℕ → Table dd} {rows : ℕ → List TransRow} {fs : List ℕ}
  (h : Layers dd order pNodeVec nPo G tab rows fs) (hord : order.Perm (List.range order.length))
include h

/-- A row leads from a class of a frame to a class of the next. -/
theorem row_names {r : TransRow} (hr : r ∈ G.transs) : ∃ t < G.nTimeFrame,
    ∃ c < (tab t).length, ∃ n < (tab (t + 1)).length,
      r.cst = stName t c ∧ r.nst = layerName G.nTimeFrame (t + 1) n := by
  obtain ⟨t, ht, hr⟩ := h.mem_transs.mp hr
  obtain ⟨c, hc, n, hn, hcst, hnst⟩ := (h.frame t ht).names r hr
  exact ⟨t, ht, c, hc, n, hn, hcst, by rw [hnst, nstName_eq ht]⟩

include hord

/-- A class is entered from a class of the frame before. -/
theorem entering_row {t n : ℕ} (ht : t < G.nTimeFrame) (hn : n < (tab (t + 1)).length) :
    ∃ c < (tab t).length, ∃ r ∈ G.transs,
      r.cst = stName t c ∧ r.nst = layerName G.nTimeFrame (t + 1) n := by
  obtain ⟨e', x, he', hx'⟩ := h.exists_mem ht hn
  obtain ⟨c, e, he, hx⟩ := (h.table t ht.le).cover x
  obtain ⟨v, hv⟩ := exists_slice hord (t * G.nPi) ((t + 1) * G.nPi) x
  obtain ⟨n', e'', r, hn', hx'', hr, hnst, -⟩ := (h.frame t ht).step hv c e he hx
  have hmem := List.mem_filter.mp (hr ▸ List.mem_singleton_self r)
  refine ⟨c, (List.getElem?_eq_some_iff.mp he).1, r, h.mem_transs.mpr ⟨t, ht, hmem.1⟩,
    (of_decide_eq_true hmem.2).1, ?_⟩
  rw [hnst, nstName_eq ht, (h.table (t + 1) ht).unique hn' he' hx'' hx']

/-- Every class is reached, frame by frame. -/
theorem reachable_layer {t : ℕ} (ht : t ≤ G.nTimeFrame) : ∀ c < (tab t).length,
    Reachable G (layerName G.nTimeFrame t c) := by
  induction t with
  | zero =>
      intro c hc
      rw [h.first] at hc
      obtain rfl : c = 0 := by simpa [bddCreateDummyState] using hc
      rw [layerName_of_lt h.pos]
      exact .reset
  | succ t ih =>
      intro n hn
      obtain ⟨c, hc, r, hr, hcst, hnst⟩ := entering_row h hord ht hn
      have hreach := ih (Nat.le_of_succ_le ht) c hc
      rw [layerName_of_lt ht, ← hcst] at hreach
      rw [← hnst]
      exact .row hr hreach

/-- The names are `*` and those of the classes. -/
theorem mem_stNames_iff {s : List Char} : s ∈ stNames G ↔
    s = ['*'] ∨ ∃ t < G.nTimeFrame, ∃ c < (tab t).length, stName t c = s := by
  rw [mem_stNames]
  constructor
  · rintro ⟨r, hr, hs⟩
    obtain ⟨t, ht, c, hc, n, hn, hcst, hnst⟩ := row_names h hr
    rcases hs with rfl | rfl
    · exact Or.inr ⟨t, ht, c, hc, hcst.symm⟩
    · rcases Nat.eq_or_lt_of_le (Nat.succ_le_of_lt ht) with hT | hT
      · exact Or.inl (hnst.trans (if_pos hT))
      · exact Or.inr ⟨t + 1, hT, n, hn, (hnst.trans (layerName_of_lt hT n)).symm⟩
  · rintro (rfl | ⟨t, ht, c, hc, rfl⟩)
    · obtain ⟨T, hT⟩ := Nat.exists_eq_add_one_of_ne_zero (Nat.ne_of_gt h.pos)
      obtain ⟨c, -, r, hr, -, hnst⟩ := entering_row h hord (t := T) (n := 0) (by omega) (by
        rw [← hT, h.last]
        exact Nat.one_pos)
      exact ⟨r, hr, Or.inr (by rw [hnst, ← hT, layerName, if_pos rfl])⟩
    · obtain ⟨r, hr, hcst⟩ := (h.exists_row_iff hord ht).mpr hc
      exact ⟨r, hr, Or.inl hcst.symm⟩

theorem card_stNames :
    (stNames G).card = 1 + ∑ t ∈ Finset.range G.nTimeFrame, (tab t).length := by
  have heq : stNames G = insert ['*'] ((Finset.range G.nTimeFrame).biUnion fun t =>
      (Finset.range (tab t).length).image (stName t)) := by
    ext s
    simp only [mem_stNames_iff h hord, Finset.mem_insert, Finset.mem_biUnion, Finset.mem_image,
      Finset.mem_range]
  have hstar : ['*'] ∉ (Finset.range G.nTimeFrame).biUnion fun t =>
      (Finset.range (tab t).length).image (stName t) := by
    rw [Finset.mem_biUnion]
    rintro ⟨t, -, hs⟩
    obtain ⟨c, -, hc⟩ := Finset.mem_image.mp hs
    exact stName_ne_star t c hc
  rw [heq, Finset.card_insert_of_notMem hstar, Nat.add_comm, Finset.card_biUnion]
  · congr 1
    refine Finset.sum_congr rfl fun t _ => ?_
    rw [Finset.card_image_of_injective _ fun c c' hc => (stName_inj hc).2, Finset.card_range]
  · -- the frame is part of the name
    intro t _ t' _ hne
    rw [Function.onFun, Finset.disjoint_left]
    rintro s hs hs'
    obtain ⟨c, -, rfl⟩ := Finset.mem_image.mp hs
    obtain ⟨c', -, hc'⟩ := Finset.mem_image.mp hs'
    exact hne (stName_inj hc').1.symm

theorem headerOk_of_layers (hsum : G.nSts = 1 + ∑ t ∈ Finset.range G.nTimeFrame, (tab t).length) :
    HeaderOk G := by
  have hT : Reachable G ['*'] := by
    have := reachable_layer h hord le_rfl 0 (by rw [h.last]; exact Nat.one_pos)
    rwa [layerName, if_pos rfl] at this
  have hreset : stName 0 0 ∈ stNames G := (mem_stNames_iff h hord).mpr
    (Or.inr ⟨0, h.pos, 0, by rw [h.first]; exact Nat.one_pos, rfl⟩)
  refine ⟨hreset, hsum.trans (card_stNames h hord).symm, fun s hs => ?_, fun r hr => ?_⟩
  · rcases (mem_stNames_iff h hord).mp hs with rfl | ⟨t, ht, c, hc, rfl⟩
    · exact hT
    · have := reachable_layer h hord ht.le c hc
      rwa [layerName_of_lt ht] at this
  · have hs : r.nst ∈ stNames G := mem_stNames.mpr ⟨r, hr, Or.inr rfl⟩
    rcases (mem_stNames_iff h hord).mp hs with hstar | ⟨t, ht, c, hc, hnst⟩
    · exact Or.inl hstar
    · rw [← hnst]
      exact Or.inr ((h.exists_row_iff hord ht).mpr hc)

omit hord in
/-- The rows form a machine: no two rows of a state match the same inputs. -/
theorem kissOk_of_layers (hPi : 1 ≤ G.nPi) (hPo : 1 ≤ nPo) (hslots : G.nPo = nPo) :
    (kissOf G).Ok := by
  have hcol : ∀ r ∈ G.transs, Column G.nPi r.input ∧ Column G.nPo r.output := by
    intro r hr
    obtain ⟨t, ht, hr⟩ := h.mem_transs.mp hr
    exact hslots ▸ (h.frame t ht).columns r hr
  refine ⟨hPi, hPo.trans_eq hslots.symm, fun r hr => (hcol r hr).1, fun r hr => (hcol r hr).2, ?_⟩
  rw [List.pairwise_iff_forall_sublist]
  rintro r r' hsub hcst v ⟨hr, hr'⟩
  have hmem : r ∈ G.transs := hsub.subset List.mem_cons_self
  obtain ⟨t, ht, c, hc, -, -, hname, -⟩ := row_names h hmem
  obtain ⟨q, hq⟩ := h.exists_matching ht hc v
  -- both rows are among those that match
  have hone : (G.matching (stName t c) v).length ≤ 1 := by
    rw [hq]
    exact le_rfl
  have hsub' : [r, r'].Sublist G.transs := hsub
  refine not_both_of_filter hsub' hone ⟨?_, ?_⟩
  · simp [hname, hr]
  · simp [← hcst, hname, hr']

end Layers

/-! ## The file -/

/-- A word without separators. -/
def Clean (w : List Char) : Prop := w ≠ [] ∧ ∀ c ∈ w, c ≠ ' ' ∧ c ≠ '\t' ∧ c ≠ '\n' ∧ c ≠ '\r'

theorem clean_column {n : ℕ} (hn : 1 ≤ n) {w : List Char} (h : Column n w) : Clean w := by
  refine ⟨List.ne_nil_of_length_pos (h.1.symm ▸ hn), fun c hc => ?_⟩
  rcases h.2 c hc with rfl | rfl | rfl <;> decide

theorem clean_digit {c : Char} (h : c.isDigit) : c ≠ ' ' ∧ c ≠ '\t' ∧ c ≠ '\n' ∧ c ≠ '\r' := by
  have hsp := not_isSpace_of_isDigit h
  refine ⟨?_, ?_, ?_, ?_⟩ <;> (rintro rfl; exact absurd hsp (by decide))

theorem clean_dec (n : ℕ) : Clean (dec n) :=
  ⟨(numeral_toDigits n).1, fun c hc => clean_digit ((numeral_toDigits n).2.1 c hc)⟩

theorem clean_stName (t c : ℕ) : Clean (stName t c) :=
  ⟨List.cons_ne_nil _ _, forall_mem_stName (by decide) (by decide) (fun _ => clean_digit) t c⟩

theorem clean_layerName (T t c : ℕ) : Clean (layerName T t c) := by
  unfold layerName
  split
  · exact ⟨List.cons_ne_nil _ _, by simp⟩
  · exact clean_stName t c

theorem Clean.filter {w : List Char} (h : Clean w) :
    w.filter (fun c => c ≠ '\n' && c ≠ '\r') = w :=
  List.filter_eq_self.mpr fun c hc => by simp [(h.2 c hc).2.2]

theorem Clean.no_sep {w : List Char} (h : Clean w) :
    ∀ c ∈ w, (c = ' ' || c = '\t') = false := fun c hc => by
  simp [(h.2 c hc).1, (h.2 c hc).2.1]

theorem lineTokens_word {w : List Char} (h : Clean w) : lineTokens w = [w] := by
  rw [lineTokens, h.filter, tokens_piece h.1 h.no_sep]

theorem lineTokens_cons {w : List Char} (h : Clean w) (u : List Char) :
    lineTokens (w ++ ' ' :: u) = w :: lineTokens u := by
  rw [lineTokens, List.filter_append, h.filter, List.filter_cons_of_pos (by decide),
    tokens_piece_cons h.1 h.no_sep _ (by decide)]
  rfl

/-- The columns of a row are words. -/
def CleanRow (r : TransRow) : Prop := Clean r.input ∧ Clean r.cst ∧ Clean r.nst ∧ Clean r.output

theorem lineTokens_row {r : TransRow} (h : CleanRow r) : lineTokens r.text = rowWords r := by
  have htext : r.text = r.input ++ ' ' :: (r.cst ++ ' ' :: (r.nst ++ ' ' :: r.output)) := by
    simp [TransRow.text]
  rw [htext, lineTokens_cons h.1, lineTokens_cons h.2.1, lineTokens_cons h.2.2.1,
    lineTokens_word h.2.2.2, rowWords]

theorem newline_not_mem_row {r : TransRow} (h : CleanRow r) : '\n' ∉ r.text := by
  have hno : ∀ {w}, Clean w → '\n' ∉ w := fun hw hmem => (hw.2 _ hmem).2.2.1 rfl
  simp [TransRow.text, hno h.1, hno h.2.1, hno h.2.2.1, hno h.2.2.2]

/-- The part of a file for one permutation. -/
def permPart (G : STG) (isPi : Bool) : Option (List ℕ) → Option (List Char)
  | some perm => G.writePerm perm isPi
  | none => some []

theorem write_bind (G : STG) (iPerm oPerm : Option (List ℕ)) :
    G.write iPerm oPerm = (permPart G true iPerm).bind fun il =>
      (permPart G false oPerm).bind fun ol =>
        some (il ++ ol ++ G.bodyLines.flatMap (· ++ ['\n'])) := by
  cases iPerm <;> cases oPerm <;> rfl

theorem write_parts {G : STG} {iPerm oPerm : Option (List ℕ)} {text : List Char}
    (h : G.write iPerm oPerm = some text) : ∃ il ol, permPart G true iPerm = some il ∧
      permPart G false oPerm = some ol ∧ il ++ ol ++ G.bodyLines.flatMap (· ++ ['\n']) = text := by
  rw [write_bind] at h
  obtain ⟨il, hil, h⟩ := Option.bind_eq_some_iff.mp h
  obtain ⟨ol, hol, h⟩ := Option.bind_eq_some_iff.mp h
  exact ⟨il, ol, hil, hol, Option.some.inj h⟩

/-- A line that the readers pass over. -/
def Comment (c : List Char) : Prop := c.head? = some '#' ∧ '.' ∉ c

/-- A permutation is one line that starts with `#`, or nothing. -/
theorem permPart_lines {G : STG} {isPi : Bool} {perm : Option (List ℕ)} {l : List Char}
    (h : permPart G isPi perm = some l) :
    ∃ cs : List (List Char), l = cs.flatMap (· ++ ['\n']) ∧
      ∀ c ∈ cs, '\n' ∉ c ∧ Comment c := by
  cases perm with
  | none => exact ⟨[], (Option.some.inj h).symm, by simp⟩
  | some perm =>
      obtain ⟨ps, -, hps⟩ := Option.bind_eq_some_iff.mp h
      refine ⟨[STG.permLine ps isPi], ?_, fun c hc => ?_⟩
      · rw [List.flatMap_singleton]
        exact (Option.some.inj hps).symm
      · rw [List.mem_singleton.mp hc]
        obtain ⟨hline, hdot⟩ := STG.not_mem_permLine ps isPi
        exact ⟨hline, rfl, hdot⟩

theorem newline_not_mem_bodyLines {G : STG} (hrows : ∀ r ∈ G.transs, CleanRow r) :
    ∀ l ∈ G.bodyLines, '\n' ∉ l := by
  have hdec : ∀ n, '\n' ∉ dec n := fun n hmem => ((clean_dec n).2 _ hmem).2.2.1 rfl
  have hrow : ∀ l ∈ G.transs.map TransRow.text, '\n' ∉ l := by
    intro l hl
    obtain ⟨r, hr, rfl⟩ := List.mem_map.mp hl
    exact newline_not_mem_row (hrows r hr)
  intro l hl
  rcases List.mem_append.mp hl with hl | hl
  · rcases List.mem_append.mp hl with hl | hl
    · simp only [List.mem_cons, List.not_mem_nil, or_false] at hl
      rcases hl with rfl | rfl | rfl | rfl | rfl <;> simp [hdec]
    · exact hrow l hl
  · rw [List.mem_singleton.mp hl]
    decide

/-- The lines of a written file. -/
theorem write_lines {G : STG} (hrows : ∀ r ∈ G.transs, CleanRow r) {iPerm oPerm : Option (List ℕ)}
    {text : List Char} (h : G.write iPerm oPerm = some text) :
    ∃ cs : List (List Char), lines text = cs ++ G.bodyLines ++ [[]] ∧
      ∀ c ∈ cs, Comment c := by
  obtain ⟨il, ol, hil, hol, rfl⟩ := write_parts h
  obtain ⟨cs, rfl, hcs⟩ := permPart_lines hil
  obtain ⟨cs', rfl, hcs'⟩ := permPart_lines hol
  have hall : ∀ c ∈ cs ++ cs', '\n' ∉ c ∧ Comment c := fun c hc =>
    (List.mem_append.mp hc).elim (hcs c) (hcs' c)
  refine ⟨cs ++ cs', ?_, fun c hc => (hall c hc).2⟩
  rw [← List.flatMap_append, ← List.flatMap_append]
  apply lines_flatMap
  intro l hl
  rcases List.mem_append.mp hl with hl | hl
  · exact (hall l hl).1
  · exact newline_not_mem_bodyLines hrows l hl

/-- A written file is one of the machine of the rows, with the number of states that it names. -/
theorem hotText_of_write {G : STG} (hok : HeaderOk G) (hrows : ∀ r ∈ G.transs, CleanRow r)
    {iPerm oPerm : Option (List ℕ)} {text : List Char} (h : G.write iPerm oPerm = some text) :
    HotText (kissOf G) (stNames G).card text := by
  obtain ⟨cs, hlines, hcs⟩ := write_lines hrows h
  have hnum : ∀ (k : List Char) (n : ℕ), Clean k → lineTokens (k ++ ' ' :: dec n) = [k, dec n] :=
    fun k n hk => by rw [lineTokens_cons hk, lineTokens_word (clean_dec n)]
  have hkey : ∀ k ∈ [".i".toList, ".o".toList, ".p".toList, ".s".toList], Clean k := by
    simp [Clean]
  refine ⟨cs, G.transs.map TransRow.text, [[]], ".i ".toList ++ dec G.nPi,
    ".o ".toList ++ dec G.nPo, ".p ".toList ++ dec G.transs.length, ".s ".toList ++ dec G.nSts,
    ".r S0_0".toList, ".e".toList, ?_, fun c hc => (hcs c hc).1,
    ⟨dec G.nPi, hnum ".i".toList G.nPi (hkey _ (by simp)), numeral_toDigits _⟩,
    ⟨dec G.nPo, hnum ".o".toList G.nPo (hkey _ (by simp)), numeral_toDigits _⟩,
    ⟨dec G.transs.length, hnum ".p".toList _ (hkey _ (by simp)), numeral_toDigits _⟩,
    ⟨dec (stNames G).card, ?_, numeral_toDigits _⟩, ⟨stName 0 0, by decide, rfl⟩, ?_, rfl⟩
  · rw [hlines]
    simp [STG.bodyLines]
  · rw [hok.states]
    exact hnum ".s".toList _ (hkey _ (by simp))
  · rw [List.forall₂_map_left_iff]
    exact List.forall₂_same.mpr fun r hr => lineTokens_row (hrows r hr)

/-- The map of `oneHotEnc` holds every name once. -/
theorem length_hotStates {G : STG} (h : HeaderOk G) :
    (hotStates (kissOf G)).length = (stNames G).card := by
  obtain ⟨hnd, hmem⟩ := foldl_pushState_inv G.transs (List.nodup_singleton (stName 0 0))
  have hset : (hotStates (kissOf G)).toFinset = stNames G := by
    ext s
    rw [List.mem_toFinset, mem_hotStates, mem_stNames]
    constructor
    · rintro (rfl | hr)
      · exact mem_stNames.mp h.reset
      · exact hr
    · exact fun hr => Or.inr hr
  rw [← hset, List.toFinset_card_of_nodup]
  exact hnd

/-! ## The folding commands -/

/-- The file that is written for `G`: its lines, with the counts of rows and of names. When the
counts are `int`s the encoder reads it, and whenever it has read it, it stays in its arrays. -/
structure HeaderMatches (G : STG) (iPerm oPerm : Option (List ℕ)) : Prop where
  header : HeaderOk G
  file : ∃ text cs, G.write iPerm oPerm = some text ∧ (∀ c ∈ cs, c.head? = some '#') ∧
    lines text = cs ++ [".i ".toList ++ dec G.nPi, ".o ".toList ++ dec G.nPo,
      ".p ".toList ++ dec G.transs.length, ".s ".toList ++ dec (stNames G).card,
      ".r S0_0".toList] ++ G.transs.map TransRow.text ++ [".e".toList, []] ∧
    ∀ dcVal fuel, (lines text).length < fuel →
      (HeaderInts (kissOf G) G.nSts → ∃ f, hotRead fuel text = some f) ∧
      ∀ f, hotRead fuel text = some f → ∃ b, oneHotEnc fuel text dcVal = some b

/-- A permutation of the right length is printed. -/
theorem permPart_some {G : STG} (isPi : Bool) {perm : Option (List ℕ)}
    (h : ∀ p, perm = some p → p.length = if isPi then G.nCi else G.nCo) :
    ∃ l, permPart G isPi perm = some l := by
  cases perm with
  | none => exact ⟨[], rfl⟩
  | some p => exact ⟨_, STG.writePerm_eq G isPi (h p rfl)⟩

theorem write_some {G : STG} {iPerm oPerm : Option (List ℕ)}
    (hi : ∀ p, iPerm = some p → p.length = G.nCi) (ho : ∀ p, oPerm = some p → p.length = G.nCo) :
    ∃ text, G.write iPerm oPerm = some text := by
  obtain ⟨il, hil⟩ := permPart_some true hi
  obtain ⟨ol, hol⟩ := permPart_some false ho
  rw [write_bind, hil, hol]
  exact ⟨_, rfl⟩

section Layers

variable {dd : Cudd} {order : List ℕ} {pNodeVec : List (Option dd.Node)} {nPo : ℕ} {G : STG}
  {tab : ℕ → Table dd} {rows : ℕ → List TransRow} {fs : List ℕ}

theorem headerMatches_of_layers (h : Layers dd order pNodeVec nPo G tab rows fs)
    (hord : order.Perm (List.range order.length))
    (hsum : G.nSts = 1 + ∑ t ∈ Finset.range G.nTimeFrame, (tab t).length) (hPi : 1 ≤ G.nPi)
    (hPo : 1 ≤ nPo) (hslots : G.nPo = nPo) {iPerm oPerm : Option (List ℕ)}
    (hi : ∀ p, iPerm = some p → p.length = G.nCi) (ho : ∀ p, oPerm = some p → p.length = G.nCo) :
    HeaderMatches G iPerm oPerm := by
  have hok := headerOk_of_layers h hord hsum
  have hm := kissOk_of_layers h hPi hPo hslots
  have hrows : ∀ r ∈ G.transs, CleanRow r := by
    intro r hr
    obtain ⟨t, ht, c, -, n, -, hcst, hnst⟩ := row_names h hr
    refine ⟨clean_column hPi (hm.input r hr), hcst ▸ clean_stName t c, ?_,
      clean_column (hPo.trans_eq hslots.symm) (hm.output r hr)⟩
    rw [hnst]
    exact clean_layerName _ _ _
  obtain ⟨text, htext⟩ := write_some hi ho
  obtain ⟨cs, hlines, hcs⟩ := write_lines hrows htext
  refine ⟨hok, text, cs, htext, fun c hc => (hcs c hc).1, ?_, fun dcVal fuel hfuel => ?_⟩
  · rw [hlines, STG.bodyLines, hok.states]
    simp
  · have hspec := fun f => hotRead_spec (f := f)
      (fun r hr => ⟨(hm.input r hr).1, (hm.output r hr).1⟩)
      (hotText_of_write hok hrows htext) hfuel
    refine ⟨fun hints => ⟨_, (hspec _).mpr ⟨hok.states ▸ hints, rfl⟩⟩, fun f hf => ?_⟩
    exact ⟨_, oneHotEnc_eq (length_hotStates hok).le hm.columns ((hspec f).mp hf).1
      (hotText_of_write hok hrows htext) dcVal hfuel⟩

end Layers

theorem TimeFold.Folded.headerMatches {dd : Cudd} {order : List ℕ}
    {pNodeVec : List (Option dd.Node)} {B : List dd.Node} {nB nPi nPo T : ℕ} {G : STG}
    {tab : ℕ → Table dd} (h : Folded dd order pNodeVec B nB nPi nPo T G tab) (hPi : 1 ≤ nPi)
    (hPo : 1 ≤ nPo) {iPerm oPerm : Option (List ℕ)}
    (hi : ∀ p, iPerm = some p → p.length = G.nCi) (ho : ∀ p, oPerm = some p → p.length = G.nCo) :
    HeaderMatches G iPerm oPerm := by
  obtain ⟨rows, hlay⟩ := h.layers
  exact headerMatches_of_layers hlay h.perm (h.frames ▸ h.states) (h.pins ▸ hPi) hPo h.slots hi ho

/-- In the files of the three commands the header tells the rows and the states: every name is
counted, every state is entered and can be left, and the encoder stays in its arrays. -/
theorem header_matches (abc : AbcBdd) (sort : TimeMux2.CountSort) (sift ro : TimeMux2.Reorder)
    (fp : TimeMux2.Fp) (manual : ℕ → Option TimeMux2.Schedule) {C : Ntk} (hC : C.Ok)
    (hl : C.latches = []) {nPi T : ℕ} (hT : 1 ≤ T) (hPi : 1 ≤ nPi) (hpi : C.nPi = nPi * T)
    (hpo : 1 ≤ C.pos.length) :
    (∀ nPo, 1 ≤ nPo → C.pos.length = nPo * T →
      ∀ G, bddFold abc C T = some G → HeaderMatches G none none) ∧
    (∀ oPerm expConfig, oPerm.length = C.pos.length → expConfig ≤ 3 →
      ∀ G r, TimeMux2.bddMux2 abc sort ro fp manual C T oPerm expConfig = some (G, r) →
        HeaderMatches G (some r.iPerm) (some r.oPerm)) ∧
    ∀ perm, TimeMux.CutsOk abc C (TimeMux.muxOrder sift ro C.nPi perm) →
      ∃ G p, TimeMux.bddMux abc sift ro C T perm = some (G, p) ∧ HeaderMatches G p none := by
  refine ⟨fun nPo hnPo hnpo G hG => ?_, fun oPerm expConfig hlen hcfg G r hrun => ?_,
    fun perm hcut => ?_⟩
  · obtain ⟨B, tab, hfold⟩ := folded_of_bddFold abc hC hl hT hnPo hpi hnpo hG
    exact TimeFold.Folded.headerMatches hfold hPi hnPo (fun _ h => by cases h)
      fun _ h => by cases h
  · obtain ⟨hok, hnPo, ⟨hCi, hCo⟩, B, tab, -, hfold⟩ :=
      TimeMux2.bddMux2_folded abc hC hl hT hpi hpo hlen hcfg hrun
    refine TimeFold.Folded.headerMatches hfold hPi hnPo (fun p hp => ?_) fun p hp => ?_
    · rw [← Option.some.inj hp, hok.iPerm.length_eq, List.length_range, hCi, hpi]
    · rw [← Option.some.inj hp, hok.oPerm_length, hCo, TimeMux2.initSupVecs, List.length_map,
        abc.globalBdds_length]
  · obtain ⟨G, tab, rows, hrun, hG, hlay⟩ :=
      TimeMux.bddMux_layers abc sift ro hC hl hT hpi hpo perm hcut
    have hperm := TimeMux.muxOrder_perm sift ro C.nPi perm
    have hlen : (TimeMux.muxOrder sift ro C.nPi perm).length = C.nPi := by
      simpa using hperm.length_eq
    refine ⟨G, _, hrun, headerMatches_of_layers hlay (hlen.symm ▸ hperm) (by rw [hG])
      (by rw [hG]; exact hPi) hpo (by rw [hG]) (fun p hp => ?_) fun _ h => by cases h⟩
    cases perm with
    | false => cases hp
    | true => rw [← Option.some.inj hp, List.length_map, List.length_range, hG]

/-- One pin in two frames; the second frame shows the input of the first. -/
theorem header_matches_holdNtk :
    (∃ G, bddFold Robdd.abcBdd holdNtk 2 = some G ∧ HeaderMatches G none none) ∧
    (∃ G r, TimeMux2.bddMux2 Robdd.abcBdd TimeMux2.countSort TimeMux2.reverseRange
        TimeMux2.exactFp (fun _ => none) holdNtk 2 [0, 0] 0 = some (G, r) ∧
      HeaderMatches G (some r.iPerm) (some r.oPerm)) ∧
    ∃ G p, TimeMux.bddMux Robdd.abcBdd TimeMux2.reverseRange TimeMux2.reverseRange holdNtk 2 true =
      some (G, p) ∧ HeaderMatches G p none := by
  obtain ⟨hfold, hmux2, hmux⟩ := header_matches Robdd.abcBdd TimeMux2.countSort
    TimeMux2.reverseRange TimeMux2.reverseRange TimeMux2.exactFp (fun _ => none) holdNtk_ok rfl
    (T := 2) (by decide) (le_refl 1) rfl (by decide)
  obtain ⟨G, -, -, hG, -⟩ := bddFold_folded Robdd.abcBdd holdNtk_ok rfl (by decide) le_rfl rfl rfl
    holdNtk_iterative
  obtain ⟨G₂, r, hG₂⟩ := TimeMux2.bddMux2_some Robdd.abcBdd holdNtk_ok rfl (T := 2)
    (by decide) rfl (by decide)
    (show ([0, 0] : List ℤ).length = 2 from rfl) (show 0 ≤ 3 by decide) (le_refl 1)
    (TimeMux2.inRange_of_lt Robdd.abcBdd (by decide) rfl le_rfl TimeMux2.countSort (by decide)
      (by decide) (by decide))
  exact ⟨⟨G, hG, hfold 1 le_rfl rfl G hG⟩, ⟨G₂, r, hG₂, hmux2 [0, 0] 0 rfl (by decide) G₂ r hG₂⟩,
    hmux true (TimeMux.cutsOk_of_output Robdd.abcBdd holdNtk_ok rfl
      (TimeMux.muxOrder_perm _ _ _ _) (show 0 < 2 by decide)
      (show holdNtk.fn (fun _ => true) 0 = true by decide))⟩

end ExtFolding.Misc
