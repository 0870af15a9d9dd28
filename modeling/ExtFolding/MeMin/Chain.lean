import ExtFolding.MeMin.Rows

/-!
# Machines of any number of states

A file of `n` rows that lead from each number to the next. All of its `n + 1` states are reachable,
and one state that repeats itself does what they do.
-/

namespace ExtFolding.MeMin

open ExtFolding.Text ExtFolding.Utils

def chainRow (i : ℕ) : TransRow := ⟨['-'], dec i, dec (i + 1), ['0']⟩

def chainText (n : ℕ) : List Char :=
  ((List.range n).map fun i => (chainRow i).text).flatMap (· ++ ['\n'])

def chainTrans (i : ℕ) : Trans := (IncSpecSeq.ofString ['-'], i + 1, IncSpecSeq.ofString ['0'])

/-- The rows of the states; the last one has none. -/
def chainStates (n : ℕ) : List (List Trans) :=
  (List.range n).map (fun i => [chainTrans i]) ++ [[]]

def chainMachine (n : ℕ) : Machine := ⟨chainStates n, some 0, none, none⟩

/-- The variables of the parser behind `n` rows. -/
def chainSt (n : ℕ) : ParseSt :=
    ⟨(List.range (n + 1)).map dec, chainStates n, some 0, none, none, []⟩

/-! ## The file is read -/

theorem dec_ne_star (i : ℕ) : dec i ≠ ['*'] := fun h => by
  have hmem : '*' ∈ dec i := h ▸ List.mem_singleton_self '*'
  exact absurd ((numeral_toDigits i).2.1 '*' hmem) (by decide)

theorem idxOf_dec {n i : ℕ} (hi : i < n) : ((List.range n).map dec).idxOf (dec i) = i := by
  have hnodup : ((List.range n).map dec).Nodup := List.nodup_range.map fun _ _ => toDigits_inj
  have hlen : i < ((List.range n).map dec).length := by simpa using hi
  have hget := hnodup.idxOf_getElem i hlen
  rwa [List.getElem_map, List.getElem_range] at hget

theorem count_dec {n i : ℕ} : ((List.range n).map dec).count (dec i) = 0 ↔ n ≤ i := by
  rw [List.count_eq_zero, List.mem_map]
  constructor
  · intro h
    by_contra hlt
    exact h ⟨i, List.mem_range.mpr (Nat.lt_of_not_le hlt), rfl⟩
  · rintro hle ⟨j, hj, heq⟩
    rw [toDigits_inj heq, List.mem_range] at hj
    exact Nat.not_lt.mpr hle hj

theorem splitRow_chain {i : ℕ} (hi : i + 1 < 2 ^ 31) :
    splitRow (chainRow i).text = some (chainRow i) := by
  have h₁ : (dec i).length ≤ 10 := length_dec (by omega)
  have h₂ : (dec (i + 1)).length ≤ 10 := length_dec (by omega)
  have hstart : outStart (chainRow i) ≤ 24 := by
    show 1 + (dec i).length + (dec (i + 1)).length + 3 ≤ 24
    omega
  have hcut : cutRow (chainRow i) = chainRow i := by
    have hlen : (chainRow i).output.length ≤ 2 ^ 32 - 1 - outStart (chainRow i) := by
      show 1 ≤ _
      omega
    rw [cutRow, List.take_of_length_le hlen]
  have hin : Column 1 (chainRow i).input := ⟨rfl, by simp [chainRow]⟩
  have hout : Column 1 (chainRow i).output := ⟨rfl, by simp [chainRow]⟩
  rw [splitRow_text hin (word_dec i) (word_dec (i + 1)) hout le_rfl (by omega), hcut]

theorem parseLine_chain (p : ParseSt) {i : ℕ} (hi : i + 1 < 2 ^ 31) :
    parseLine true p (chainRow i).text = some (addRow true p (chainRow i)) := by
  have hchar : lineChar (chainRow i).text 0 = '-' := rfl
  rw [parseLine, hchar, if_neg (by decide), if_pos (by decide), splitRow_chain hi]
  rfl

theorem chainStates_succ (n : ℕ) :
    (chainStates n ++ [[]]).modify n (· ++ [chainTrans n]) = chainStates (n + 1) := by
  have hmod : ∀ (l : List (List Trans)) (x : List Trans) (f : List Trans → List Trans) ys,
      (l ++ x :: ys).modify l.length f = l ++ f x :: ys := by
    intro l x f ys
    induction l with
    | nil => rfl
    | cons y l ih => rw [List.cons_append, List.length_cons, List.modify_succ_cons, ih]; rfl
  have h := hmod ((List.range n).map fun i => [chainTrans i]) [] (· ++ [chainTrans n]) [[]]
  rw [List.length_map, List.length_range] at h
  rw [chainStates, List.append_assoc]
  exact h.trans (by simp [chainStates, List.range_succ])

theorem addRow_chain (n : ℕ) :
    addRow true (chainSt (n + 1)) (chainRow (n + 1)) = chainSt (n + 2) := by
  have hcst : (chainSt (n + 1)).meet true (dec (n + 1)) = chainSt (n + 1) := by
    refine if_neg fun h => ?_
    exact absurd (count_dec.mp h) (by omega)
  have hnew : (chainSt (n + 1)).stateToInt.count (dec (n + 2)) = 0 := count_dec.mpr le_rfl
  have hnst : (chainSt (n + 1)).meet true (dec (n + 2)) =
      ⟨(List.range (n + 3)).map dec, chainStates (n + 1) ++ [[]], some 0, none, none, []⟩ := by
    rw [ParseSt.meet, if_pos hnew, ParseSt.enter, if_pos hnew]
    simp [chainSt, List.range_succ (n := n + 2)]
  have h₁ : ((List.range (n + 3)).map dec).idxOf (dec (n + 1)) = n + 1 := idxOf_dec (by omega)
  have h₂ : ((List.range (n + 3)).map dec).idxOf (dec (n + 2)) = n + 2 := idxOf_dec (by omega)
  unfold addRow
  simp only [chainRow, ne_eq, dec_ne_star, not_false_eq_true, if_true, if_false, hcst, hnst, h₁, h₂]
  exact congrArg (fun states => ParseSt.mk _ states (some 0) none none [])
    (chainStates_succ (n + 1))

theorem addRow_chain_zero : addRow true ⟨[], [], none, none, none, []⟩ (chainRow 0) =
    chainSt 1 := by
  rfl

theorem foldlM_chain {n : ℕ} (hn : n + 1 < 2 ^ 31) :
    ((List.range (n + 1)).map fun i => (chainRow i).text).foldlM (parseLine true)
      ⟨[], [], none, none, none, []⟩ = some (chainSt (n + 1)) := by
  induction n with
  | zero =>
      simp only [Nat.zero_add, List.range_one, List.map_cons, List.map_nil, List.foldlM_cons,
        List.foldlM_nil, Option.bind_eq_bind, parseLine_chain _ hn, Option.bind_some,
        addRow_chain_zero]
      rfl
  | succ n ih =>
      rw [List.range_succ, List.map_append, List.foldlM_append, ih (by omega)]
      simp only [List.map_cons, List.map_nil, List.foldlM_cons, List.foldlM_nil,
        Option.bind_eq_bind, Option.bind_some, parseLine_chain _ hn, addRow_chain]
      rfl

theorem parse_chain {n : ℕ} (hn : n + 1 < 2 ^ 31) :
    parseKISSFile (chainText (n + 1)) true = some (chainMachine (n + 1)) := by
  have hline : ∀ l ∈ (List.range (n + 1)).map fun i => (chainRow i).text, '\n' ∉ l := by
    intro l hl
    obtain ⟨i, -, rfl⟩ := List.mem_map.mp hl
    have hdec : ∀ n, '\n' ∉ dec n := fun n h => absurd ((word_dec n).2 _ h) (by decide)
    simp [TransRow.text, chainRow, hdec]
  have hlines : getlines (chainText (n + 1)) = _ := getlines_eq (lines_flatMap hline)
  rw [parseKISSFile, hlines, foldlM_chain hn]
  have hlen : (chainSt (n + 1)).states.length ≤ 2 ^ 31 := by
    show ((List.range (n + 1)).map _ ++ [[]]).length ≤ _
    rw [List.length_append, List.length_map, List.length_range, List.length_singleton]
    omega
  rw [Option.bind_eq_bind, Option.bind_some, if_pos hlen]
  simp [chainSt, chainMachine]

/-! ## The machine -/

variable {n : ℕ}

theorem mem_rowsOf_chain {s : ℕ} {t : Trans} :
    t ∈ rowsOf (chainStates n) s ↔ s < n ∧ t = chainTrans s := by
  have hget : (chainStates n)[s]? = if s < n then some [chainTrans s]
      else if s = n then some [] else none := by
    unfold chainStates
    rcases Nat.lt_trichotomy s n with h | h | h
    · rw [List.getElem?_append_left (by simpa using h), if_pos h]
      simp [h]
    · rw [List.getElem?_append_right (by simp [h]), if_neg (by omega), if_pos h]
      simp [h]
    · rw [List.getElem?_append_right (by simp; omega), if_neg (by omega), if_neg (by omega)]
      simp
      omega
  rw [rowsOf, List.getD_eq_getElem?_getD, hget]
  split
  · next h => simp [h]
  · next h => split <;> simp [h]

theorem length_chain : (chainStates n).length = n + 1 := by simp [chainStates]

theorem chain_ok : MachOk 1 1 (chainStates n) ∧ RowsApart 1 (chainStates n) := by
  have hrows : ∀ trans ∈ chainStates n, trans = [] ∨ ∃ i < n, trans = [chainTrans i] := by
    intro trans htrans
    rcases List.mem_append.mp htrans with h | h
    · obtain ⟨i, hi, rfl⟩ := List.mem_map.mp h
      exact Or.inr ⟨i, List.mem_range.mp hi, rfl⟩
    · exact Or.inl (List.mem_singleton.mp h)
  have hall : ∀ {P : Trans → Prop}, (∀ i < n, P (chainTrans i)) →
      ∀ trans ∈ chainStates n, ∀ t ∈ trans, P t := by
    intro P hP trans htrans t ht
    rcases hrows trans htrans with rfl | ⟨i, hi, rfl⟩
    · exact absurd ht List.not_mem_nil
    · exact List.mem_singleton.mp ht ▸ hP i hi
  refine ⟨⟨hall fun i hi => ?_, hall fun i _ => IncSpecSeq.ofString_wf ['-'],
    hall fun i _ => IncSpecSeq.ofString_wf ['0']⟩, fun trans htrans => ?_⟩
  · rw [length_chain]
    exact Nat.succ_lt_succ hi
  · rcases hrows trans htrans with rfl | ⟨i, -, rfl⟩
    · exact List.Pairwise.nil
    · exact List.pairwise_singleton _ _

theorem reachable_chain {s : ℕ} (hs : s ≤ n) : Reachable (chainStates n) 0 s := by
  induction s with
  | zero => exact .refl
  | succ s ih =>
      exact .tail (ih (by omega))
        (List.mem_map.mpr ⟨chainTrans s, mem_rowsOf_chain.mpr ⟨hs, rfl⟩, rfl⟩)

theorem lt_ncard_chain : n < {s | Reachable (chainStates n) 0 s}.ncard := by
  have hsub : ↑(Finset.range (n + 1)) ⊆ {s | Reachable (chainStates n) 0 s} := fun s hs =>
    reachable_chain (Nat.lt_succ_iff.mp (by simpa using hs))
  have hfin : {s | Reachable (chainStates n) 0 s}.Finite :=
    (Finset.finite_toSet (Finset.range (n + 1))).subset fun s hs => by
      have := chain_ok.1.next.reachable_lt (length_chain (n := n) ▸ n.succ_pos) hs
      simpa [length_chain] using this
  have hle := Set.ncard_le_ncard hsub hfin
  rwa [Set.ncard_coe_finset, Finset.card_range] at hle

/-- One state is enough. -/
theorem chain_realised : ∃ N : Mealy (Fin 1) (Fin 1 → Bool) Cube,
    Realises Agrees (rowStep 1 (chainStates n)) 0 N.Step N.start := by
  refine ⟨⟨0, fun _ _ => some ((IncSpecSeq.ofString ['0']).cube, 0)⟩,
    Realises.of_simulation (fun _ _ => True) ?_ trivial⟩
  rintro s q a o t - ⟨row, hrow, -, rfl, rfl⟩
  obtain ⟨-, rfl⟩ := mem_rowsOf_chain.mp hrow
  exact ⟨_, _, rfl, Agrees.refl _, trivial⟩

end ExtFolding.MeMin
