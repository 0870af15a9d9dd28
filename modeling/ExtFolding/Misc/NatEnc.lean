import ExtFolding.Misc.NatRead

/-!
# `misc/natEnc.cpp`: natural encoding

States are numbered in the order in which the rows name them, and the number of a state is
written in binary. `natEnc_simulates` is the correctness of the netlist on every word. States and
nets are counted in `int`s; a sum that does not fit is a failure.
-/

namespace ExtFolding.Misc

open ExtFolding.Text ExtFolding.Utils

/-! ## The encoder -/

/-- The loop `while(n!=0)`. -/
def toBinaryLoop : ℕ → ℕ → List Char → List Char
  | 0, _, r => r
  | fuel + 1, n, r =>
      if n ≠ 0 then toBinaryLoop fuel (n / 2) ((if n % 2 = 0 then '0' else '1') :: r) else r

def toBinary (n bnum : ℕ) : List Char :=
  let r := toBinaryLoop n n []
  List.replicate (bnum - r.length) '0' ++ r

/-- The loop `while(1)` that counts the bits. -/
def bnumLoop : ℕ → ℤ → ℕ → Option ℕ
  | 0, _, _ => none
  | fuel + 1, s, bnum =>
      let s := s.tdiv 2
      if 0 ≤ s then
        if s = 0 then some (bnum + 1) else bnumLoop fuel s (bnum + 1)
      else bnumLoop fuel s bnum

/-- `s[i]` of a string, which ends with a null character. -/
def strAt (s : List Char) (i : ℕ) : Option Char :=
  if i = s.length then some '\x00' else s[i]?

/-- The net `v<i>`. -/
def vNet (i : ℕ) : List Char := 'v' :: Nat.toDigits 10 i

/-- The net `[<i>]`. -/
def brNet (i : ℕ) : List Char := '[' :: Nat.toDigits 10 i ++ [']']

section Covers

variable (state_list encode_list : List (List Char)) (table : List TransRow)

/-- The first code that stands for a state. -/
def codeOf (q : List Char) : Option (List Char) := (state_list.zip encode_list).lookup q

/-- A row in the cover of bit `k` of the next state; `none` inside when the bit is 0. -/
def nextRow (k : ℕ) (r : TransRow) : Option (Option (List Char × Char)) :=
  if (state_list.zip encode_list).any fun p => p.1 = r.nst ∧ p.2[k]? = some '0' then some none
  else do
    let cur ← codeOf state_list encode_list r.cst
    let next ← codeOf state_list encode_list r.nst
    let c ← next[k]?
    if c = '1' then return some (r.input ++ cur, c) else none

/-- A row in the cover of output `o`; `none` inside when the bit is 0. -/
def outRow (o : ℕ) (r : TransRow) : Option (Option (List Char × Char)) := do
  let c ← strAt r.output o
  if c = '0' then return none
  else
    let cur ← codeOf state_list encode_list r.cst
    return some (r.input ++ cur, c)

/-- A cover, with the row of dashes when no row counts. -/
def natCover (ins : List (List Char)) (out : List Char)
    (row : TransRow → Option (Option (List Char × Char))) : Option (Blif.Names (List Char)) := do
  let rows := (← table.mapM row).reduceOption
  return ⟨ins, out, if rows = [] then [(List.replicate ins.length '-', '0')] else rows⟩

end Covers

/-- The writing part of `natEnc`. -/
def natWrite (fuel : ℕ) (f : NatInput) : Option (Blif (List Char)) := do
  let bnum ← bnumLoop fuel (f.state_list.length - 1 : ℤ) 0
  let encode_list := (List.range f.state_list.length).map fun i => toBinary i bnum
  let r := (codeOf f.state_list encode_list f.reset).getD []
  let io_sum := f.input_num + f.output_num
  if f.state_list.length < 2 ^ 31 ∧ io_sum + bnum < 2 ^ 31 then do
    let latches ← (List.range bnum).mapM fun k => do
      let c ← strAt r k
      return (⟨brNet (io_sum + k), vNet (io_sum + k), c⟩ : Blif.Latch (List Char))
    let ins := (List.range f.input_num).map vNet ++
      (List.range bnum).map fun k => vNet (io_sum + k)
    let next ← (List.range bnum).mapM fun k =>
      natCover f.table ins (brNet (io_sum + k)) (nextRow f.state_list encode_list k)
    let outs ← (List.range f.output_num).mapM fun o =>
      natCover f.table ins (vNet (f.input_num + o)) (outRow f.state_list encode_list o)
    return ⟨(List.range f.input_num).map vNet,
      (List.range f.output_num).map fun o => vNet (f.input_num + o), latches, next ++ outs⟩
  else none

/-- `natEnc`; the loops over the header and over the bits take at most `fuel` rounds. -/
def natEnc (fuel : ℕ) (text : List Char) (dcVal : Bool) : Option (Blif (List Char)) := do
  natWrite fuel (← natRead fuel text dcVal)

/-! ## Codes -/

/-- The `w` low bits of `n`, most significant first. -/
def binBits : ℕ → ℕ → List Bool
  | 0, _ => []
  | w + 1, n => binBits w (n / 2) ++ [decide (n % 2 = 1)]

@[simp] theorem length_binBits (w n : ℕ) : (binBits w n).length = w := by
  induction w generalizing n with
  | zero => rfl
  | succ w ih => simp [binBits, ih]

theorem binBits_zero (w : ℕ) : binBits w 0 = List.replicate w false := by
  induction w with
  | zero => rfl
  | succ w ih =>
      rw [binBits, Nat.zero_div, ih, List.replicate_succ']
      rfl

theorem binBits_inj {w a b : ℕ} (ha : a < 2 ^ w) (hb : b < 2 ^ w) (h : binBits w a = binBits w b) :
    a = b := by
  induction w generalizing a b with
  | zero => omega
  | succ w ih =>
      rw [pow_succ] at ha hb
      obtain ⟨hdiv, hmod⟩ := List.append_inj' h rfl
      have h2 : a / 2 = b / 2 := ih (by omega) (by omega) hdiv
      have h1 : a % 2 = 1 ↔ b % 2 = 1 := decide_eq_decide.mp (List.cons.inj hmod).1
      omega

theorem toBinaryLoop_spec {w fuel n : ℕ} (hn : n < 2 ^ w) (hf : n ≤ fuel) :
    ∃ d, (∀ r, toBinaryLoop fuel n r = d ++ r) ∧ d.length ≤ w ∧
      List.replicate (w - d.length) '0' ++ d = (binBits w n).map bitChar := by
  have hzero : ∀ (w fuel : ℕ), ∃ d, (∀ r, toBinaryLoop fuel 0 r = d ++ r) ∧ d.length ≤ w ∧
      List.replicate (w - d.length) '0' ++ d = (binBits w 0).map bitChar := by
    intro w fuel
    refine ⟨[], fun r => ?_, Nat.zero_le w, ?_⟩
    · cases fuel <;> rfl
    · rw [binBits_zero, List.map_replicate]
      simp [bitChar]
  induction w generalizing fuel n with
  | zero =>
      obtain rfl : n = 0 := by simpa using hn
      exact hzero 0 fuel
  | succ w ih =>
      rcases Nat.eq_zero_or_pos n with rfl | hpos
      · exact hzero (w + 1) fuel
      · obtain ⟨fuel, rfl⟩ := Nat.exists_eq_add_one_of_ne_zero (Nat.ne_of_gt (hpos.trans_le hf))
        rw [pow_succ] at hn
        obtain ⟨d, hloop, hlen, hbits⟩ := ih (show n / 2 < 2 ^ w by omega)
          (show n / 2 ≤ fuel by omega)
        refine ⟨d ++ [if n % 2 = 0 then '0' else '1'], fun r => ?_, by simpa using hlen, ?_⟩
        · rw [toBinaryLoop, if_pos (Nat.ne_of_gt hpos), hloop, List.append_assoc]
          rfl
        · rw [binBits, List.map_append, ← hbits, List.length_append, List.length_singleton,
            Nat.add_sub_add_right, List.append_assoc]
          rcases Nat.mod_two_eq_zero_or_one n with h | h <;> simp [h, bitChar]

theorem toBinary_eq {w n : ℕ} (hn : n < 2 ^ w) : toBinary n w = (binBits w n).map bitChar := by
  obtain ⟨d, hloop, -, hbits⟩ := toBinaryLoop_spec hn (le_refl n)
  unfold toBinary
  rw [hloop, List.append_nil]
  exact hbits

/-- The loop counts the bits of its argument, at least one. -/
theorem bnumLoop_spec {fuel s : ℕ} (hf : s < fuel) (b : ℕ) :
    bnumLoop fuel (s : ℤ) b = some (b + s.log2 + 1) := by
  induction fuel generalizing s b with
  | zero => exact absurd hf (Nat.not_lt_zero s)
  | succ fuel ih =>
      have hdiv : (s : ℤ).tdiv 2 = ((s / 2 : ℕ) : ℤ) := rfl
      rw [bnumLoop, hdiv, if_pos (Int.natCast_nonneg _)]
      by_cases h : s / 2 = 0
      · rw [h, if_pos (by rfl), Nat.log2_def, if_neg (by omega)]
      · rw [if_neg (by exact_mod_cast h), ih (by omega), Nat.log2_def s, if_pos (by omega)]
        congr 1
        omega

/-! ## States and their numbers -/

theorem mem_pushState {l : List (List Char)} {s q : List Char} :
    q ∈ pushState l s ↔ q ∈ l ∨ q = s := by
  unfold pushState
  split
  · next h => exact ⟨Or.inl, fun hq => hq.elim id fun heq => heq ▸ h⟩
  · rw [List.mem_append, List.mem_singleton]

theorem nodup_pushState {l : List (List Char)} (h : l.Nodup) (s : List Char) :
    (pushState l s).Nodup := by
  unfold pushState
  split
  · exact h
  · next hs => exact List.Nodup.append h (List.nodup_singleton s) (by simpa using hs)

theorem length_pushState_le (l : List (List Char)) (s : List Char) :
    (pushState l s).length ≤ l.length + 1 := by
  unfold pushState
  split
  · exact Nat.le_succ _
  · rw [List.length_append, List.length_singleton]

/-- A loop over the rows adds the states that they name. -/
theorem foldl_pushState_inv (rows : List TransRow) {l : List (List Char)} (hl : l.Nodup) :
    (rows.foldl (fun l r => pushState (pushState l r.cst) r.nst) l).Nodup ∧
      ∀ q, q ∈ rows.foldl (fun l r => pushState (pushState l r.cst) r.nst) l ↔
        q ∈ l ∨ ∃ r ∈ rows, q = r.cst ∨ q = r.nst := by
  induction rows generalizing l with
  | nil => exact ⟨hl, by simp⟩
  | cons r rows ih =>
      obtain ⟨hnd, hmem⟩ := ih (nodup_pushState (nodup_pushState hl r.cst) r.nst)
      refine ⟨hnd, fun q => ?_⟩
      rw [List.foldl_cons, hmem, mem_pushState, mem_pushState, or_assoc, or_assoc]
      simp only [List.mem_cons, exists_eq_or_imp, or_assoc]

theorem length_stateList_le (rows : List TransRow) : (stateList rows).length ≤ 2 * rows.length := by
  unfold stateList
  refine foldl_inv (fun (pre : List TransRow) (l : List (List Char)) => l.length ≤ 2 * pre.length)
    (fun pre r post l _ hlen => ?_) (Nat.zero_le _)
  have h₁ := length_pushState_le l r.cst
  have h₂ := length_pushState_le (pushState l r.cst) r.nst
  rw [List.length_append, List.length_singleton]
  omega

theorem nodup_stateList (rows : List TransRow) : (stateList rows).Nodup :=
  (foldl_pushState_inv rows List.nodup_nil).1

theorem mem_stateList_iff {rows : List TransRow} {q : List Char} :
    q ∈ stateList rows ↔ ∃ r ∈ rows, q = r.cst ∨ q = r.nst := by
  unfold stateList
  rw [(foldl_pushState_inv rows List.nodup_nil).2]
  exact ⟨fun h => h.resolve_left List.not_mem_nil, Or.inr⟩

/-- The number of latches. -/
def natWidth (m : Kiss) : ℕ := ((stateList m.rows).length - 1).log2 + 1

/-- All that `natEnc` counts in `int`s. -/
structure NatInts (m : Kiss) (ns : ℕ) : Prop extends HeaderInts m ns where
  names : (stateList m.rows).length < 2 ^ 31
  nets : m.nPi + m.nPo + natWidth m < 2 ^ 31

/-- The code of a state. -/
def natCode (m : Kiss) (q : List Char) : List Bool :=
  binBits (natWidth m) ((stateList m.rows).idxOf q)

/-- The states have numbers that fit in the width. -/
theorem idxOf_lt_two_pow {m : Kiss} {q : List Char} (hq : q ∈ stateList m.rows) :
    (stateList m.rows).idxOf q < 2 ^ natWidth m := by
  have hlt := List.idxOf_lt_length_iff.mpr hq
  have hpow : (stateList m.rows).length - 1 < 2 ^ natWidth m := Nat.lt_log2_self
  omega

theorem natCode_inj {m : Kiss} {q q' : List Char} (hq : q ∈ stateList m.rows)
    (hq' : q' ∈ stateList m.rows) (h : natCode m q = natCode m q') : q = q' :=
  (List.idxOf_inj hq).mp (binBits_inj (idxOf_lt_two_pow hq) (idxOf_lt_two_pow hq') h)

theorem lookup_zip_map {β : Type} (f : ℕ → β) (l : List (List Char)) (a : ℕ) {q : List Char}
    (hq : q ∈ l) :
    (l.zip ((List.range' a l.length).map f)).lookup q = some (f (a + l.idxOf q)) := by
  induction l generalizing a with
  | nil => exact absurd hq List.not_mem_nil
  | cons x l ih =>
      rw [List.length_cons, List.range'_succ, List.map_cons, List.zip_cons_cons, List.lookup_cons]
      by_cases hx : q = x
      · rw [beq_iff_eq.mpr hx, hx, List.idxOf_cons_self]
        rfl
      · rw [beq_eq_false_iff_ne.mpr hx]
        show List.lookup q (l.zip ((List.range' (a + 1) l.length).map f)) = _
        rw [ih (a + 1) ((List.mem_cons.mp hq).resolve_left hx),
          List.idxOf_cons_ne _ (Ne.symm hx), Nat.add_right_comm, Nat.add_assoc]

/-- The codes as the encoder lists them. -/
def encodeList (m : Kiss) : List (List Char) :=
  (List.range (stateList m.rows).length).map fun i => toBinary i (natWidth m)

theorem codeOf_eq {m : Kiss} {q : List Char} (hq : q ∈ stateList m.rows) :
    codeOf (stateList m.rows) (encodeList m) q = some ((natCode m q).map bitChar) := by
  unfold codeOf encodeList
  rw [List.range_eq_range', lookup_zip_map _ _ _ hq, Nat.zero_add, natCode,
    toBinary_eq (idxOf_lt_two_pow hq)]

/-- A code in the list for a state is the one of its number. -/
theorem mem_zip_encodeList {m : Kiss} {p : List Char × List Char}
    (hp : p ∈ (stateList m.rows).zip (encodeList m)) : p.2 = (natCode m p.1).map bitChar := by
  obtain ⟨i, hi⟩ := List.mem_iff_getElem?.mp hp
  obtain ⟨h₁, h₂⟩ := List.getElem?_zip_eq_some.mp hi
  obtain ⟨hlt, hp₁⟩ := List.getElem?_eq_some_iff.mp h₁
  have hidx : (stateList m.rows).idxOf p.1 = i := by
    rw [← hp₁, (nodup_stateList m.rows).idxOf_getElem]
  rw [encodeList, List.getElem?_map, List.getElem?_range hlt] at h₂
  rw [natCode, hidx, ← toBinary_eq (hidx ▸ idxOf_lt_two_pow (hp₁ ▸ List.getElem_mem hlt))]
  exact (Option.some.inj h₂).symm

/-! ## The netlist -/

/-- A cover of cubes, with a row of dashes for none. -/
def coverOf (ins : List (List Char)) (out : List Char) (cubes : List (List Char)) :
    Blif.Names (List Char) :=
  ⟨ins, out, if cubes = [] then [(List.replicate ins.length '-', '0')]
    else cubes.map fun q => (q, '1')⟩

theorem natCover_eq (p : TransRow → Bool) (cube : TransRow → List Char) {table : List TransRow}
    {row : TransRow → Option (Option (List Char × Char))}
    (h : ∀ r ∈ table, row r = some (if p r then some (cube r, '1') else none))
    (ins : List (List Char)) (out : List Char) :
    natCover table ins out row = some (coverOf ins out ((table.filter p).map cube)) := by
  have hred : (table.map fun r => if p r then some (cube r, '1') else none).reduceOption =
      ((table.filter p).map cube).map fun q => (q, '1') := by
    clear h
    induction table with
    | nil => rfl
    | cons r table ih =>
        rw [List.map_cons]
        by_cases hp : p r
        · rw [if_pos hp, List.filter_cons_of_pos hp, List.map_cons, List.map_cons, ← ih]
          rfl
        · rw [if_neg hp, List.filter_cons_of_neg hp, ← ih]
          rfl
  unfold natCover coverOf
  rw [mapM_eq_map h]
  show some _ = _
  rw [hred]
  simp

/-- The netlist that `natEnc` writes for a machine. -/
def natBlif (m : Kiss) (dcVal : Bool) : Blif (List Char) :=
  let io_sum := m.nPi + m.nPo
  let ins := (List.range m.nPi).map vNet ++
    (List.range (natWidth m)).map fun k => vNet (io_sum + k)
  ⟨(List.range m.nPi).map vNet, (List.range m.nPo).map fun o => vNet (m.nPi + o),
    (List.range (natWidth m)).map fun k =>
      ⟨brNet (io_sum + k), vNet (io_sum + k), bitChar ((natCode m m.reset)[k]?.getD false)⟩,
    ((List.range (natWidth m)).map fun k => coverOf ins (brNet (io_sum + k))
        ((nextRows m (natCode m) k).map (rowCube (natCode m)))) ++
      (List.range m.nPo).map fun o => coverOf ins (vNet (m.nPi + o))
        ((outRows m dcVal o).map (rowCube (natCode m)))⟩

theorem nextRow_eq {m : Kiss} {k : ℕ} (hk : k < natWidth m) {r : TransRow}
    (hcst : r.cst ∈ stateList m.rows) (hnst : r.nst ∈ stateList m.rows) :
    nextRow (stateList m.rows) (encodeList m) k r =
      some (if (natCode m r.nst)[k]? = some true then some (rowCube (natCode m) r, '1')
        else none) := by
  have hk' : k < (natCode m r.nst).length := by rwa [natCode, length_binBits]
  have hbit : ((natCode m r.nst).map bitChar)[k]? = some (bitChar (natCode m r.nst)[k]) := by
    rw [List.getElem?_map, List.getElem?_eq_getElem hk']
    rfl
  have hany : ((stateList m.rows).zip (encodeList m)).any
      (fun p => p.1 = r.nst ∧ p.2[k]? = some '0') = true ↔ (natCode m r.nst)[k] = false := by
    rw [List.any_eq_true]
    constructor
    · rintro ⟨p, hp, h⟩
      obtain ⟨h₁, h₂⟩ := of_decide_eq_true h
      rw [mem_zip_encodeList hp, h₁, hbit] at h₂
      revert h₂
      cases (natCode m r.nst)[k] <;> simp [bitChar]
    · intro h
      have hlook := codeOf_eq hnst
      rw [codeOf, List.lookup_eq_some_iff] at hlook
      obtain ⟨l₁, l₂, heq, -⟩ := hlook
      refine ⟨(r.nst, (natCode m r.nst).map bitChar), by rw [heq]; simp, ?_⟩
      rw [decide_eq_true_eq]
      exact ⟨rfl, by rw [hbit, h]; rfl⟩
  unfold nextRow
  cases hb : (natCode m r.nst)[k] with
  | false =>
      rw [if_pos (hany.mpr hb), if_neg (by simp [List.getElem?_eq_getElem hk', hb])]
  | true =>
      rw [if_neg (by rw [hany, hb]; simp), codeOf_eq hcst, codeOf_eq hnst,
        if_pos (by simp [List.getElem?_eq_getElem hk', hb])]
      show (((natCode m r.nst).map bitChar)[k]?.bind fun c =>
        if c = '1' then some (some (rowCube (natCode m) r, c)) else none) = _
      rw [hbit, hb]
      rfl

theorem outRow_eq {m : Kiss} {o : ℕ} {r : TransRow} (ho : o < r.output.length)
    (hchar : ∀ c ∈ r.output, c = '0' ∨ c = '1') (hcst : r.cst ∈ stateList m.rows) :
    outRow (stateList m.rows) (encodeList m) o r =
      some (if r.output[o]? = some '1' then some (rowCube (natCode m) r, '1') else none) := by
  unfold outRow strAt
  rw [if_neg (Nat.ne_of_lt ho), List.getElem?_eq_getElem ho]
  rcases hchar _ (List.getElem_mem ho) with h | h
  · rw [h]
    rfl
  · rw [h, codeOf_eq hcst]
    rfl

section Machine

variable {m : Kiss} (hm : m.Ok) (hreset : ∃ r ∈ m.rows, m.reset = r.cst ∨ m.reset = r.nst)

include hreset in
theorem mem_stateList {q : List Char} (hq : m.IsState q) : q ∈ stateList m.rows := by
  rw [mem_stateList_iff]
  exact hq.elim (fun h => h ▸ hreset) id

/-! The table has the rows of the file with `-` read in the output column. -/

include hreset in
theorem natCover_next (dcVal : Bool) {k : ℕ} (hk : k < natWidth m) (ins : List (List Char))
    (out : List Char) :
    natCover (m.rows.map (tableRow dcVal)) ins out
        (nextRow (stateList m.rows) (encodeList m) k) =
      some (coverOf ins out ((nextRows m (natCode m) k).map (rowCube (natCode m)))) := by
  rw [natCover_eq (fun r => (natCode m r.nst)[k]? = some true) (rowCube (natCode m))]
  · rw [nextRows, List.filter_map, List.map_map]
    rfl
  · intro r hr
    obtain ⟨r', hr', rfl⟩ := List.mem_map.mp hr
    rw [nextRow_eq (r := tableRow dcVal r') hk
      (mem_stateList hreset (Or.inr ⟨r', hr', Or.inl rfl⟩))
      (mem_stateList hreset (Or.inr ⟨r', hr', Or.inr rfl⟩))]
    simp

include hm hreset in
theorem natCover_out (dcVal : Bool) {o : ℕ} (ho : o < m.nPo) (ins : List (List Char))
    (out : List Char) :
    natCover (m.rows.map (tableRow dcVal)) ins out
        (outRow (stateList m.rows) (encodeList m) o) =
      some (coverOf ins out ((outRows m dcVal o).map (rowCube (natCode m)))) := by
  rw [natCover_eq (fun r => r.output[o]? = some '1') (rowCube (natCode m))]
  · rw [outRows, List.filter_map, List.map_map]
    rfl
  · intro r hr
    obtain ⟨r', hr', rfl⟩ := List.mem_map.mp hr
    obtain ⟨hlen, hchar⟩ := hm.output r' hr'
    rw [outRow_eq (r := tableRow dcVal r') (by simpa [tableRow, hlen] using ho) ?_
      (mem_stateList hreset (Or.inr ⟨r', hr', Or.inl rfl⟩))]
    · simp
    · intro c hc
      obtain ⟨d, hd, rfl⟩ := List.mem_map.mp hc
      rcases hchar d hd with rfl | rfl | rfl <;> cases dcVal <;> simp [readDc]

include hm hreset in
theorem natEnc_eq {ns : ℕ} (hints : NatInts m ns) {text : List Char} (ht : NatText m ns text)
    (dcVal : Bool) {fuel : ℕ} (hfuel : (words text).length < fuel) :
    natEnc fuel text dcVal = some (natBlif m dcVal) := by
  have hpos : 0 < (stateList m.rows).length :=
    List.length_pos_of_mem (mem_stateList hreset (Or.inl rfl))
  have hbnum : bnumLoop fuel ((stateList m.rows).length - 1 : ℤ) 0 = some (natWidth m) := by
    have hlt : (stateList m.rows).length - 1 < fuel := by
      have hle := length_stateList_le m.rows
      have hrows : 2 * m.rows.length ≤ (words text).length := by
        obtain ⟨ws, rest, -, h⟩ := ht
        have hflat : (m.rows.flatMap rowWords).length = 4 * m.rows.length := by
          rw [List.length_flatMap]
          simp [rowWords, Nat.mul_comm]
        rw [h, List.length_append, List.length_append, hflat]
        omega
      omega
    rw [← Nat.cast_pred hpos, bnumLoop_spec hlt, Nat.zero_add]
    rfl
  have hlatch : (List.range (natWidth m)).mapM (fun k => do
      let c ← strAt ((codeOf (stateList m.rows) (encodeList m) m.reset).getD []) k
      return (⟨brNet (m.nPi + m.nPo + k), vNet (m.nPi + m.nPo + k), c⟩ : Blif.Latch (List Char))) =
      some (natBlif m dcVal).latches := by
    refine mapM_eq_map fun k hk => ?_
    have hk' : k < (natCode m m.reset).length := by
      rw [natCode, length_binBits]
      exact List.mem_range.mp hk
    rw [codeOf_eq (mem_stateList hreset (Or.inl rfl)), Option.getD_some, strAt,
      if_neg (by simpa using Nat.ne_of_lt hk'), List.getElem?_map,
      List.getElem?_eq_getElem hk']
    rfl
  obtain ⟨state_list, hread, hlist⟩ := natRead_spec hints.toHeaderInts ht dcVal hfuel
  rw [hlist hints.names] at hread
  refine Option.bind_eq_some_iff.mpr ⟨_, hread, ?_⟩
  refine Option.bind_eq_some_iff.mpr ⟨_, hbnum, ?_⟩
  refine (if_pos ⟨hints.names, hints.nets⟩).trans ?_
  refine Option.bind_eq_some_iff.mpr ⟨_, hlatch, ?_⟩
  refine Option.bind_eq_some_iff.mpr ⟨_, mapM_eq_map fun k hk =>
    natCover_next hreset dcVal (List.mem_range.mp hk) _ _, ?_⟩
  exact Option.bind_eq_some_iff.mpr ⟨_, mapM_eq_map fun o ho =>
    natCover_out hm hreset dcVal (List.mem_range.mp ho) _ _, rfl⟩

theorem vNet_inj {i j : ℕ} (h : vNet i = vNet j) : i = j := toDigits_inj (List.cons.inj h).2

theorem brNet_inj {i j : ℕ} (h : brNet i = brNet j) : i = j :=
  toDigits_inj (List.append_left_injective _ (List.cons.inj h).2)

theorem vNet_ne_brNet (i j : ℕ) : vNet i ≠ brNet j := by
  intro h
  exact absurd (List.cons.inj h).1 (by decide)

/-- A cover as the encoder writes it is one of the forms of a sum of cubes. -/
theorem covers_coverOf {b : Blif (List Char)} {ins : List (List Char)} {out : List Char}
    {cubes : List (List Char)} (h : coverOf ins out cubes ∈ b.names) : b.Covers out ins cubes := by
  unfold coverOf at h
  by_cases hc : cubes = []
  · rw [if_pos hc] at h
    exact Or.inr ⟨hc, Or.inl h⟩
  · rw [if_neg hc] at h
    exact Or.inl h

include hreset in
theorem natBlif_encodes (dcVal : Bool) :
    Encodes m dcVal (natBlif m dcVal) vNet (fun o => vNet (m.nPi + o))
      (fun k => vNet (m.nPi + m.nPo + k)) (fun k => brNet (m.nPi + m.nPo + k)) (natWidth m)
      (natCode m) where
  inputs := rfl
  outputs := rfl
  latches := rfl
  length := fun _ _ => length_binBits _ _
  inj := fun _ _ hq hq' => natCode_inj (mem_stateList hreset hq) (mem_stateList hreset hq')
  next := fun k hk => covers_coverOf
    (List.mem_append_left _ (List.mem_map.mpr ⟨k, List.mem_range.mpr hk, rfl⟩))
  out := fun o ho => covers_coverOf
    (List.mem_append_right _ (List.mem_map.mpr ⟨o, List.mem_range.mpr ho, rfl⟩))

include hreset in
theorem natBlif_twoLevel (dcVal : Bool) : (natBlif m dcVal).TwoLevel := by
  have hv : ∀ a n : ℕ, ((List.range n).map fun k => vNet (a + k)).Nodup := fun a n =>
    List.nodup_range.map fun _ _ h => Nat.add_left_cancel (vNet_inj h)
  have hbr : ∀ a n : ℕ, ((List.range n).map fun k => brNet (a + k)).Nodup := fun a n =>
    List.nodup_range.map fun _ _ h => Nat.add_left_cancel (brNet_inj h)
  have hv_br : ∀ (a n a' n' : ℕ), List.Disjoint ((List.range n).map fun k => vNet (a + k))
      ((List.range n').map fun k => brNet (a' + k)) := by
    intro a n a' n' x hx hx'
    obtain ⟨k, -, rfl⟩ := List.mem_map.mp hx
    obtain ⟨k', -, h⟩ := List.mem_map.mp hx'
    exact vNet_ne_brNet _ _ h.symm
  have hv_v : ∀ (a n a' n' : ℕ), a + n ≤ a' → List.Disjoint
      ((List.range n).map fun k => vNet (a + k)) ((List.range n').map fun k => vNet (a' + k)) := by
    intro a n a' n' hle x hx hx'
    obtain ⟨k, hk, rfl⟩ := List.mem_map.mp hx
    obtain ⟨k', -, h⟩ := List.mem_map.mp hx'
    have := vNet_inj h
    have := List.mem_range.mp hk
    omega
  have hin : (List.range m.nPi).map vNet = (List.range m.nPi).map fun k => vNet (0 + k) := by
    simp only [Nat.zero_add]
  refine (natBlif_encodes hreset dcVal).twoLevel ?_ ?_ ?_
  · rw [hin, List.nodup_append', List.nodup_append', List.nodup_append']
    refine ⟨hv _ _, ⟨hv _ _, ⟨hv _ _, hbr _ _, hv_br _ _ _ _⟩, ?_⟩, ?_⟩
    · refine List.disjoint_append_right.mpr ⟨fun x hx hx' => ?_, hv_br _ _ _ _⟩
      exact hv_v _ _ _ _ (le_refl _) hx' hx
    · refine List.disjoint_append_right.mpr ⟨hv_v _ _ _ _ (by omega), ?_⟩
      exact List.disjoint_append_right.mpr ⟨hv_v _ _ _ _ (by omega), hv_br _ _ _ _⟩
  · have hout : (natBlif m dcVal).names.map Blif.Names.out =
        ((List.range (natWidth m)).map fun k => brNet (m.nPi + m.nPo + k)) ++
          (List.range m.nPo).map fun o => vNet (m.nPi + o) := by
      simp only [natBlif, List.map_append, List.map_map]
      rfl
    rw [hout, List.nodup_append']
    exact ⟨hbr _ _, hv _ _, (hv_br _ _ _ _).symm⟩
  · intro c hc
    rcases List.mem_append.mp hc with hc | hc <;> obtain ⟨k, hk, rfl⟩ := List.mem_map.mp hc
    · exact ⟨rfl, List.mem_append_right _ (List.mem_map.mpr ⟨k, hk, rfl⟩)⟩
    · exact ⟨rfl, List.mem_append_left _ (List.mem_map.mpr ⟨k, hk, rfl⟩)⟩

end Machine

/-- When the counts are `int`s, `natEnc` simulates the machine of its file: it ends, the states
(with `*`) have distinct codes of one width, and on every word that is defined from reset the
latches hold the code of the current state and the outputs are those of the row taken. -/
theorem natEnc_simulates {m : Kiss} (hm : m.Ok)
    (hreset : ∃ r ∈ m.rows, m.reset = r.cst ∨ m.reset = r.nst) {ns : ℕ} (hints : NatInts m ns)
    {text : List Char} (ht : NatText m ns text) (dcVal : Bool) :
    ∃ b, (∀ fuel > (words text).length, natEnc fuel text dcVal = some b) ∧
      b.latches.length = natWidth m ∧
      (∀ q, m.IsState q → (natCode m q).length = natWidth m) ∧
      (∀ q q', m.IsState q → m.IsState q' → natCode m q = natCode m q' → q = q') ∧
      Simulates m dcVal b (natCode m) := by
  have he := natBlif_encodes hreset dcVal
  refine ⟨natBlif m dcVal, fun fuel hfuel => natEnc_eq hm hreset hints ht dcVal hfuel, ?_,
    he.length, he.inj, he.simulates hm (natBlif_twoLevel hreset dcVal)⟩
  rw [he.latches, List.length_map, List.length_range]

theorem sampleKiss_ints {ns : ℕ} (h : ns < 2 ^ 31) : NatInts sampleKiss ns :=
  ⟨⟨by decide, by decide, by decide, h⟩, by decide, by decide⟩

/-- A file with the keywords in another order and with a comment. -/
def natText (ns : List Char) : List Char :=
  "# A B *\n.r A\n.p 3\n.i 1\n.o 1\n.s ".toList ++ ns ++
    "\n0 A B -\n1 A A 0\n- B * 1\n.e\n".toList

theorem natText_ok {w : List Char} {ns : ℕ} (hw : Numeral w ns)
    (hwords : words (natText w) = "# A B * .r A .p 3 .i 1 .o 1 .s".toList.splitOn ' ' ++ w ::
      "0 A B - 1 A A 0 - B * 1 .e".toList.splitOn ' ') : NatText sampleKiss ns (natText w) := by
  refine ⟨["#".toList, "A".toList, "B".toList, "*".toList, ".r".toList, "A".toList, ".p".toList,
    "3".toList, ".i".toList, "1".toList, ".o".toList, "1".toList, ".s".toList, w],
    [".e".toList], ?_, hwords⟩
  have hne : keys.Nonempty := ⟨.i, mem_keys .i⟩
  refine .comment hne (by rintro (_ | _) <;> decide) (.comment hne (by rintro (_ | _) <;> decide)
    (.comment hne (by rintro (_ | _) <;> decide) (.comment hne (by rintro (_ | _) <;> decide) ?_)))
  exact .key .r (by decide) rfl (.key .p (by decide) (numeral_digit '3' rfl) (.key .i (by decide)
    (numeral_digit '1' rfl) (.key .o (by decide) (numeral_digit '1' rfl) (.key .s (by decide)
      hw .done))))

theorem natEnc_sample :
    ∃ b, (∀ fuel > (words (natText ['3'])).length, natEnc fuel (natText ['3']) true = some b) ∧
      b.latches.length = natWidth sampleKiss ∧
      (∀ q, sampleKiss.IsState q → (natCode sampleKiss q).length = natWidth sampleKiss) ∧
      (∀ q q', sampleKiss.IsState q → sampleKiss.IsState q' →
        natCode sampleKiss q = natCode sampleKiss q' → q = q') ∧
      Simulates sampleKiss true b (natCode sampleKiss) :=
  natEnc_simulates sampleKiss_ok ⟨_, List.mem_cons_self, Or.inl rfl⟩ (sampleKiss_ints (by decide))
    (natText_ok (numeral_digit '3' rfl) (by decide)) true

/-- A number of states that is no `int` fails the stream, and no row is read. -/
theorem natEnc_fails :
    sampleKiss.Ok ∧ (∃ r ∈ sampleKiss.rows, sampleKiss.reset = r.cst ∨ sampleKiss.reset = r.nst) ∧
      NatText sampleKiss 99999999999 (natText "99999999999".toList) ∧
      ¬∃ b, (∀ fuel > (words (natText "99999999999".toList)).length,
          natEnc fuel (natText "99999999999".toList) true = some b) ∧
        Simulates sampleKiss true b (natCode sampleKiss) := by
  refine ⟨sampleKiss_ok, ⟨_, List.mem_cons_self, Or.inl rfl⟩,
    natText_ok (numeral_toDigits 99999999999) (by decide), ?_⟩
  rintro ⟨b, hb, hsim⟩
  have hone : (natEnc 100 (natText "99999999999".toList) true).map (·.latches.length) = some 1 := by
    decide
  rw [hb 100 (by decide), Option.map_some] at hone
  obtain ⟨⟨env, hrun⟩, hstep⟩ := hsim (fun _ _ => false) [] fun _ _ h => by cases h
  have hlen := congrArg List.length ((hstep env hrun).1 0 le_rfl)
  rw [List.length_map, Option.some.inj hone] at hlen
  exact absurd hlen (by decide)

end ExtFolding.Misc
