import ExtFolding.Misc.HotRead
import Mathlib.Data.List.ReduceOption

/-!
# `misc/oneHotEnc.cpp`: one-hot encoding

One latch for each state. The rows are collected by next state and by output in parallel vectors,
and every nonempty entry becomes a cover; a net without a cover is constant 0.
-/

namespace ExtFolding.Misc

open ExtFolding.Text ExtFolding.Utils

/-! ## The encoder -/

structure HotVecs where
  ncVec : List (List ℕ)
  niVec : List (List (List Char))
  ocVec : List (List ℕ)
  oiVec : List (List (List Char))

/-- `v[k].push_back(a)` -/
def pushAt {α : Type} (v : List (List α)) (k : ℕ) (a : α) : Option (List (List α)) :=
  if k < v.length then some (v.modify k (· ++ [a])) else none

/-- What one row adds to the vectors. -/
def hotFillRow (no : ℕ) (dcVal : Bool) (v : HotVecs) (r : HotRow) : Option HotVecs := do
  let ncVec ← pushAt v.ncVec r.y r.x
  let niVec ← pushAt v.niVec r.y r.input
  let (ocVec, oiVec) ← (List.range no).foldlM (fun o j =>
    if r.output[j]? = some '1' ∨ dcVal ∧ r.output[j]? = some '-' then do
      return (← pushAt o.1 j r.x, ← pushAt o.2 j r.input)
    else some o) (v.ocVec, v.oiVec)
  return ⟨ncVec, niVec, ocVec, oiVec⟩

def hotFill (f : HotInput) (dcVal : Bool) : Option HotVecs :=
  f.rows.foldlM (hotFillRow f.no dcVal)
    ⟨List.replicate f.ns [], List.replicate f.ns [], List.replicate f.no [], List.replicate f.no []⟩

/-- The net `<ch><i>`. -/
def hotNet (ch : Char) (i : ℕ) : List Char := ch :: Nat.toDigits 10 i

/-- The rows of the one-hot codes. -/
def sMap (ns : ℕ) : List (List Char) :=
  (List.range ns).map fun i => (List.replicate ns '0').set i '1'

/-- The cover of a net from its entries in the two vectors; none for an empty entry. -/
def hotCover (ns : ℕ) (ins : List (List Char)) (out : List Char) (inputs : List (List Char))
    (states : List ℕ) : Option (Option (Blif.Names (List Char))) :=
  if inputs.length = states.length then
    if inputs.length = 0 then some none
    else do
      let rows ← (inputs.zip states).mapM fun p => do return (p.1 ++ (← (sMap ns)[p.2]?), '1')
      return some ⟨ins, out, rows⟩
  else none

def hotWrite (f : HotInput) (v : HotVecs) : Option (Blif (List Char)) := do
  let latches ← (List.range f.ns).mapM fun i => do
    let c ← (← (sMap f.ns)[f.rst]?)[i]?
    return (⟨hotNet 'n' i, hotNet 'c' i, c⟩ : Blif.Latch (List Char))
  let ins := (List.range f.ni).map (hotNet 'i') ++ (List.range f.ns).map (hotNet 'c')
  let outs ← (List.range f.no).mapM fun i => do
    hotCover f.ns ins (hotNet 'o' i) (← v.oiVec[i]?) (← v.ocVec[i]?)
  let next ← (List.range f.ns).mapM fun i => do
    hotCover f.ns ins (hotNet 'n' i) (← v.niVec[i]?) (← v.ncVec[i]?)
  return ⟨(List.range f.ni).map (hotNet 'i'), (List.range f.no).map (hotNet 'o'), latches,
    (outs ++ next).reduceOption⟩

/-- `oneHotEnc`; the loop over the comment lines takes at most `fuel` rounds. -/
def oneHotEnc (fuel : ℕ) (text : List Char) (dcVal : Bool) : Option (Blif (List Char)) := do
  let f ← hotRead fuel text
  hotWrite f (← hotFill f dcVal)

/-! ## The vectors -/

theorem pushAt_range {α : Type} {f : ℕ → List α} {n k : ℕ} (hk : k < n) (a : α) :
    pushAt ((List.range n).map f) k a =
      some ((List.range n).map fun i => if k = i then f i ++ [a] else f i) := by
  unfold pushAt
  rw [if_pos (by simpa using hk)]
  congr 1
  refine List.ext_getElem (by simp) fun i h₁ h₂ => ?_
  rw [List.getElem_modify, List.getElem_map, List.getElem_map, List.getElem_range]

/-- The rows that set output `j`. -/
def HotRow.sets (dcVal : Bool) (j : ℕ) (r : HotRow) : Bool :=
  r.output[j]? = some '1' ∨ dcVal ∧ r.output[j]? = some '-'

/-- The vectors after `rows`: by next state and by output, in the order of the rows. -/
def hotVecs (ns no : ℕ) (dcVal : Bool) (rows : List HotRow) : HotVecs :=
  ⟨(List.range ns).map fun k => (rows.filter fun r => r.y = k).map HotRow.x,
    (List.range ns).map fun k => (rows.filter fun r => r.y = k).map HotRow.input,
    (List.range no).map fun j => (rows.filter (HotRow.sets dcVal j)).map HotRow.x,
    (List.range no).map fun j => (rows.filter (HotRow.sets dcVal j)).map HotRow.input⟩

theorem filter_append_map {α β : Type} (p : α → Bool) (g : α → β) (l : List α) (a : α) :
    ((l ++ [a]).filter p).map g =
      if p a then (l.filter p).map g ++ [g a] else (l.filter p).map g := by
  rw [List.filter_append, List.map_append]
  by_cases h : p a <;> simp [h]

/-- One entry is pushed when output `n` is set. -/
theorem pushAt_output {β : Type} (g : HotRow → β) {no n : ℕ} (hn : n < no) (dcVal : Bool)
    (rows : List HotRow) {r : HotRow} (hr : r.sets dcVal n = true) :
    pushAt ((List.range no).map fun j =>
        ((if j < n then rows ++ [r] else rows).filter (HotRow.sets dcVal j)).map g) n (g r) =
      some ((List.range no).map fun j =>
        ((if j < n + 1 then rows ++ [r] else rows).filter (HotRow.sets dcVal j)).map g) := by
  rw [pushAt_range hn]
  congr 2
  funext j
  rcases Nat.lt_trichotomy j n with h | rfl | h
  · rw [if_neg (Nat.ne_of_gt h), if_pos h, if_pos (Nat.lt_succ_of_lt h)]
  · rw [if_pos rfl, if_neg (Nat.lt_irrefl j), if_pos (Nat.lt_succ_self j), filter_append_map,
      if_pos hr]
  · rw [if_neg (Nat.ne_of_lt h), if_neg (Nat.lt_asymm h), if_neg (Nat.not_lt_of_le h)]

/-- The inner loop over the outputs of a row, up to output `n`. -/
theorem hotOutputs_spec {no : ℕ} (dcVal : Bool) (rows : List HotRow) (r : HotRow) {n : ℕ}
    (hn : n ≤ no) :
    (List.range n).foldlM (fun o j =>
        if r.output[j]? = some '1' ∨ dcVal ∧ r.output[j]? = some '-' then do
          return (← pushAt o.1 j r.x, ← pushAt o.2 j r.input)
        else some o)
      ((List.range no).map fun j => (rows.filter (HotRow.sets dcVal j)).map HotRow.x,
        (List.range no).map fun j => (rows.filter (HotRow.sets dcVal j)).map HotRow.input) =
    some ((List.range no).map fun j =>
        ((if j < n then rows ++ [r] else rows).filter (HotRow.sets dcVal j)).map HotRow.x,
      (List.range no).map fun j =>
        ((if j < n then rows ++ [r] else rows).filter (HotRow.sets dcVal j)).map HotRow.input) := by
  induction n with
  | zero => simp
  | succ n ih =>
      rw [List.range_succ, List.foldlM_append, ih (Nat.le_of_succ_le hn)]
      show (if _ then _ else _ : Option _) >>= pure = _
      rw [bind_pure]
      by_cases hr : r.output[n]? = some '1' ∨ dcVal ∧ r.output[n]? = some '-'
      · have hset : r.sets dcVal n = true := decide_eq_true hr
        rw [if_pos hr, pushAt_output HotRow.x hn dcVal rows hset,
          pushAt_output HotRow.input hn dcVal rows hset]
        rfl
      · have hset : ¬ r.sets dcVal n = true := fun h => hr (of_decide_eq_true h)
        have hkeep : ∀ {β : Type} (g : HotRow → β) (j : ℕ),
            ((if j < n then rows ++ [r] else rows).filter (HotRow.sets dcVal j)).map g =
              ((if j < n + 1 then rows ++ [r] else rows).filter (HotRow.sets dcVal j)).map g := by
          intro β g j
          rcases Nat.lt_trichotomy j n with h | rfl | h
          · rw [if_pos h, if_pos (Nat.lt_succ_of_lt h)]
          · rw [if_neg (Nat.lt_irrefl j), if_pos (Nat.lt_succ_self j), filter_append_map,
              if_neg hset]
          · rw [if_neg (Nat.lt_asymm h), if_neg (Nat.not_lt_of_le h)]
        rw [if_neg hr]
        simp only [hkeep]

theorem hotFillRow_spec {ns no : ℕ} (dcVal : Bool) (rows : List HotRow) {r : HotRow}
    (hy : r.y < ns) :
    hotFillRow no dcVal (hotVecs ns no dcVal rows) r =
      some (hotVecs ns no dcVal (rows ++ [r])) := by
  have hfn : ∀ {β : Type} (g : HotRow → β),
    (fun k => ((rows ++ [r]).filter fun r => r.y = k).map g) =
      fun k => if r.y = k then ((rows.filter fun r => r.y = k).map g) ++ [g r]
        else (rows.filter fun r => r.y = k).map g := by
    intro β g
    funext k
    rw [filter_append_map]
    exact if_congr decide_eq_true_iff rfl rfl
  unfold hotFillRow
  refine Option.bind_eq_some_iff.mpr ⟨_, pushAt_range hy _, ?_⟩
  refine Option.bind_eq_some_iff.mpr ⟨_, pushAt_range hy _, ?_⟩
  refine Option.bind_eq_some_iff.mpr ⟨_, hotOutputs_spec dcVal rows r (le_refl no), ?_⟩
  have hall : ∀ {β : Type} (g : HotRow → β), ((List.range no).map fun j =>
      ((if j < no then rows ++ [r] else rows).filter (HotRow.sets dcVal j)).map g) =
      (List.range no).map fun j => ((rows ++ [r]).filter (HotRow.sets dcVal j)).map g :=
    fun g => List.map_congr_left fun j hj => by rw [if_pos (List.mem_range.mp hj)]
  unfold hotVecs
  rw [hall, hall, hfn, hfn]
  rfl

theorem hotFill_spec {f : HotInput} (hf : ∀ r ∈ f.rows, r.y < f.ns) (dcVal : Bool) :
    hotFill f dcVal = some (hotVecs f.ns f.no dcVal f.rows) := by
  obtain ⟨v, hv, rfl⟩ := foldlM_some (f := hotFillRow f.no dcVal)
    (fun pre v => v = hotVecs f.ns f.no dcVal pre) (l := f.rows)
    (by
      rintro pre r post v hl rfl
      exact ⟨_, hotFillRow_spec dcVal pre (hf r (hl ▸ by simp)), rfl⟩) rfl
  rw [← hv]
  unfold hotFill
  congr 1
  simp [hotVecs, List.map_const']

/-! ## Indices -/

theorem pushAt_some {α : Type} {v v' : List (List α)} {k : ℕ} {a : α}
    (h : pushAt v k a = some v') : k < v.length ∧ v'.length = v.length := by
  unfold pushAt at h
  split at h
  · next hk =>
      cases h
      exact ⟨hk, List.length_modify ..⟩
  · cases h

theorem hotFillRow_some {no : ℕ} {dcVal : Bool} {v v' : HotVecs} {r : HotRow}
    (h : hotFillRow no dcVal v r = some v') :
    r.y < v.ncVec.length ∧ v'.ncVec.length = v.ncVec.length := by
  obtain ⟨ncVec, hnc, h⟩ := Option.bind_eq_some_iff.mp h
  obtain ⟨niVec, -, h⟩ := Option.bind_eq_some_iff.mp h
  obtain ⟨⟨ocVec, oiVec⟩, -, h⟩ := Option.bind_eq_some_iff.mp h
  cases h
  exact pushAt_some hnc

/-- Rows that have been collected lead to states that are indices. -/
theorem lt_of_hotFill {f : HotInput} {dcVal : Bool} {v : HotVecs} (h : hotFill f dcVal = some v) :
    ∀ r ∈ f.rows, r.y < f.ns := by
  intro r hr
  obtain ⟨-, hstep⟩ := foldlM_inv (I := fun v : HotVecs => v.ncVec.length = f.ns)
    (fun v r v' hv hrow => (hotFillRow_some hrow).2.trans hv) List.length_replicate h
  obtain ⟨v₁, v₂, hv₁, hrow⟩ := hstep r hr
  exact hv₁ ▸ (hotFillRow_some hrow).1

theorem lt_of_hotCover {ns : ℕ} {ins : List (List Char)} {out : List Char} {rows : List HotRow}
    {c : Option (Blif.Names (List Char))} {r : HotRow} (hr : r ∈ rows)
    (h : hotCover ns ins out (rows.map HotRow.input) (rows.map HotRow.x) = some c) :
    r.x < ns := by
  unfold hotCover at h
  rw [if_pos (by simp), if_neg (by simpa using List.ne_nil_of_mem hr), List.zip_map'] at h
  obtain ⟨cubes, hcubes, -⟩ := Option.bind_eq_some_iff.mp h
  obtain ⟨cube, hcube⟩ := mapM_some_mem hcubes (List.mem_map_of_mem hr)
  obtain ⟨code, hcode, -⟩ := Option.bind_eq_some_iff.mp hcube
  obtain ⟨hlt, -⟩ := List.getElem?_eq_some_iff.mp hcode
  simpa [sMap] using hlt

/-- Rows that have been written start in states that are indices. -/
theorem lt_of_hotWrite {f : HotInput} {dcVal : Bool} {b : Blif (List Char)}
    (h : hotWrite f (hotVecs f.ns f.no dcVal f.rows) = some b) {r : HotRow} (hr : r ∈ f.rows)
    (hy : r.y < f.ns) : r.x < f.ns := by
  obtain ⟨latches, -, h⟩ := Option.bind_eq_some_iff.mp h
  obtain ⟨outs, -, h⟩ := Option.bind_eq_some_iff.mp h
  obtain ⟨next, hnext, -⟩ := Option.bind_eq_some_iff.mp h
  obtain ⟨c, hc⟩ := mapM_some_mem hnext (List.mem_range.mpr hy)
  simp only [hotVecs, List.getElem?_map, List.getElem?_range hy, Option.map_some] at hc
  exact lt_of_hotCover (List.mem_filter.mpr ⟨hr, decide_eq_true rfl⟩) hc

/-! ## The netlist -/

/-- The code with a single one. -/
def hotCode (m : Kiss) (ns : ℕ) (q : List Char) : List Bool :=
  (List.range ns).map fun i => decide (i = (hotStates m).idxOf q)

theorem getElem?_sMap {ns x : ℕ} (hx : x < ns) :
    (sMap ns)[x]? = some ((List.range ns).map fun i => bitChar (decide (i = x))) := by
  unfold sMap
  rw [List.getElem?_map, List.getElem?_range hx, Option.map_some]
  congr 1
  refine List.ext_getElem (by simp) fun i h₁ h₂ => ?_
  rw [List.getElem_set, List.getElem_map, List.getElem_range, List.getElem_replicate]
  by_cases h : x = i
  · rw [if_pos h, decide_eq_true h.symm]
    rfl
  · rw [if_neg h, decide_eq_false (Ne.symm h)]
    rfl

/-- A cover of cubes; none for no cubes. -/
def hotCoverOf (ins : List (List Char)) (out : List Char) (cubes : List (List Char)) :
    Option (Blif.Names (List Char)) :=
  if cubes = [] then none else some ⟨ins, out, cubes.map fun q => (q, '1')⟩

/-- The netlist that `oneHotEnc` writes for a machine. -/
def hotBlif (m : Kiss) (ns : ℕ) (dcVal : Bool) : Blif (List Char) :=
  let ins := (List.range m.nPi).map (hotNet 'i') ++ (List.range ns).map (hotNet 'c')
  ⟨(List.range m.nPi).map (hotNet 'i'), (List.range m.nPo).map (hotNet 'o'),
    (List.range ns).map fun k =>
      ⟨hotNet 'n' k, hotNet 'c' k, bitChar ((hotCode m ns m.reset)[k]?.getD false)⟩,
    (((List.range m.nPo).map fun o => hotCoverOf ins (hotNet 'o' o)
        ((outRows m dcVal o).map (rowCube (hotCode m ns)))) ++
      (List.range ns).map fun k => hotCoverOf ins (hotNet 'n' k)
        ((nextRows m (hotCode m ns) k).map (rowCube (hotCode m ns)))).reduceOption⟩

section Machine

variable {m : Kiss} {ns : ℕ}

theorem mem_hotStates {q : List Char} : q ∈ hotStates m ↔ m.IsState q := by
  unfold hotStates
  rw [(foldl_pushState_inv m.rows (List.nodup_singleton _)).2, List.mem_singleton]
  rfl

variable (hns : (hotStates m).length ≤ ns)

include hns in
theorem hotIdx_lt {q : List Char} (hq : m.IsState q) : (hotStates m).idxOf q < ns :=
  (List.idxOf_lt_length_iff.mpr (mem_hotStates.mpr hq)).trans_le hns

/-- The bit of a code that is set. -/
theorem getElem?_hotCode {q : List Char} {k : ℕ} (hk : k < ns) :
    (hotCode m ns q)[k]? = some (decide (k = (hotStates m).idxOf q)) := by
  unfold hotCode
  rw [List.getElem?_map, List.getElem?_range hk]
  rfl

include hns in
theorem hotCode_inj {q q' : List Char} (hq : m.IsState q)
    (h : hotCode m ns q = hotCode m ns q') : q = q' := by
  have hk := getElem?_hotCode (m := m) (q := q) (hotIdx_lt hns hq)
  rw [h, getElem?_hotCode (hotIdx_lt hns hq), decide_eq_true rfl] at hk
  have heq : (hotStates m).idxOf q = (hotStates m).idxOf q' :=
    of_decide_eq_true (Option.some.inj hk)
  exact (List.idxOf_inj (mem_hotStates.mpr hq)).mp heq

include hns in
theorem hotCover_eq {rows : List TransRow} (hrows : ∀ r ∈ rows, r ∈ m.rows)
    (ins : List (List Char)) (out : List Char) :
    hotCover ns ins out ((rows.map (hotRow (hotStates m))).map HotRow.input)
        ((rows.map (hotRow (hotStates m))).map HotRow.x) =
      some (hotCoverOf ins out (rows.map (rowCube (hotCode m ns)))) := by
  unfold hotCover hotCoverOf
  rw [if_pos (by simp)]
  by_cases hnil : rows = []
  · subst hnil
    rfl
  · rw [if_neg (by simpa using hnil), if_neg (by simpa using hnil), List.map_map, List.map_map,
      List.zip_map']
    refine Option.bind_eq_some_iff.mpr ⟨(rows.map (rowCube (hotCode m ns))).map fun q => (q, '1'),
      ?_, rfl⟩
    rw [List.mapM_map, List.map_map]
    refine mapM_eq_map fun r hr => ?_
    have hx : (hotStates m).idxOf r.cst < ns := hotIdx_lt hns (Or.inr ⟨r, hrows r hr, Or.inl rfl⟩)
    refine Option.bind_eq_some_iff.mpr ⟨_, getElem?_sMap hx, ?_⟩
    rw [Function.comp_apply, rowCube, hotCode, List.map_map]
    rfl

variable (hcol : ∀ r ∈ m.rows, Column m.nPi r.input ∧ Column m.nPo r.output)

theorem filter_nextRows {k : ℕ} (hk : k < ns) :
    (m.rows.map (hotRow (hotStates m))).filter (fun r => r.y = k) =
      (nextRows m (hotCode m ns) k).map (hotRow (hotStates m)) := by
  rw [nextRows, List.filter_map]
  congr 1
  refine List.filter_congr fun r _ => ?_
  rw [getElem?_hotCode hk, Function.comp_apply]
  refine decide_eq_decide.mpr ?_
  rw [Option.some.injEq, decide_eq_true_eq]
  exact eq_comm

include hcol in
theorem filter_outRows (dcVal : Bool) {o : ℕ} (ho : o < m.nPo) :
    (m.rows.map (hotRow (hotStates m))).filter (HotRow.sets dcVal o) =
      (outRows m dcVal o).map (hotRow (hotStates m)) := by
  rw [outRows, List.filter_map]
  congr 1
  refine List.filter_congr fun r hr => ?_
  obtain ⟨hlen, hchar⟩ := (hcol r hr).2
  have ho' : o < r.output.length := hlen ▸ ho
  show decide (r.output[o]? = some '1' ∨ dcVal = true ∧ r.output[o]? = some '-') = _
  rw [List.getElem?_map, List.getElem?_eq_getElem ho']
  rcases hchar _ (List.getElem_mem ho') with h | h | h <;> rw [h] <;> cases dcVal <;> rfl

include hns hcol in
theorem hotCover_out (dcVal : Bool) {o : ℕ} (ho : o < m.nPo) (ins : List (List Char))
    (out : List Char) :
    (do
      let v := hotVecs ns m.nPo dcVal (m.rows.map (hotRow (hotStates m)))
      hotCover ns ins out (← v.oiVec[o]?) (← v.ocVec[o]?)) =
    some (hotCoverOf ins out ((outRows m dcVal o).map (rowCube (hotCode m ns)))) := by
  simp only [hotVecs, List.getElem?_map, List.getElem?_range ho, Option.map_some,
    filter_outRows hcol dcVal ho]
  exact hotCover_eq hns (fun r hr => List.mem_of_mem_filter hr) ins out

include hns in
theorem hotCover_next (dcVal : Bool) {k : ℕ} (hk : k < ns) (ins : List (List Char))
    (out : List Char) :
    (do
      let v := hotVecs ns m.nPo dcVal (m.rows.map (hotRow (hotStates m)))
      hotCover ns ins out (← v.niVec[k]?) (← v.ncVec[k]?)) =
    some (hotCoverOf ins out ((nextRows m (hotCode m ns) k).map (rowCube (hotCode m ns)))) := by
  simp only [hotVecs, List.getElem?_map, List.getElem?_range hk, Option.map_some,
    filter_nextRows hk]
  exact hotCover_eq hns (fun r hr => List.mem_of_mem_filter hr) ins out

include hns hcol in
theorem oneHotEnc_eq {text : List Char} (hints : HeaderInts m ns) (ht : HotText m ns text)
    (dcVal : Bool) {fuel : ℕ} (hfuel : (lines text).length < fuel) :
    oneHotEnc fuel text dcVal = some (hotBlif m ns dcVal) := by
  have hy : ∀ r ∈ m.rows.map (hotRow (hotStates m)), r.y < ns := by
    intro r hr
    obtain ⟨r', hr', rfl⟩ := List.mem_map.mp hr
    exact hotIdx_lt hns (Or.inr ⟨r', hr', Or.inr rfl⟩)
  have hreset : m.IsState m.reset := Or.inl rfl
  have hidx : (hotStates m).idxOf m.reset = 0 := by
    obtain ⟨u, hu⟩ := prefix_foldl_pushState m.rows [m.reset]
    rw [hotStates, ← hu]
    exact List.idxOf_cons_self
  refine Option.bind_eq_some_iff.mpr ⟨_, (hotRead_spec
    (fun r hr => ⟨(hcol r hr).1.1, (hcol r hr).2.1⟩) ht hfuel).mpr ⟨hints, rfl⟩, ?_⟩
  refine Option.bind_eq_some_iff.mpr ⟨_, hotFill_spec hy dcVal, ?_⟩
  refine Option.bind_eq_some_iff.mpr ⟨(hotBlif m ns dcVal).latches, ?_, ?_⟩
  · refine mapM_eq_map fun i hi => ?_
    have hi' := List.mem_range.mp hi
    have hns0 : 0 < ns := hidx ▸ hotIdx_lt hns hreset
    refine Option.bind_eq_some_iff.mpr ⟨_, getElem?_sMap hns0, ?_⟩
    rw [getElem?_hotCode hi', hidx, List.getElem?_map, List.getElem?_range hi']
    rfl
  refine Option.bind_eq_some_iff.mpr ⟨_, mapM_eq_map fun o ho =>
    hotCover_out hns hcol dcVal (List.mem_range.mp ho) _ _, ?_⟩
  exact Option.bind_eq_some_iff.mpr ⟨_, mapM_eq_map fun k hk =>
    hotCover_next hns dcVal (List.mem_range.mp hk) _ _, rfl⟩

theorem hotCoverOf_eq_some {ins : List (List Char)} {out : List Char} {rows : List TransRow}
    {c : Blif.Names (List Char)}
    (h : hotCoverOf ins out (rows.map (rowCube (hotCode m ns))) = some c) :
    c.ins = ins ∧ c.out = out ∧ rows ≠ [] := by
  unfold hotCoverOf at h
  split at h
  · exact absurd h (by simp)
  · next hne =>
      cases h
      exact ⟨rfl, rfl, fun hnil => hne (by rw [hnil]; rfl)⟩

theorem hotNet_inj {ch ch' : Char} {i j : ℕ} (h : hotNet ch i = hotNet ch' j) :
    ch = ch' ∧ i = j := ⟨(List.cons.inj h).1, toDigits_inj (List.cons.inj h).2⟩

theorem mem_hotNets {ch : Char} {n : ℕ} {x : List Char} :
    x ∈ (List.range n).map (hotNet ch) ↔ ∃ i < n, hotNet ch i = x := by
  simp only [List.mem_map, List.mem_range]

/-- The covers are those of nonempty sums, over all inputs and latches. -/
theorem mem_hotBlif_names {dcVal : Bool} {c : Blif.Names (List Char)}
    (hc : c ∈ (hotBlif m ns dcVal).names) :
    c.ins = (List.range m.nPi).map (hotNet 'i') ++ (List.range ns).map (hotNet 'c') ∧
      ((∃ o < m.nPo, c.out = hotNet 'o' o ∧ outRows m dcVal o ≠ []) ∨
        ∃ k < ns, c.out = hotNet 'n' k ∧ nextRows m (hotCode m ns) k ≠ []) := by
  rcases List.mem_append.mp (List.reduceOption_mem_iff.mp hc) with h | h <;>
    obtain ⟨k, hk, heq⟩ := List.mem_map.mp h <;> obtain ⟨hins, hout, hne⟩ := hotCoverOf_eq_some heq
  · exact ⟨hins, Or.inl ⟨k, List.mem_range.mp hk, hout, hne⟩⟩
  · exact ⟨hins, Or.inr ⟨k, List.mem_range.mp hk, hout, hne⟩⟩

/-- A sum of rows is a cover of the netlist, or its net is not driven. -/
theorem covers_hotCoverOf {b : Blif (List Char)} {ins : List (List Char)} {out : List Char}
    {rows : List TransRow}
      (hmem : ∀ c, hotCoverOf ins out (rows.map (rowCube (hotCode m ns))) = some c →
      c ∈ b.names) (hund : rows = [] → b.Undriven out) :
    b.Covers out ins (rows.map (rowCube (hotCode m ns))) := by
  by_cases h : rows = []
  · exact Or.inr ⟨by rw [h]; rfl, Or.inr (hund h)⟩
  · exact Or.inl (hmem _ (if_neg (by simpa using h)))

include hns in
theorem hotBlif_encodes (dcVal : Bool) :
    Encodes m dcVal (hotBlif m ns dcVal) (hotNet 'i') (hotNet 'o') (hotNet 'c') (hotNet 'n') ns
      (hotCode m ns) := by
  have hin : ∀ {ch : Char} {k : ℕ}, ch ≠ 'i' → hotNet ch k ∉ (hotBlif m ns dcVal).inputs := by
    intro ch k hch h
    obtain ⟨i, -, hi⟩ := mem_hotNets.mp h
    exact hch (hotNet_inj hi).1.symm
  have hlatch : ∀ {ch : Char} {k : ℕ}, ch ≠ 'c' →
      ∀ l ∈ (hotBlif m ns dcVal).latches, l.output ≠ hotNet ch k := by
    intro ch k hch l hl heq
    obtain ⟨i, -, rfl⟩ := List.mem_map.mp hl
    exact hch (hotNet_inj heq).1.symm
  refine ⟨rfl, rfl, rfl, fun q _ => by simp [hotCode], fun q q' hq _ => hotCode_inj hns hq,
    fun k hk => covers_hotCoverOf (fun c hc => ?_) fun hnil => ?_,
    fun o ho => covers_hotCoverOf (fun c hc => ?_) fun hnil => ?_⟩
  · exact List.reduceOption_mem_iff.mpr (List.mem_append_right _
      (List.mem_map.mpr ⟨k, List.mem_range.mpr hk, hc⟩))
  · refine ⟨hin (by decide), hlatch (by decide), fun c hc heq => ?_⟩
    rcases (mem_hotBlif_names hc).2 with ⟨o, -, hout, -⟩ | ⟨k', -, hout, hne⟩
    · exact absurd (hotNet_inj (hout.symm.trans heq)).1 (by decide)
    · exact hne ((hotNet_inj (hout.symm.trans heq)).2 ▸ hnil)
  · exact List.reduceOption_mem_iff.mpr (List.mem_append_left _
      (List.mem_map.mpr ⟨o, List.mem_range.mpr ho, hc⟩))
  · refine ⟨hin (by decide), hlatch (by decide), fun c hc heq => ?_⟩
    rcases (mem_hotBlif_names hc).2 with ⟨o', -, hout, hne⟩ | ⟨k, -, hout, -⟩
    · exact hne ((hotNet_inj (hout.symm.trans heq)).2 ▸ hnil)
    · exact absurd (hotNet_inj (hout.symm.trans heq)).1 (by decide)

theorem reduceOption_map_sublist {α : Type} {f : α → Option (Blif.Names (List Char))}
    {g : α → List Char} {l : List α} (h : ∀ a ∈ l, ∀ c, f a = some c → c.out = g a) :
    ((l.map f).reduceOption.map Blif.Names.out).Sublist (l.map g) := by
  induction l with
  | nil => exact List.Sublist.refl _
  | cons a l ih =>
      have ih' := ih fun a' ha' => h a' (List.mem_cons_of_mem _ ha')
      rw [List.map_cons, List.map_cons]
      cases hf : f a with
      | none => exact ih'.cons _
      | some c =>
          rw [List.reduceOption_cons_of_some, List.map_cons, h a List.mem_cons_self c hf]
          exact ih'.cons_cons _

include hns in
theorem hotBlif_twoLevel (dcVal : Bool) : (hotBlif m ns dcVal).TwoLevel := by
  have hnd : ∀ (ch : Char) (n : ℕ), ((List.range n).map (hotNet ch)).Nodup := fun ch n =>
    List.nodup_range.map fun _ _ h => (hotNet_inj h).2
  have hdis : ∀ {ch ch' : Char} {n n' : ℕ}, ch ≠ ch' →
      List.Disjoint ((List.range n).map (hotNet ch)) ((List.range n').map (hotNet ch')) := by
    intro ch ch' n n' hne x hx hx'
    obtain ⟨i, -, rfl⟩ := mem_hotNets.mp hx
    obtain ⟨j, -, h⟩ := mem_hotNets.mp hx'
    exact hne (hotNet_inj h).1.symm
  refine (hotBlif_encodes hns dcVal).twoLevel ?_ ?_ fun c hc => ?_
  · rw [List.nodup_append', List.nodup_append', List.nodup_append']
    exact ⟨hnd _ _, ⟨hnd _ _, ⟨hnd _ _, hnd _ _, hdis (by decide)⟩,
      List.disjoint_append_right.mpr ⟨hdis (by decide), hdis (by decide)⟩⟩,
      List.disjoint_append_right.mpr ⟨hdis (by decide),
        List.disjoint_append_right.mpr ⟨hdis (by decide), hdis (by decide)⟩⟩⟩
  · have hout : ((List.range m.nPo).map (hotNet 'o') ++ (List.range ns).map (hotNet 'n')).Nodup :=
      List.nodup_append'.mpr ⟨hnd _ _, hnd _ _, hdis (by decide)⟩
    refine hout.sublist ?_
    rw [hotBlif, List.reduceOption_append, List.map_append]
    exact List.Sublist.append
      (reduceOption_map_sublist fun _ _ _ h => (hotCoverOf_eq_some h).2.1)
      (reduceOption_map_sublist fun _ _ _ h => (hotCoverOf_eq_some h).2.1)
  · obtain ⟨hins, h⟩ := mem_hotBlif_names hc
    refine ⟨hins, List.mem_append.mpr (h.imp ?_ ?_)⟩
    · rintro ⟨o, ho, hout, -⟩
      exact mem_hotNets.mpr ⟨o, ho, hout.symm⟩
    · rintro ⟨k, hk, hout, -⟩
      exact mem_hotNets.mpr ⟨k, hk, hout.symm⟩

include hns in
theorem count_hotCode {q : List Char} (hq : m.IsState q) : (hotCode m ns q).count true = 1 := by
  unfold hotCode
  rw [List.count_eq_countP, List.countP_map]
  rw [← List.count_eq_one_of_mem List.nodup_range (List.mem_range.mpr (hotIdx_lt hns hq)),
    List.count_eq_countP]
  refine List.countP_congr fun i _ => ?_
  simp

end Machine

theorem length_stateList_le_hotStates (m : Kiss) :
    (stateList m.rows).length ≤ (hotStates m).length := by
  refine (List.subperm_of_subset (nodup_stateList m.rows) fun q hq => ?_).length_le
  exact mem_hotStates.mpr (Or.inr (mem_stateList_iff.mp hq))

/-- When the counts of the header are `int`s, `oneHotEnc` simulates the machine of its file: no
index is out of range, on every word that is defined from reset the single latch of the current
state is 1 and the outputs are those of the row taken. So it agrees with `natEnc`. -/
theorem oneHotEnc_simulates {m : Kiss} (hm : m.Ok) {ns : ℕ} (hns : (hotStates m).length ≤ ns)
    (hints : HeaderInts m ns) {text : List Char} (ht : HotText m ns text) (dcVal : Bool) :
    ∃ b, (∀ fuel > (lines text).length, oneHotEnc fuel text dcVal = some b) ∧
      (∀ q, m.IsState q → (hotCode m ns q).length = ns ∧ (hotCode m ns q).count true = 1) ∧
      (∀ q q', m.IsState q → m.IsState q' → hotCode m ns q = hotCode m ns q' → q = q') ∧
      Simulates m dcVal b (hotCode m ns) ∧
      ((∃ r ∈ m.rows, m.reset = r.cst ∨ m.reset = r.nst) →
        m.nPi + m.nPo + natWidth m < 2 ^ 31 →
        ∀ ns₂ < 2 ^ 31, ∀ text₂, NatText m ns₂ text₂ → ∀ fuel₂ > (words text₂).length,
          ∃ b₂, natEnc fuel₂ text₂ dcVal = some b₂ ∧
            ∀ inp rs, m.Takes inp rs → ∀ env env₂, b.Run inp env → b₂.Run inp env₂ →
              ∀ t < rs.length, b.outputs.map (env t) = b₂.outputs.map (env₂ t)) := by
  have he := hotBlif_encodes hns dcVal
  have hsim := he.simulates hm (hotBlif_twoLevel hns dcVal)
  refine ⟨hotBlif m ns dcVal, fun fuel hfuel => oneHotEnc_eq hns hm.columns hints ht dcVal hfuel,
    fun q hq => ⟨he.length q hq, count_hotCode hns hq⟩, he.inj, hsim, ?_⟩
  intro hreset hnets ns₂ hns₂ text₂ ht₂ fuel₂ hfuel₂
  have hints₂ : NatInts m ns₂ := ⟨{ hints with states := hns₂ },
    ((length_stateList_le_hotStates m).trans hns).trans_lt hints.states, hnets⟩
  have hsim₂ := (natBlif_encodes hreset dcVal).simulates hm (natBlif_twoLevel hreset dcVal)
  refine ⟨natBlif m dcVal, natEnc_eq hm hreset hints₂ ht₂ dcVal hfuel₂, ?_⟩
  intro inp rs hrs env env₂ hr hr₂ t htlt
  have hrow : rs[t]? = some rs[t] := List.getElem?_eq_getElem htlt
  have h₁ := ((hsim inp rs hrs).2 env hr).2 t _ hrow
  have h₂ := ((hsim₂ inp rs hrs).2 env₂ hr₂).2 t _ hrow
  have hbit : Function.Injective bitChar := by decide
  refine hbit.list_map ?_
  rw [List.map_map, List.map_map]
  exact h₁.trans h₂.symm

/-- A file that both encoders read. -/
def hotText (ns : List Char) : List Char :=
  "# A B *\n.i 1\n.o 1\n.p 3\n.s ".toList ++ ns ++
    "\n.r A\n0 A B -\n1 A A 0\n- B * 1\n.e\n".toList

theorem hotText_nat : NatText sampleKiss 3 (hotText ['3']) := by
  refine ⟨["#".toList, "A".toList, "B".toList, "*".toList, ".i".toList, "1".toList, ".o".toList,
    "1".toList, ".p".toList, "3".toList, ".s".toList, "3".toList, ".r".toList, "A".toList],
    [".e".toList], ?_, by decide⟩
  have hne : keys.Nonempty := ⟨.i, mem_keys .i⟩
  refine .comment hne (by rintro (_ | _) <;> decide) (.comment hne (by rintro (_ | _) <;> decide)
    (.comment hne (by rintro (_ | _) <;> decide) (.comment hne (by rintro (_ | _) <;> decide) ?_)))
  exact .key .i (by decide) (numeral_digit '1' rfl) (.key .o (by decide) (numeral_digit '1' rfl)
    (.key .p (by decide) (numeral_digit '3' rfl) (.key .s (by decide) (numeral_digit '3' rfl)
      (.key .r (by decide) rfl .done))))

theorem hotText_hot {w : List Char} {ns : ℕ} (hw : Numeral w ns)
    (hlines : lines (hotText w) = "# A B *\n.i 1\n.o 1\n.p 3".toList.splitOn '\n' ++
      (".s ".toList ++ w) :: ".r A\n0 A B -\n1 A A 0\n- B * 1\n.e\n".toList.splitOn '\n')
    (hline : lineTokens (".s ".toList ++ w) = [".s".toList, w]) :
    HotText sampleKiss ns (hotText w) := by
  refine ⟨["# A B *".toList], ["0 A B -".toList, "1 A A 0".toList, "- B * 1".toList], [[]],
    ".i 1".toList, ".o 1".toList, ".p 3".toList, ".s ".toList ++ w, ".r A".toList, ".e".toList,
    hlines, by decide, ⟨"1".toList, by decide, numeral_digit '1' rfl⟩,
    ⟨"1".toList, by decide, numeral_digit '1' rfl⟩, ⟨"3".toList, by decide, numeral_digit '3' rfl⟩,
    ⟨w, hline, hw⟩, ⟨"A".toList, by decide, rfl⟩, ?_, by decide⟩
  exact .cons (by decide) (.cons (by decide) (.cons (by decide) .nil))

theorem oneHotEnc_sample :
    ∃ b b₂, oneHotEnc 100 (hotText ['3']) true = some b ∧
      natEnc 100 (hotText ['3']) true = some b₂ ∧
      Simulates sampleKiss true b (hotCode sampleKiss 3) ∧
      ∀ inp rs, sampleKiss.Takes inp rs → ∀ env env₂, b.Run inp env → b₂.Run inp env₂ →
        ∀ t < rs.length, b.outputs.map (env t) = b₂.outputs.map (env₂ t) := by
  obtain ⟨b, hb, -, -, hsim, hagree⟩ :=
    oneHotEnc_simulates sampleKiss_ok (show (hotStates sampleKiss).length ≤ 3 by decide)
      (sampleKiss_ints (by decide)).toHeaderInts
      (hotText_hot (numeral_digit '3' rfl) (by decide) (by decide)) true
  obtain ⟨b₂, hb₂, hout⟩ := hagree ⟨_, List.mem_cons_self, Or.inl rfl⟩ (by decide) 3 (by decide) _
    hotText_nat 100 (by decide)
  exact ⟨b, b₂, hb 100 (by decide), hb₂, hsim, hout⟩

/-- A number of states that is no `int` is an exception. -/
theorem oneHotEnc_fails :
    sampleKiss.Ok ∧ (hotStates sampleKiss).length ≤ 99999999999 ∧
      HotText sampleKiss 99999999999 (hotText "99999999999".toList) ∧
      ∀ fuel > (lines (hotText "99999999999".toList)).length,
        oneHotEnc fuel (hotText "99999999999".toList) true = none := by
  have ht : HotText sampleKiss 99999999999 (hotText "99999999999".toList) :=
    hotText_hot (numeral_toDigits 99999999999) (by decide) (by decide)
  refine ⟨sampleKiss_ok, by decide, ht, fun fuel hfuel => ?_⟩
  have hread : hotRead fuel (hotText "99999999999".toList) = none := by
    rw [Option.eq_none_iff_forall_not_mem]
    intro f hf
    obtain ⟨hints, -⟩ := (hotRead_spec (fun r hr => ⟨(sampleKiss_ok.input r hr).1,
      (sampleKiss_ok.output r hr).1⟩) ht hfuel).mp hf
    exact absurd hints.states (by decide)
  rw [oneHotEnc, hread]
  rfl

end ExtFolding.Misc
