import ExtFolding.Utils.Kiss

/-!
# Encodings of a machine as a netlist

What `natEnc` and `oneHotEnc` have in common: every state has a code of one width, every next
state bit and every output bit is the sum of the rows that set it, and a row contributes its
input cube followed by the code of its current state. Such a netlist follows the machine.
-/

namespace ExtFolding.Misc

open ExtFolding.Utils

variable {σ : Type}

/-- An output character with `-` read as `dcVal`. -/
def readDc (dcVal : Bool) (c : Char) : Char :=
  if c = '-' then if dcVal then '1' else '0' else c

/-- The rows that set bit `k` of the code of the next state. -/
def nextRows (m : Kiss) (code : List Char → List Bool) (k : ℕ) : List TransRow :=
  m.rows.filter fun r => (code r.nst)[k]? = some true

/-- The rows that set output `o`. -/
def outRows (m : Kiss) (dcVal : Bool) (o : ℕ) : List TransRow :=
  m.rows.filter fun r => (r.output.map (readDc dcVal))[o]? = some '1'

/-- The cube of a row over inputs and state bits. -/
def rowCube (code : List Char → List Bool) (r : TransRow) : List Char :=
  r.input ++ (code r.cst).map bitChar

/-- `b` encodes `m` with codes of width `w`, where `pi`, `po`, `cur` and `nx` name the nets of
inputs, outputs, latch outputs and latch inputs. -/
structure Encodes (m : Kiss) (dcVal : Bool) (b : Blif σ) (pi po cur nx : ℕ → σ) (w : ℕ)
    (code : List Char → List Bool) : Prop where
  inputs : b.inputs = (List.range m.nPi).map pi
  outputs : b.outputs = (List.range m.nPo).map po
  latches : b.latches =
    (List.range w).map fun k => ⟨nx k, cur k, bitChar ((code m.reset)[k]?.getD false)⟩
  length : ∀ q, m.IsState q → (code q).length = w
  inj : ∀ q q', m.IsState q → m.IsState q' → code q = code q' → q = q'
  next : ∀ k < w, b.Covers (nx k) ((List.range m.nPi).map pi ++ (List.range w).map cur)
    ((nextRows m code k).map (rowCube code))
  out : ∀ o < m.nPo, b.Covers (po o) ((List.range m.nPi).map pi ++ (List.range w).map cur)
    ((outRows m dcVal o).map (rowCube code))

/-- The netlist follows the machine on every word that is defined from reset. -/
def Simulates (m : Kiss) (dcVal : Bool) (b : Blif σ) (code : List Char → List Bool) : Prop :=
  ∀ inp rs, m.Takes inp rs → (∃ env, b.Run inp env) ∧ ∀ env, b.Run inp env →
    (∀ t ≤ rs.length, (b.latches.map fun l => env t l.output) = code (m.stateAfter rs t)) ∧
    ∀ (t : ℕ) (r : TransRow), rs[t]? = some r →
      (b.outputs.map fun n => bitChar (env t n)) = r.output.map (readDc dcVal)

namespace Encodes

variable {m : Kiss} {dcVal : Bool} {b : Blif σ} {pi po cur nx : ℕ → σ} {w : ℕ}
  {code : List Char → List Bool} {inp : ℕ → ℕ → Bool} {env : ℕ → σ → Bool}

/-- The latch vector in cycle `t`. -/
theorem latch_map (he : Encodes m dcVal b pi po cur nx w code) (f : σ → Bool) :
    (b.latches.map fun l => f l.output) = (List.range w).map fun k => f (cur k) := by
  rw [he.latches, List.map_map]
  rfl

/-- In state `q` a row counts when it leaves `q` and matches the input. -/
theorem rowCube_holds (he : Encodes m dcVal b pi po cur nx w code) (hm : m.Ok)
    (hr : b.Run inp env) {t : ℕ} {q : List Char} (hq : m.IsState q)
    (hcur : ((List.range w).map fun k => env t (cur k)) = code q) {r : TransRow}
    (hmem : r ∈ m.rows) :
    cubeHolds (rowCube code r)
        (((List.range m.nPi).map pi ++ (List.range w).map cur).map (env t)) = true ↔
      accepts r.input (inp t) = true ∧ r.cst = q := by
  have hpi : ((List.range m.nPi).map pi).map (env t) = (List.range m.nPi).map (inp t) := by
    rw [List.map_map]
    refine List.map_congr_left fun i hi => hr.inputs t i (pi i) ?_
    rw [he.inputs, List.getElem?_map, List.getElem?_range (List.mem_range.mp hi)]
    rfl
  have hst : m.IsState r.cst := Or.inr ⟨r, hmem, Or.inl rfl⟩
  have hlen := (hm.input r hmem).1
  rw [rowCube, List.map_append, hpi, List.map_map, cubeHolds_append (by simpa using hlen),
    Bool.and_eq_true, ← accepts_eq_cubeHolds hlen]
  refine and_congr Iff.rfl ?_
  show cubeHolds ((code r.cst).map bitChar) ((List.range w).map fun k => env t (cur k)) = true ↔ _
  rw [hcur]
  refine (cubeHolds_bits ?_).trans ⟨he.inj _ _ hst hq, fun h => congrArg code h⟩
  rw [he.length _ hst, he.length _ hq]

/-- A sum of rows has the value of the row that the machine takes. -/
theorem covers_value (he : Encodes m dcVal b pi po cur nx w code) (hm : m.Ok)
    (hr : b.Run inp env) {t : ℕ} {q : List Char} (hq : m.IsState q)
    (hcur : ((List.range w).map fun k => env t (cur k)) = code q) {r : TransRow}
    (hmem : r ∈ m.rows) (hst : r.cst = q) (hacc : accepts r.input (inp t) = true) {n : σ}
    {p : TransRow → Bool}
    (hn : b.Covers n ((List.range m.nPi).map pi ++ (List.range w).map cur)
      ((m.rows.filter p).map (rowCube code))) : env t n = p r := by
  rw [hr.covers hn t, List.any_map, Bool.eq_iff_iff, List.any_eq_true]
  constructor
  · rintro ⟨r', hr', hcube⟩
    obtain ⟨hmem', hp⟩ := List.mem_filter.mp hr'
    obtain ⟨hacc', hst'⟩ := (he.rowCube_holds hm hr hq hcur hmem').mp hcube
    rwa [hm.row_unique hmem hmem' (hst.trans hst'.symm) hacc hacc']
  · intro hp
    exact ⟨r, List.mem_filter.mpr ⟨hmem, hp⟩,
      (he.rowCube_holds hm hr hq hcur hmem).mpr ⟨hacc, hst⟩⟩

theorem latch_run (he : Encodes m dcVal b pi po cur nx w code) (hm : m.Ok) (hr : b.Run inp env)
    {rs : List TransRow} (hrs : m.Takes inp rs) (t : ℕ) (ht : t ≤ rs.length) :
    ((List.range w).map fun k => env t (cur k)) = code (m.stateAfter rs t) := by
  have hlatch : ∀ k < w, (⟨nx k, cur k, bitChar ((code m.reset)[k]?.getD false)⟩ : Blif.Latch σ) ∈
      b.latches := fun k hk => he.latches ▸ List.mem_map.mpr ⟨k, List.mem_range.mpr hk, rfl⟩
  induction t with
  | zero =>
      have hlen : (code m.reset).length = w := he.length m.reset (Or.inl rfl)
      refine map_range_eq hlen fun k v hv => ?_
      have hk : k < w := hlen ▸ (List.getElem?_eq_some_iff.mp hv).1
      have hv' : (code m.reset)[k]? = some v := hv
      rw [hr.init _ (hlatch k hk), hv']
      cases v <;> rfl
  | succ t ih =>
      -- the row taken in step `t` decides every bit of the next code
      obtain ⟨r, hrt⟩ : ∃ r : TransRow, rs[t]? = some r := ⟨_, List.getElem?_eq_getElem ht⟩
      obtain ⟨hmem, hst, hacc⟩ := hrs t r hrt
      rw [Kiss.stateAfter_succ hrt]
      have hlen := he.length r.nst (Or.inr ⟨r, hmem, Or.inr rfl⟩)
      refine map_range_eq hlen fun k v hv => ?_
      have hk : k < w := hlen ▸ (List.getElem?_eq_some_iff.mp hv).1
      rw [hr.next t _ (hlatch k hk), he.covers_value hm hr (hrs.isState t)
        (ih (Nat.le_of_succ_le ht)) hmem hst hacc (he.next k hk), hv]
      cases v <;> rfl

theorem out_run (he : Encodes m dcVal b pi po cur nx w code) (hm : m.Ok) (hr : b.Run inp env)
    {rs : List TransRow} (hrs : m.Takes inp rs) {t : ℕ} {r : TransRow} (hrt : rs[t]? = some r) :
    (b.outputs.map fun n => bitChar (env t n)) = r.output.map (readDc dcVal) := by
  obtain ⟨hmem, hst, hacc⟩ := hrs t r hrt
  obtain ⟨hlen, hchar⟩ := hm.output r hmem
  have hcur := he.latch_run hm hr hrs t (List.getElem?_eq_some_iff.mp hrt).1.le
  rw [he.outputs, List.map_map]
  refine map_range_eq (by simpa using hlen) fun o c hc => ?_
  have ho : o < m.nPo := by simpa [hlen] using (List.getElem?_eq_some_iff.mp hc).1
  rw [Function.comp_apply,
    he.covers_value hm hr (hrs.isState t) hcur hmem hst hacc (he.out o ho), hc]
  rw [List.getElem?_map] at hc
  obtain ⟨d, hd, rfl⟩ := Option.map_eq_some_iff.mp hc
  rcases hchar d (List.mem_of_getElem? hd) with rfl | rfl | rfl <;> cases dcVal <;> rfl

/-- With distinct net names the netlist has two levels. -/
theorem twoLevel (he : Encodes m dcVal b pi po cur nx w code)
    (hnets : ((List.range m.nPi).map pi ++ ((List.range w).map cur ++
      ((List.range m.nPo).map po ++ (List.range w).map nx))).Nodup)
    (hout : (b.names.map Blif.Names.out).Nodup)
    (hnames : ∀ c ∈ b.names, c.ins = (List.range m.nPi).map pi ++ (List.range w).map cur ∧
      c.out ∈ (List.range m.nPo).map po ++ (List.range w).map nx) : b.TwoLevel := by
  obtain ⟨hpi, hrest, hpi_rest⟩ := List.nodup_append'.mp hnets
  obtain ⟨hcur, -, hcur_rest⟩ := List.nodup_append'.mp hrest
  have hlatch : b.latches.map Blif.Latch.output = (List.range w).map cur := by
    rw [he.latches, List.map_map]
    rfl
  have hmem : ∀ l ∈ b.latches, l.output ∈ (List.range w).map cur := fun l hl =>
    hlatch ▸ List.mem_map_of_mem hl
  refine ⟨he.inputs ▸ hpi, hlatch ▸ hcur, hout, ?_, ?_, ?_, ?_⟩
  · rintro n hn l hl rfl
    exact hpi_rest (he.inputs ▸ hn) (List.mem_append_left _ (hmem l hl))
  · rintro n hn c hc rfl
    exact hpi_rest (he.inputs ▸ hn) (List.mem_append_right _ (hnames c hc).2)
  · intro l hl c hc heq
    exact hcur_rest (hmem l hl) (heq ▸ (hnames c hc).2)
  · intro c hc n hn
    rw [(hnames c hc).1, List.mem_append, ← he.inputs, ← hlatch] at hn
    exact hn.imp_right List.mem_map.mp

theorem simulates [DecidableEq σ] (he : Encodes m dcVal b pi po cur nx w code) (hm : m.Ok)
    (hb : b.TwoLevel) : Simulates m dcVal b code := by
  intro inp rs hrs
  refine ⟨Blif.exists_run hb inp, fun env hr => ⟨fun t ht => ?_, fun t r hrt => ?_⟩⟩
  · rw [he.latch_map]
    exact he.latch_run hm hr hrs t ht
  · exact he.out_run hm hr hrs hrt

end Encodes

end ExtFolding.Misc
