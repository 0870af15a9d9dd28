import ExtFolding.Lib.Blif
import ExtFolding.Utils.Stg

/-!
# Machines of KISS2 files

The rows of a file with the reset state. A word of inputs is defined from reset when every step
finds a row; the rows taken are kept as the trace of the word.
-/

namespace ExtFolding.Utils

structure Kiss where
  nPi : ℕ
  nPo : ℕ
  reset : List Char
  rows : List TransRow

theorem accepts_eq_cubeHolds {input : List Char} {n : ℕ} (h : input.length = n) (v : ℕ → Bool) :
    accepts input v = cubeHolds input ((List.range n).map v) := by
  subst h
  have hzip : input.zip ((List.range input.length).map v) = input.zipIdx.map fun p =>
    (p.1, v p.2) := by
    rw [List.zipIdx_eq_zip_range', ← List.range_eq_range', List.zip_map_right]
    rfl
  unfold accepts cubeHolds
  rw [hzip, List.all_map]
  exact List.all_congr rfl fun p => Bool.decide_or _ _

namespace Kiss

/-- Columns of one width and disjoint inputs for each state. -/
structure Ok (m : Kiss) : Prop where
  pi : 1 ≤ m.nPi
  po : 1 ≤ m.nPo
  input : ∀ r ∈ m.rows, Column m.nPi r.input
  output : ∀ r ∈ m.rows, Column m.nPo r.output
  disjoint : m.rows.Pairwise fun r r' =>
    r.cst = r'.cst → ∀ v, ¬ (accepts r.input v = true ∧ accepts r'.input v = true)

/-- The state after `t` steps with the rows `rs`. -/
def stateAfter (m : Kiss) (rs : List TransRow) : ℕ → List Char
  | 0 => m.reset
  | t + 1 => (rs[t]?.map TransRow.nst).getD m.reset

/-- The machine takes the rows `rs` from reset when `inp t` is on the pins in step `t`. -/
def Takes (m : Kiss) (inp : ℕ → ℕ → Bool) (rs : List TransRow) : Prop :=
  ∀ (t : ℕ) (r : TransRow), rs[t]? = some r →
    r ∈ m.rows ∧ r.cst = m.stateAfter rs t ∧ accepts r.input (inp t) = true

/-- A state that the file names. -/
def IsState (m : Kiss) (q : List Char) : Prop :=
  q = m.reset ∨ ∃ r ∈ m.rows, q = r.cst ∨ q = r.nst

variable {m : Kiss}

theorem Ok.columns (hm : m.Ok) : ∀ r ∈ m.rows, Column m.nPi r.input ∧ Column m.nPo r.output :=
  fun r hr => ⟨hm.input r hr, hm.output r hr⟩

/-- Two rows of a state that match the same input are one. -/
theorem Ok.row_unique (hm : m.Ok) {r r' : TransRow} (hr : r ∈ m.rows) (hr' : r' ∈ m.rows)
    (hst : r.cst = r'.cst) {v : ℕ → Bool} (hv : accepts r.input v = true)
    (hv' : accepts r'.input v = true) : r = r' := by
  by_contra hne
  have hdis := List.pairwise_iff_getElem.mp hm.disjoint
  obtain ⟨i, hi, rfl⟩ := List.mem_iff_getElem.mp hr
  obtain ⟨j, hj, rfl⟩ := List.mem_iff_getElem.mp hr'
  rcases Nat.lt_trichotomy i j with hij | rfl | hij
  · exact hdis i j hi hj hij hst v ⟨hv, hv'⟩
  · exact hne rfl
  · exact hdis j i hj hi hij hst.symm v ⟨hv', hv⟩

theorem stateAfter_succ {rs : List TransRow} {t : ℕ} {r : TransRow} (h : rs[t]? = some r) :
    m.stateAfter rs (t + 1) = r.nst := by
  simp [stateAfter, h]

theorem Takes.isState {inp : ℕ → ℕ → Bool} {rs : List TransRow} (h : m.Takes inp rs) (t : ℕ) :
    m.IsState (m.stateAfter rs t) := by
  cases t with
  | zero => exact Or.inl rfl
  | succ t =>
      cases ht : rs[t]? with
      | none => exact Or.inl (by simp [stateAfter, ht])
      | some r => exact Or.inr ⟨r, (h t r ht).1, Or.inr (stateAfter_succ ht)⟩

end Kiss

/-- Three rows; the end of the run is the state `*`. -/
def sampleKiss : Kiss where
  nPi := 1
  nPo := 1
  reset := ['A']
  rows := [⟨['0'], ['A'], ['B'], ['-']⟩, ⟨['1'], ['A'], ['A'], ['0']⟩, ⟨['-'], ['B'], ['*'], ['1']⟩]

theorem sampleKiss_ok : sampleKiss.Ok where
  pi := by decide
  po := by decide
  input := by simp [sampleKiss, Column]
  output := by simp [sampleKiss, Column]
  disjoint := by
    have h01 : ∀ v : ℕ → Bool, ¬ (accepts ['0'] v = true ∧ accepts ['1'] v = true) := by
      intro v
      cases h : v 0 <;> simp [accepts, bitChar, h]
    simpa [sampleKiss] using h01

end ExtFolding.Utils
