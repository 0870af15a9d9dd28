import ExtFolding.Lib.Loop
import ExtFolding.Utils.Cudd
import Mathlib.Data.Nat.Log

/-!
# `utils/bddUtils.cpp`

Vectors of BDDs with empty positions, and the signatures: cubes over fresh variables that
tell the entries of a vector apart. The number of variables of the manager
(`Cudd_ReadSize`) is passed along.
-/

namespace ExtFolding.Utils

variable (dd : Cudd)

/-- The number of variables after `Cudd_bddIthVar` on the variables `vs`. -/
def sizeAfter (size : ℕ) (vs : List ℕ) : ℕ := vs.foldl (fun s v => max s (v + 1)) size

/-- The array with the bits of `j`, and the assertion `k == 0`. -/
def signCube (initVarSize na j : ℕ) : Option Cube :=
  let s := (List.range na).foldl (fun (s : Cube × ℕ) m =>
    (Function.update s.1 (initVarSize + m) (some (s.2 % 2 = 1)), s.2 / 2)) (fun _ => none, j)
  if s.2 = 0 then some s.1 else none

/-- `bddComputeSign(dd, range)`: the signatures and the new number of variables. -/
def bddComputeSign (initVarSize range : ℕ) : Option (List dd.Node × ℕ) := do
  let na := if range = 0 then 0 else Nat.clog 2 range
  let size := sizeAfter initVarSize ((List.range na).map fun j => initVarSize + j)
  if size ≠ initVarSize + na then none
  else
    let A ← (List.range range).mapM fun j =>
      (signCube initVarSize na j).map (dd.cubeArrayToBdd (initVarSize + na))
    return (A, size)

/-- `bddDot` -/
def bddDot (v1 : List (Option dd.Node)) (v2 : List dd.Node) : dd.Node :=
  (v1.zip v2).foldl (fun ret p => match p.1 with
    | some f => dd.bddOr ret (dd.bddAnd f p.2)
    | none => ret) dd.b0

/-- `bddNotVec` -/
def bddNotVec (vec : List (Option dd.Node)) : List (Option dd.Node) :=
  vec.map fun f => f.map dd.cuddNot

/-- `bddCreateDummyState`: one entry, with key and value `b1`. -/
def bddCreateDummyState : List (dd.Node × dd.Node) := [(dd.b1, dd.b1)]

/-- `x` has the bits of `j` on the `n` variables from `b` on. -/
def HasCode (b n j : ℕ) (x : Assign) : Prop := ∀ m < n, x (b + m) = j.testBit m

/-! ## What they compute -/

theorem sizeAfter_range (size n : ℕ) :
    sizeAfter size ((List.range n).map fun j => size + j) = size + n := by
  induction n with
  | zero => rfl
  | succ n ih =>
      unfold sizeAfter at ih ⊢
      rw [List.range_succ, List.map_append, List.foldl_append, ih]
      simp
      omega

theorem le_sizeAfter (size : ℕ) (vs : List ℕ) : size ≤ sizeAfter size vs := by
  induction vs generalizing size with
  | nil => exact le_rfl
  | cons v vs ih => exact (le_max_left _ _).trans (ih _)

/-- The bits of `j` on the `n` variables from `b` on. -/
def bitCube (b n j : ℕ) : Cube := fun v => if b ≤ v ∧
    v < b + n then some (j.testBit (v - b)) else none

theorem holds_bitCube {b n j : ℕ} {x : Assign} : (bitCube b n j).Holds x ↔ HasCode b n j x := by
  constructor
  · intro h m hm
    apply h
    rw [bitCube, if_pos (by omega), Nat.add_sub_cancel_left]
  · intro h v c hv
    unfold bitCube at hv
    split at hv
    · next hlt =>
        obtain ⟨m, rfl⟩ := Nat.exists_eq_add_of_le hlt.1
        rw [h m (by omega), ← Option.some.inj hv, Nat.add_sub_cancel_left]
    · cases hv

/-- The array holds the low bits, and what is shifted out is the rest of `j`. -/
theorem signCube_spec {b na j : ℕ} (hj : j < 2 ^ na) :
    signCube b na j = some (bitCube b na j) := by
  have key : ∀ n, (List.range n).foldl (fun (s : Cube × ℕ) m =>
      (Function.update s.1 (b + m) (some (s.2 % 2 = 1)), s.2 / 2)) (fun _ => none, j) =
        (bitCube b n j, j / 2 ^ n) := by
    intro n
    induction n with
    | zero =>
        apply Prod.ext
        · funext v
          show none = bitCube b 0 j v
          rw [bitCube, if_neg (by omega)]
        · simp
    | succ n ih =>
        rw [List.range_succ, List.foldl_append, ih, List.foldl_cons, List.foldl_nil]
        apply Prod.ext
        · funext v
          show Function.update (bitCube b n j) (b + n) (some (j / 2 ^ n % 2 = 1)) v =
            bitCube b (n + 1) j v
          by_cases hv : v = b + n
          · rw [hv, Function.update_self, bitCube, if_pos (by omega), Nat.add_sub_cancel_left,
              Nat.testBit_eq_decide_div_mod_eq]
          · rw [Function.update_of_ne hv]
            exact if_congr (by omega) rfl rfl
        · show _ / 2 = _
          rw [Nat.div_div_eq_div_mul, ← Nat.pow_succ]
  unfold signCube
  simp only [key]
  rw [if_pos (Nat.div_eq_of_lt hj)]

/-- A number is known from its low bits. -/
theorem HasCode.eq {b n i j : ℕ} {x : Assign} (hi : i < 2 ^ n) (hj : j < 2 ^ n)
    (h : HasCode b n i x) (h' : HasCode b n j x) : i = j := by
  apply Nat.eq_of_testBit_eq
  intro m
  by_cases hm : m < n
  · rw [← h m hm, h' m hm]
  · have hle : 2 ^ n ≤ 2 ^ m := Nat.pow_le_pow_right (by decide) (by omega)
    rw [Nat.testBit_lt_two_pow (by omega), Nat.testBit_lt_two_pow (by omega)]

/-- The signatures: entry `j` is the cube of the bits of `j`. -/
structure IsSign (b n : ℕ) (B : List dd.Node) : Prop where
  le : B.length ≤ 2 ^ n
  eval : ∀ j g, B[j]? = some g → ∀ x, dd.eval g x = true ↔ HasCode b n j x

theorem bddComputeSign_spec (initVarSize : ℕ) {range : ℕ} (hr : range ≠ 0) :
    ∃ B, bddComputeSign dd initVarSize range =
        some (B, initVarSize + Nat.clog 2 range) ∧ B.length = range ∧
      IsSign dd initVarSize (Nat.clog 2 range) B := by
  set na := Nat.clog 2 range with hna
  have hpow : range ≤ 2 ^ na := Nat.le_pow_clog (by decide) range
  let sign : ℕ → dd.Node := fun j => dd.cubeArrayToBdd (initVarSize + na) (bitCube initVarSize na j)
  have hB : (List.range range).mapM (fun j =>
      (signCube initVarSize na j).map (dd.cubeArrayToBdd (initVarSize + na))) =
        some ((List.range range).map sign) := by
    apply mapM_eq_map
    intro j hj
    rw [signCube_spec ((List.mem_range.mp hj).trans_le hpow)]
    rfl
  refine ⟨(List.range range).map sign, ?_, by simp, by simpa using hpow, fun j g hg x => ?_⟩
  · unfold bddComputeSign
    simp only [if_neg hr, ← hna, sizeAfter_range]
    rw [if_neg (by simp), hB]
    rfl
  · rw [List.getElem?_map, Option.map_eq_some_iff] at hg
    obtain ⟨j', hj', rfl⟩ := hg
    obtain ⟨hlt, rfl⟩ := List.getElem?_eq_some_iff.mp hj'
    rw [List.getElem_range, dd.eval_cube, ← holds_bitCube]
    have hkeep : (bitCube initVarSize na j).keep (· < initVarSize + na) =
        bitCube initVarSize na j := by
      funext v
      unfold Cube.keep bitCube
      split
      · rfl
      · rw [if_neg (by omega)]
    rw [hkeep]

theorem eval_bddDot (v1 : List (Option dd.Node)) (v2 : List dd.Node) (x : Assign) :
    dd.eval (bddDot dd v1 v2) x = true ↔
      ∃ (k : ℕ) (f g : dd.Node), v1[k]? = some (some f) ∧ v2[k]? = some g ∧
        dd.eval f x = true ∧ dd.eval g x = true := by
  have hinv := foldl_inv (l := v1.zip v2) (b := dd.b0)
    (f := fun ret (p : Option dd.Node × dd.Node) => match p.1 with
      | some f => dd.bddOr ret (dd.bddAnd f p.2)
      | none => ret)
    (fun pre (ret : dd.Node) => dd.eval ret x = true ↔
      ∃ f g, (some f, g) ∈ pre ∧ dd.eval f x = true ∧ dd.eval g x = true) ?_
    (by simp [dd.eval_b0])
  · unfold bddDot
    rw [hinv]
    constructor
    · rintro ⟨f, g, hmem, hf, hg⟩
      obtain ⟨k, hk⟩ := List.mem_iff_getElem?.mp hmem
      rw [List.getElem?_zip_eq_some] at hk
      exact ⟨k, f, g, hk.1, hk.2, hf, hg⟩
    · rintro ⟨k, f, g, h₁, h₂, hf, hg⟩
      refine ⟨f, g, List.mem_of_getElem? (i := k) ?_, hf, hg⟩
      rw [List.getElem?_zip_eq_some]
      exact ⟨h₁, h₂⟩
  · rintro pre ⟨a, g⟩ post ret _ h
    cases a with
    | none => simp [h]
    | some f =>
        simp only [dd.eval_or, dd.eval_and, Bool.or_eq_true, Bool.and_eq_true, h, List.mem_append,
          List.mem_singleton, Prod.mk.injEq, Option.some.injEq]
        constructor
        · rintro (⟨f', g', hmem, h'⟩ | h')
          · exact ⟨f', g', Or.inl hmem, h'⟩
          · exact ⟨f, g, Or.inr ⟨rfl, rfl⟩, h'⟩
        · rintro ⟨f', g', hmem | ⟨rfl, rfl⟩, h'⟩
          · exact Or.inl ⟨f', g', hmem, h'⟩
          · exact Or.inr h'

end ExtFolding.Utils
