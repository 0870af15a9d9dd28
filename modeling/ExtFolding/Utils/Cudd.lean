import ExtFolding.Lib.Cube
import ExtFolding.Lib.Ntk

/-!
# The BDD manager

What the folding uses of CUDD and of the BDD part of ABC. Nodes are compared as pointers, so
they are canonical. The variable order is kept apart from the nodes: `order` lists the inputs
by level (`dd->invperm`), and a variable created later has its index as its level.
-/

namespace ExtFolding.Utils

open ExtFolding.Aig

/-- `cuddI(dd, v)`: the level of variable `v`. -/
def cuddI (order : List ℕ) (v : ℕ) : ℕ := if v < order.length then order.idxOf v else v

structure Cudd where
  Node : Type
  decEq : DecidableEq Node
  eval : Node → Assign → Bool
  eval_inj : ∀ {f g : Node}, (∀ x, eval f x = eval g x) → f = g
  /-- `b0` -/
  b0 : Node
  /-- `b1` -/
  b1 : Node
  /-- `Cudd_Not` -/
  cuddNot : Node → Node
  bddAnd : Node → Node → Node
  bddOr : Node → Node → Node
  /-- `Cudd_bddIthVar` -/
  ithVar : ℕ → Node
  eval_b0 : ∀ x, eval b0 x = false
  eval_b1 : ∀ x, eval b1 x = true
  eval_not : ∀ f x, eval (cuddNot f) x = !eval f x
  eval_and : ∀ f g x, eval (bddAnd f g) x = (eval f x && eval g x)
  eval_or : ∀ f g x, eval (bddOr f g) x = (eval f x || eval g x)
  eval_ithVar : ∀ v x, eval (ithVar v) x = x v
  /-- `Cudd_CubeArrayToBdd` for an array of `n` entries -/
  cubeArrayToBdd : ℕ → Cube → Node
  eval_cube : ∀ n c x, eval (cubeArrayToBdd n c) x = true ↔ (c.keep (· < n)).Holds x
  /-- `Cudd_Cofactor` with respect to a cube -/
  cofactor : Node → Node → Node
  eval_cofactor : ∀ f n c x,
    eval (cofactor f (cubeArrayToBdd n c)) x = eval f ((c.keep (· < n)).put x)
  /-- `Cudd_Support` -/
  support : Node → Finset ℕ
  dependsOn_support : ∀ f, DependsOn (eval f) (support f : Set ℕ)
  support_subset : ∀ f (S : Set ℕ), DependsOn (eval f) S → (support f : Set ℕ) ⊆ S
  /-- `Cudd_FirstCube` -/
  firstCube : List ℕ → Node → Cube
  firstCube_path : ∀ order f, order.Perm (List.range order.length) → f ≠ b0 →
    RootPath (cuddI order) (eval f) (firstCube order f)
  /-- `Extra_bddNodePathsUnderCut`: the nodes below the cut with the paths to them, in the
  order in which the table is traversed -/
  nodePathsUnderCut : List ℕ → Node → ℕ → List (Node × Node)
  paths_nodup : ∀ order f L, order.Perm (List.range order.length) → f ≠ b0 →
    ((nodePathsUnderCut order f L).map Prod.fst).Nodup
  paths_exact : ∀ order f L, order.Perm (List.range order.length) → f ≠ b0 →
    ∀ e ∈ nodePathsUnderCut order f L, (∃ x, eval e.2 x = true) ∧
      ∀ x, eval e.2 x = true ↔ ∀ z, eval e.1 z = eval f (glue (cuddI order) L x z)
  paths_exists : ∀ order f L, order.Perm (List.range order.length) → f ≠ b0 →
    ∀ x, ∃ e ∈ nodePathsUnderCut order f L, eval e.2 x = true
  /-- `Extra_bddEncodingBinary` -/
  encodingBinary : List Node → List ℕ → Node
  encoding_spec : ∀ funcs vars, vars.Nodup → funcs.length ≤ 2 ^ vars.length →
    ∃ code : ℕ → Assign,
      (∀ i < funcs.length, ∀ j < funcs.length, (∀ v ∈ vars, code i v = code j v) → i = j) ∧
      ∀ x, eval (encodingBinary funcs vars) x = true ↔
        ∃ i f, funcs[i]? = some f ∧ eval f x = true ∧ ∀ v ∈ vars, x v = code i v

/-- `Abc_NtkBuildGlobalBdds`: the outputs of a combinational network as BDDs. -/
structure AbcBdd extends Cudd where
  globalBdds : Ntk → List Node
  globalBdds_length : ∀ C, (globalBdds C).length = C.pos.length
  eval_globalBdds : ∀ C : Ntk, C.Ok → C.latches = [] → ∀ o f, (globalBdds C)[o]? = some f →
    ∀ x, eval f x = C.fn x o

instance (dd : Cudd) : DecidableEq dd.Node := dd.decEq

/-- The cuts of `f` are as specified: every cofactor once, with exactly its paths. -/
structure Cuts (dd : Cudd) (order : List ℕ) (f : dd.Node) : Prop where
  nodup : ∀ L, ((dd.nodePathsUnderCut order f L).map Prod.fst).Nodup
  nonempty : ∀ L, ∀ e ∈ dd.nodePathsUnderCut order f L, ∃ x, dd.eval e.2 x = true
  paths : ∀ L, ∀ e ∈ dd.nodePathsUnderCut order f L, ∀ x, dd.eval e.2 x = true ↔
    ∀ z, dd.eval e.1 z = dd.eval f (glue (cuddI order) L x z)
  cover : ∀ L x, ∃ e ∈ dd.nodePathsUnderCut order f L, dd.eval e.2 x = true

theorem Cuts.of_ne_b0 {dd : Cudd} {order : List ℕ} {f : dd.Node}
    (hord : order.Perm (List.range order.length)) (hf : f ≠ dd.b0) : Cuts dd order f where
  nodup L := dd.paths_nodup order f L hord hf
  nonempty L e he := (dd.paths_exact order f L hord hf e he).1
  paths L e he := (dd.paths_exact order f L hord hf e he).2
  cover L := dd.paths_exists order f L hord hf

section Levels

variable {order : List ℕ}

theorem cuddI_lt (hord : order.Perm (List.range order.length)) {v : ℕ} :
    cuddI order v < order.length ↔ v < order.length := by
  unfold cuddI
  split
  · next h =>
      have : v ∈ order := hord.mem_iff.mpr (List.mem_range.mpr h)
      exact ⟨fun _ => h, fun _ => List.idxOf_lt_length_of_mem this⟩
  · rfl

theorem cuddI_of_ge {v : ℕ} (h : order.length ≤ v) : cuddI order v = v :=
  if_neg (Nat.not_lt.mpr h)

theorem cuddI_injective (hord : order.Perm (List.range order.length)) :
    Function.Injective (cuddI order) := by
  intro v w hvw
  have hiff := cuddI_lt hord (v := v)
  rw [hvw, cuddI_lt hord] at hiff
  by_cases hv : v < order.length
  · have hw := hiff.mpr hv
    rw [cuddI, if_pos hv, cuddI, if_pos hw] at hvw
    exact (List.idxOf_inj (hord.mem_iff.mpr (List.mem_range.mpr hv))).mp hvw
  · have hw := mt hiff.mp hv
    rwa [cuddI, if_neg hv, cuddI, if_neg hw] at hvw

theorem cuddI_surjective (hord : order.Perm (List.range order.length)) :
    Function.Surjective (cuddI order) := by
  intro l
  by_cases hl : l < order.length
  · have hnd : order.Nodup := hord.nodup_iff.mpr List.nodup_range
    refine ⟨order[l], ?_⟩
    have hlt : order[l] < order.length :=
      List.mem_range.mp (hord.mem_iff.mp (List.getElem_mem hl))
    rw [cuddI, if_pos hlt, hnd.idxOf_getElem]
  · exact ⟨l, cuddI_of_ge (Nat.le_of_not_lt hl)⟩

theorem cuddI_range (n v : ℕ) : cuddI (List.range n) v = v := by
  unfold cuddI
  split
  · next h =>
      rw [List.length_range] at h
      have := List.nodup_range.idxOf_getElem v (by simpa using h : v < (List.range n).length)
      rwa [List.getElem_range] at this
  · rfl

end Levels

namespace Cudd

variable (dd : Cudd)

theorem ne_b0_iff {f : dd.Node} : f ≠ dd.b0 ↔ ∃ x, dd.eval f x = true := by
  constructor
  · intro h
    by_contra hno
    apply h
    apply dd.eval_inj
    intro x
    rw [dd.eval_b0]
    exact Bool.eq_false_iff.mpr fun hx => hno ⟨x, hx⟩
  · rintro ⟨x, hx⟩ rfl
    rw [dd.eval_b0] at hx
    exact absurd hx Bool.false_ne_true

theorem eq_b1_iff {f : dd.Node} : f = dd.b1 ↔ ∀ x, dd.eval f x = true := by
  constructor
  · rintro rfl
    exact dd.eval_b1
  · intro h
    apply dd.eval_inj
    intro x
    rw [h, dd.eval_b1]

theorem b1_ne_b0 : dd.b1 ≠ dd.b0 := dd.ne_b0_iff.mpr ⟨fun _ => false, dd.eval_b1 _⟩

theorem not_b1 : dd.cuddNot dd.b1 = dd.b0 := by
  apply dd.eval_inj
  intro x
  rw [dd.eval_not, dd.eval_b1, dd.eval_b0]
  rfl

theorem not_not (f : dd.Node) : dd.cuddNot (dd.cuddNot f) = f := by
  apply dd.eval_inj
  intro x
  rw [dd.eval_not, dd.eval_not, Bool.not_not]

end Cudd

end ExtFolding.Utils
