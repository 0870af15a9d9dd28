import ExtFolding.TimeFold.FoldLoop
import ExtFolding.Utils.Robdd

/-!
# `timeFold::bddFold`

Time-frame folding of an iterative circuit: output `t * nPo + j` depends on the inputs of
the frames up to `t` only. The order of the manager is the order of the inputs, so the levels
of frame `t` are the inputs of frame `t`.
-/

namespace ExtFolding.TimeFold

open ExtFolding.Aig ExtFolding.Utils

/-- `bddFold` -/
def bddFold (abc : AbcBdd) (C : Ntk) (nTimeFrame : ℕ) : Option STG := do
  let initVarSize := C.nPi
  let nCo := C.pos.length
  let nPo := nCo / nTimeFrame
  let nVar := initVarSize / nTimeFrame
  let stg : STG := ⟨initVarSize, nCo, nVar, nPo, nTimeFrame, 0, []⟩
  let pNodeVec := (abc.globalBdds C).map some
  let nB := if nPo ≠ 0 then Nat.clog 2 (nPo * 2) else 0
  let (B, size) ← bddComputeSign abc.toCudd initVarSize (nPo * 2)
  if initVarSize + nB = size then
    foldFrames abc.toCudd (List.range initVarSize) initVarSize pNodeVec B nB nVar nPo size
      nTimeFrame stg
  else none

section

variable (abc : AbcBdd) {C : Ntk} (hC : C.Ok) (hl : C.latches = []) {nPi nPo T : ℕ}
include hC hl

/-- The BDD of an output, in its slot. -/
theorem globalBdds_slot {p : ℕ} (hp : p < C.pos.length) :
    ∃ f, ((abc.globalBdds C).map some).getD p none = some f ∧ ∀ x, abc.eval f x = C.fn x p := by
  have hlt : p < (abc.globalBdds C).length := by rwa [abc.globalBdds_length]
  refine ⟨(abc.globalBdds C)[p], ?_,
    abc.eval_globalBdds C hC hl p _ (List.getElem?_eq_getElem hlt)⟩
  rw [List.getD, List.getElem?_map, List.getElem?_eq_getElem hlt]
  rfl

/-- The graph and the tables of `bddFold`. -/
theorem bddFold_folded (hT : 1 ≤ T) (hnPo : 1 ≤ nPo) (hpi : C.nPi = nPi * T)
    (hpo : C.pos.length = nPo * T)
    (hiter : ∀ t < T, ∀ j < nPo,
      DependsOn (fun x => C.fn x (t * nPo + j)) { i | i < (t + 1) * nPi }) :
    ∃ G B tab, bddFold abc C T = some G ∧
      (∃ size, bddComputeSign abc.toCudd C.nPi (nPo * 2) = some (B, size)) ∧
      Folded abc.toCudd (List.range C.nPi) ((abc.globalBdds C).map some) B
        (Nat.clog 2 (nPo * 2)) nPi nPo T G tab := by
  have hvar : C.nPi / T = nPi := by rw [hpi, Nat.mul_div_cancel _ hT]
  have hnpo : C.pos.length / T = nPo := by rw [hpo, Nat.mul_div_cancel _ hT]
  obtain ⟨B, hsign, hlen, hB⟩ :=
    bddComputeSign_spec abc.toCudd C.nPi (show nPo * 2 ≠ 0 by omega)
  have hordlen : (List.range C.nPi).length = C.nPi := List.length_range
  have hcausal : ∀ i < T, ∀ k < nPo, ∀ f,
      ((abc.globalBdds C).map some).getD (i * nPo + k) none = some f →
      DependsOn (abc.eval f) { m | cuddI (List.range C.nPi) m < (i + 1) * nPi } := by
    intro i hi k hk f hf
    obtain ⟨f', hf', hfn⟩ := globalBdds_slot abc hC hl (hpo ▸ slot_lt hi hk)
    rw [hf] at hf'
    cases hf'
    intro x y hxy
    rw [hfn, hfn]
    apply hiter i hi k hk
    intro m hm
    exact hxy m (by show cuddI _ m < _; rw [cuddI_range]; exact hm)
  obtain ⟨G, tab, hrun, -, hG⟩ := foldFrames_folded
    (by rw [hordlen] : (List.range C.nPi).Perm (List.range (List.range C.nPi).length))
    (hordlen.trans hpi) (by rwa [hordlen]) hlen hcausal ⟨C.nPi, C.pos.length, nPi, nPo, T, 0, []⟩
    rfl rfl rfl hT (C.nPi + Nat.clog 2 (nPo * 2)) (hordlen.trans_le (Nat.le_add_right _ _)) rfl
  refine ⟨G, B, tab, ?_, ⟨_, hsign⟩, hG⟩
  unfold bddFold
  simp only [hvar, hnpo, hsign, Option.bind_eq_bind, Option.bind_some]
  rw [if_pos (show nPo ≠ 0 by omega), if_pos rfl]
  rwa [hordlen] at hrun

end

/-- Time-frame folding inverts time-frame expansion: on the input slices of `x`, exactly one
row matches in every frame, it leads from a state of the frame to one of the next, and its
output column shows the outputs of the frame. -/
theorem bddFold_folds (abc : AbcBdd) {C : Ntk} (hC : C.Ok) (hl : C.latches = []) {nPi nPo T : ℕ}
    (hT : 1 ≤ T) (hnPo : 1 ≤ nPo) (hpi : C.nPi = nPi * T)
    (hpo : C.pos.length = nPo * T)
    (hiter : ∀ t < T, ∀ j < nPo,
      DependsOn (fun x => C.fn x (t * nPo + j)) { i | i < (t + 1) * nPi }) :
    ∃ G, bddFold abc C T = some G ∧ ∀ x : Assign, ∃ s : ℕ → List Char,
      s T = ['*'] ∧ ∀ t < T, (∃ c, s t = stName t c) ∧
        G.stateAt (fun c k => x (c * nPi + k)) t = some (s t) ∧
        ∃ r, G.matching (s t) (fun k => x (t * nPi + k)) = [r] ∧ r.nst = s (t + 1) ∧
          r.output = (List.range nPo).map fun j => bitChar (C.fn x (t * nPo + j)) := by
  obtain ⟨G, B, tab, hrun, -, hG⟩ := bddFold_folded abc hC hl hT hnPo hpi hpo hiter
  refine ⟨G, hrun, fun x => ?_⟩
  have hcarry : Carries (List.range C.nPi) nPi T x fun c k => x (c * nPi + k) := by
    intro t _ m hm
    unfold InFrame at hm
    rw [cuddI_range] at hm ⊢
    show x (t * nPi + (m - t * nPi)) = x m
    rw [Nat.add_sub_cancel' hm.1]
  obtain ⟨s, hsT, hs⟩ := hG.run hcarry
  refine ⟨s, hsT, fun t ht => ?_⟩
  obtain ⟨hstate, hname, r, hmatch, hnst, hout⟩ := hs t ht
  refine ⟨hname, hstate, r, hmatch, hnst, ?_⟩
  rw [hout]
  unfold frameChars
  apply List.map_congr_left
  intro k hk
  obtain ⟨f, hf, hfn⟩ := globalBdds_slot abc hC hl (hpo ▸ slot_lt ht (List.mem_range.mp hk))
  rw [hf]
  exact congrArg bitChar (hfn x)

/-- Two frames; the second one shows the input of the first. -/
def holdNtk : Ntk :=
  { nPi := 2, graph := [], latches := [], pos := [(Obj.pi 0).lit, (Obj.pi 0).lit] }

theorem holdNtk_ok : holdNtk.Ok where
  graph := trivial
  latches := by simp [holdNtk]
  pos := by simp [holdNtk, Obj.Ok, Ntk.IsLeaf]

theorem holdNtk_iterative : ∀ t < 2, ∀ j < 1,
    DependsOn (fun x => holdNtk.fn x (t * 1 + j)) { i | i < (t + 1) * 1 } := by
  intro t ht j hj x y hxy
  have h0 : x 0 = y 0 := hxy 0 (Nat.succ_mul_pos t Nat.one_pos)
  obtain rfl : j = 0 := by omega
  interval_cases t <;> simp [holdNtk, Ntk.fn, Graph.eval, Env.leaf, h0]

theorem bddFold_holdNtk :
    ∃ G, bddFold Robdd.abcBdd holdNtk 2 = some G ∧ ∀ x : Assign, ∃ s : ℕ → List Char,
      s 2 = ['*'] ∧ ∀ t < 2, (∃ c, s t = stName t c) ∧
        G.stateAt (fun c k => x (c * 1 + k)) t = some (s t) ∧
        ∃ r, G.matching (s t) (fun k => x (t * 1 + k)) = [r] ∧ r.nst = s (t + 1) ∧
          r.output = (List.range 1).map fun j => bitChar (holdNtk.fn x (t * 1 + j)) :=
  bddFold_folds Robdd.abcBdd holdNtk_ok rfl (by decide) (by decide) rfl rfl holdNtk_iterative

end ExtFolding.TimeFold
