import ExtFolding.TimeFold.BddFold

/-!
# What `bddFold` accepts

The assertion in `addOneTrans`, that an output is constant on every row, is the only check
that the circuit is iterative. It is a complete one: where it holds in every frame, the
outputs of a frame read no input of a later frame.
-/

namespace ExtFolding.TimeFold

open ExtFolding.Aig ExtFolding.Utils

section Frame

variable {dd : Cudd} {order : List ℕ} {size nB nPo i vStart vEnd : ℕ}
  {pNodeVec : List (Option dd.Node)} {B : List dd.Node} {csts nsts : Table dd}
  {e n : dd.Node × dd.Node}

/-- Outputs of any later input still have a signature, so a transition is active where its
path is. -/
theorem active_of_path {oFuncs : List (Option dd.Node)} {path : dd.Node}
    (hvEnd : vEnd ≤ order.length)
    (hB : IsSign dd order.length nB B) (hlen : B.length = nPo * 2) (ho : oFuncs.length = nPo)
    (hinp : ∀ f, some f ∈ oFuncs → DependsOn (dd.eval f) { m | cuddI order m < order.length })
    (hpath : DependsOn (dd.eval path) { m | cuddI order m < order.length }) {x : Assign}
    (hx : dd.eval path x = true) :
    Active dd order vEnd (dd.bddAnd (encodeOutputs dd B nPo oFuncs).2 path) x := by
  cases hany : oFuncs.any Option.isSome with
  | false =>
      refine ⟨x, ?_⟩
      unfold encodeOutputs
      rw [hany, glue_self, dd.eval_and, hx, Bool.and_true]
      exact dd.eval_b1 _
  | true =>
      obtain ⟨o, ho', hsome⟩ := List.any_eq_true.mp hany
      obtain ⟨f, rfl⟩ := Option.isSome_iff_exists.mp hsome
      obtain ⟨k, hk⟩ := List.mem_iff_getElem?.mp ho'
      obtain ⟨g, hg⟩ := exists_code hlen ho hk (dd.eval f x)
      -- the signature is written behind the inputs, which stay those of `x`
      set j := if dd.eval f x then nPo + k else k with hj
      set z := glue (cuddI order) vEnd x ((bitCube order.length nB j).put x) with hz
      have hinputs : ∀ m, cuddI order m < order.length → x m = z m := by
        intro m hm
        have hlt : m < order.length := by
          by_contra hge
          rw [cuddI_of_ge (Nat.le_of_not_lt hge)] at hm
          exact hge hm
        rw [hz]
        unfold glue
        split
        · rfl
        · exact (Cube.put_of_none (by rw [bitCube, if_neg (by omega)])).symm
      refine ⟨(bitCube order.length nB j).put x, ?_⟩
      rw [dd.eval_and, Bool.and_eq_true, ← hpath hinputs, eval_encodeOutputs hany]
      refine ⟨⟨k, f, g, hk, ?_, ?_⟩, hx⟩
      · rw [← hinp f (List.mem_of_getElem? hk) hinputs, ← hj, hg]
      · rw [(codes_of_isSign hB hvEnd).below g (List.mem_of_getElem? hg) fun m hm => glue_of_le hm,
          hB.eval j g hg]
        exact holds_bitCube.mp (Cube.holds_put _ x)

/-- The loop over the next states keeps the shape of the graph, and has written the rows towards
every state that shares a prefix. -/
theorem stateTrans_inv {stg out : STG} {c : ℕ}
    (h : stateTrans dd order size pNodeVec B nPo i nsts stg (e, c) = some out) :
    out.nPi = stg.nPi ∧ ∀ n ∈ nsts, dd.bddAnd e.2 n.2 ≠ dd.b0 → ∃ stg' out' k,
      stg'.nPi = stg.nPi ∧ STG.addOneTrans dd order size stg'
        (dd.bddAnd (encodeOutputs dd B nPo (stateFuncs dd pNodeVec nPo i
          (dd.cubeArrayToBdd size (dd.firstCube order e.2)))).2
          (dd.cofactor n.2 (dd.cubeArrayToBdd size (dd.firstCube order e.2))))
        (stateFuncs dd pNodeVec nPo i (dd.cubeArrayToBdd size (dd.firstCube order e.2)))
        i c k = some out' := by
  unfold stateTrans at h
  simp only [encodeOutputs_fst] at h
  obtain ⟨hend, hmem⟩ := foldlM_inv (I := fun s : STG => s.nPi = stg.nPi) (fun s p s' hs hp => by
    split at hp
    · obtain ⟨transs, -, hs'⟩ := Option.bind_eq_some_iff.mp hp
      rw [← Option.some.inj hs']
      exact hs
    · rw [← Option.some.inj hp]
      exact hs) rfl h
  refine ⟨hend, fun n hn hpath => ?_⟩
  obtain ⟨k, hk⟩ := List.mem_iff_getElem?.mp hn
  obtain ⟨stg', out', hPi, hrun⟩ := hmem (n, k) (List.mk_mem_zipIdx_iff_getElem?.mpr hk)
  exact ⟨stg', out', k, hPi, by rw [← hrun, if_pos hpath]⟩

/-- The transitions of a frame are written only if its outputs read no later input. -/
theorem causal_of_buildTrans {stg out : STG}
    (h : FrameClasses dd order size pNodeVec B nB nPo i (i * stg.nPi) ((i + 1) * stg.nPi) csts nsts)
    (hinp : ∀ k < nPo, ∀ f, pNodeVec.getD (i * nPo + k) none = some f →
      DependsOn (dd.eval f) { m | cuddI order m < order.length })
    (hrun : buildTrans dd order size pNodeVec B nPo i csts nsts stg = some out) :
    ∀ k < nPo, ∀ f, pNodeVec.getD (i * nPo + k) none = some f →
      DependsOn (dd.eval f) { m | cuddI order m < (i + 1) * stg.nPi } := by
  intro k hk f hf x y hxy
  obtain ⟨c, e, hc, hx⟩ := h.cur.cover x
  obtain ⟨_, n, hk', hnx⟩ := h.nxt.cover x
  have he := List.mem_of_getElem? hc
  have hn := List.mem_of_getElem? hk'
  -- `y` is in the class of `x`
  have hy : dd.eval e.2 y = true := by
    rw [← hx]
    exact (h.cur.dep e he fun m hm => hxy m (Nat.lt_of_lt_of_le hm h.le)).symm
  have hand : dd.bddAnd e.2 n.2 ≠ dd.b0 :=
    dd.ne_b0_iff.mpr ⟨x, by rw [dd.eval_and, hx, hnx, Bool.and_true]⟩
  obtain ⟨-, hmem⟩ := foldlM_inv (I := fun s : STG => s.nPi = stg.nPi)
    (fun s p s' hs hp => (stateTrans_inv hp).1.trans hs) rfl hrun
  obtain ⟨s, s', hs, hst⟩ := hmem (e, c) (List.mk_mem_zipIdx_iff_getElem?.mpr hc)
  obtain ⟨s₁, out', k', hs₁, hadd⟩ := (stateTrans_inv hst).2 n hn hand
  set bCube := dd.cubeArrayToBdd size (dd.firstCube order e.2) with hbCube
  set oFuncs := stateFuncs dd pNodeVec nPo i bCube with hoFuncs
  have hnPi : s₁.nPi = stg.nPi := hs₁.trans hs
  have hcof : ∀ g w, dd.eval (dd.cofactor g bCube) w = dd.eval g (rep dd order size e.2 w) :=
    fun g w => by rw [hbCube, dd.eval_cofactor]; rfl
  have hin : ∀ {g : dd.Node}, DependsOn (dd.eval g) { m | cuddI order m < order.length } →
      DependsOn (dd.eval (dd.cofactor g bCube)) { m | cuddI order m < order.length } := by
    intro g hg u w huw
    rw [hcof, hcof]
    apply hg
    intro m hm
    unfold rep Cube.put
    rw [huw m hm]
  have hact : Active dd order ((i + 1) * stg.nPi)
      (dd.bddAnd (encodeOutputs dd B nPo oFuncs).2 (dd.cofactor n.2 bCube)) x := by
    apply active_of_path h.inside h.sign h.length (by simp [hoFuncs, stateFuncs])
    · intro g hg
      obtain ⟨k, hk, f, hf, rfl⟩ := mem_stateFuncs.mp hg
      exact hin (hinp k hk f hf)
    · exact hin ((h.nxt.dep n hn).mono fun m hm => Nat.lt_of_lt_of_le hm h.inside)
    · rw [hcof, h.rep_next he hx hn, hnx]
  obtain ⟨transs, hloop, -⟩ := Option.bind_eq_some_iff.mp hadd
  rw [hnPi] at hloop
  have hconst := transLoop_const size stg.nPi h.perm (by ring) (fun m hm =>
    ((cuddI_lt h.perm).mp (hm.2.trans_le h.inside)).trans_le h.le_size) _ _ _ _ _ _ hloop x hact
    (dd.cofactor f bCube) (mem_stateFuncs.mpr ⟨k, hk, f, hf, rfl⟩) y fun m hm => hxy m hm.2
  rwa [hcof, hcof, h.rep_out he hx hk hf, h.rep_out he hy hk hf] at hconst

end Frame

section Run

variable {dd : Cudd} {order : List ℕ} {pNodeVec : List (Option dd.Node)} {B : List dd.Node}
  {nB nPi nPo T : ℕ} (hord : order.Perm (List.range order.length))
  (hnCi : order.length = nPi * T) (hB : IsSign dd order.length nB B) (hlen : B.length = nPo * 2)
  (hinp : ∀ i < T, ∀ k < nPo, ∀ f, pNodeVec.getD (i * nPo + k) none = some f →
    DependsOn (dd.eval f) { m | cuddI order m < order.length })
  {stg : STG} (hPi : stg.nPi = nPi)
include hord hnCi hB hlen hinp hPi

theorem causal_of_foldStep {i : ℕ} (hi : i < T) {s s' : FoldSt dd}
    (h : FoldInv dd order nPi (i + 1) stg s)
    (hrun : foldStep dd order order.length pNodeVec B nB nPi nPo s i = some s') :
    ∀ k < nPo, ∀ f, pNodeVec.getD (i * nPo + k) none = some f →
      DependsOn (dd.eval f) { m | cuddI order m < (i + 1) * nPi } := by
  obtain ⟨csts, size, hcur, -, -, hnPi, hcls⟩ :=
    frameClasses_currentStates hord hnCi hB hlen hPi hi (hinp i hi) h
  obtain ⟨p, hp, hrun⟩ := Option.bind_eq_some_iff.mp hrun
  rw [hcur] at hp
  obtain rfl := Option.some.inj hp
  obtain ⟨out, hbuild, -⟩ := Option.bind_eq_some_iff.mp hrun
  rw [← hnPi] at hcls ⊢
  exact causal_of_buildTrans hcls (hinp i hi) hbuild

/-- From the last frame back, every frame that has been folded reads no later input. -/
theorem causal_of_foldFrames {size : ℕ} (hsize : order.length ≤ size)
    {G : STG} (hrun : foldFrames dd order order.length pNodeVec B nB nPi nPo size T stg = some G) :
    ∀ i < T, ∀ k < nPo, ∀ f, pNodeVec.getD (i * nPo + k) none = some f →
      DependsOn (dd.eval f) { m | cuddI order m < (i + 1) * nPi } := by
  have key : ∀ n ≤ T, ∀ s s' : FoldSt dd, FoldInv dd order nPi n stg s →
      (List.range n).reverse.foldlM (foldStep dd order order.length pNodeVec B nB nPi nPo) s =
        some s' → ∀ i < n, ∀ k < nPo, ∀ f, pNodeVec.getD (i * nPo + k) none = some f →
          DependsOn (dd.eval f) { m | cuddI order m < (i + 1) * nPi } := by
    intro n
    induction n with
    | zero => exact fun _ _ _ _ _ i hi => absurd hi (Nat.not_lt_zero i)
    | succ n ih =>
        intro hn s s' hs hrun
        rw [List.range_succ, List.reverse_append, List.reverse_singleton, List.singleton_append,
          List.foldlM_cons] at hrun
        obtain ⟨s₁, hstep, hrest⟩ := Option.bind_eq_some_iff.mp hrun
        have hcausal := causal_of_foldStep hord hnCi hB hlen hinp hPi hn hs hstep
        obtain ⟨s₂, hstep', hs₂, -⟩ := foldStep_spec hord hnCi hB hlen hPi hn hcausal hs
        obtain rfl := Option.some.inj (hstep'.symm.trans hstep)
        intro i hi
        rcases Nat.lt_succ_iff_lt_or_eq.mp hi with hi | rfl
        · exact ih (Nat.le_of_succ_le hn) s₂ s' hs₂ hrest i hi
        · exact hcausal
  obtain ⟨s, hs, -⟩ := Option.bind_eq_some_iff.mp hrun
  exact key T le_rfl _ s ⟨hsize, tableOk_dummy _, fun _ => rfl, stg.transs, rfl⟩ hs

end Run

/-- `bddFold` succeeds on iterative circuits only. -/
theorem iterative_of_bddFold (abc : AbcBdd) {C : Ntk} (hC : C.Ok) (hl : C.latches = [])
    {nPi nPo T : ℕ} (hT : 1 ≤ T) (hnPo : 1 ≤ nPo) (hpi : C.nPi = nPi * T)
    (hpo : C.pos.length = nPo * T) {G : STG} (h : bddFold abc C T = some G) :
    ∀ t < T, ∀ j < nPo, DependsOn (fun x => C.fn x (t * nPo + j)) { i | i < (t + 1) * nPi } := by
  have hvar : C.nPi / T = nPi := by rw [hpi, Nat.mul_div_cancel _ hT]
  have hnpo : C.pos.length / T = nPo := by rw [hpo, Nat.mul_div_cancel _ hT]
  obtain ⟨B, hsign, hlen, hB⟩ :=
    bddComputeSign_spec abc.toCudd C.nPi (show nPo * 2 ≠ 0 by omega)
  have hordlen : (List.range C.nPi).length = C.nPi := List.length_range
  unfold bddFold at h
  simp only [hvar, hnpo, hsign, Option.bind_eq_bind, Option.bind_some] at h
  rw [if_pos (show nPo ≠ 0 by omega), if_pos rfl] at h
  have hinp : ∀ i < T, ∀ k < nPo, ∀ f,
      ((abc.globalBdds C).map some).getD (i * nPo + k) none = some f →
      DependsOn (abc.eval f) { m | cuddI (List.range C.nPi) m < (List.range C.nPi).length } := by
    intro i hi k hk f hf x y hxy
    obtain ⟨f', hf', hfn⟩ := globalBdds_slot abc hC hl (hpo ▸ slot_lt hi hk)
    rw [hf] at hf'
    cases hf'
    rw [hfn, hfn]
    apply hC.fn_congr hl
    intro m hm
    apply hxy m
    show cuddI _ m < _
    rwa [cuddI_range, hordlen]
  have hcausal := causal_of_foldFrames (by rw [hordlen]) (hordlen.trans hpi) (by rwa [hordlen]) hlen
    hinp (show (⟨C.nPi, C.pos.length, nPi, nPo, T, 0, []⟩ : STG).nPi = nPi from rfl)
    (hordlen.trans_le (Nat.le_add_right _ _)) (by rw [hordlen]; exact h)
  intro t ht j hj x y hxy
  obtain ⟨f, hf, hfn⟩ := globalBdds_slot abc hC hl (hpo ▸ slot_lt ht hj)
  show C.fn x _ = C.fn y _
  rw [← hfn, ← hfn]
  apply hcausal t ht j hj f hf
  intro m hm
  have hm : cuddI (List.range C.nPi) m < (t + 1) * nPi := hm
  rw [cuddI_range] at hm
  exact hxy m hm

/-- An accepted circuit has been folded. -/
theorem folded_of_bddFold (abc : AbcBdd) {C : Ntk} (hC : C.Ok) (hl : C.latches = [])
    {nPi nPo T : ℕ} (hT : 1 ≤ T) (hnPo : 1 ≤ nPo) (hpi : C.nPi = nPi * T)
    (hpo : C.pos.length = nPo * T) {G : STG} (h : bddFold abc C T = some G) :
    ∃ B tab, Folded abc.toCudd (List.range C.nPi) ((abc.globalBdds C).map some) B
      (Nat.clog 2 (nPo * 2)) nPi nPo T G tab := by
  obtain ⟨G', B, tab, hrun, -, hG⟩ := bddFold_folded abc hC hl hT hnPo hpi hpo
    (iterative_of_bddFold abc hC hl hT hnPo hpi hpo h)
  obtain rfl := Option.some.inj (hrun.symm.trans h)
  exact ⟨B, tab, hG⟩

end ExtFolding.TimeFold
