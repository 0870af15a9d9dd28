import ExtFolding.TimeMux2.BddMux2

/-!
# `timeMux::bddMux`

Functional folding without sharing output pins: all outputs are shown in the last frame. The
states of every frame are cuts of one hyper-function, which is `f_k` behind signature `k`.
-/

namespace ExtFolding.TimeMux

open ExtFolding.Aig ExtFolding.Utils ExtFolding.TimeFold

section Model

variable (dd : Cudd) (order : List ℕ) (size : ℕ) (pNodeVec B : List dd.Node) (nCo : ℕ)

/-- `oFuncs`: the outputs after the inputs in `bCube`, and `NULL` before the last frame. -/
def stateFuncs (nTimeFrame i : ℕ) (bCube : dd.Node) : List (Option dd.Node) :=
  if i = nTimeFrame - 1 then pNodeVec.map fun f => some (dd.cofactor f bCube)
  else List.replicate nCo none

/-- The encoding of the off-sets and the on-sets in the last frame. -/
def encodeOutputs (nTimeFrame i : ℕ) (oFuncs : List (Option dd.Node)) :
    List (Option dd.Node) × dd.Node :=
  if i = nTimeFrame - 1 then
    (List.range 2).foldl (fun s k =>
      let oFuncs := bddNotVec dd s.1
      (oFuncs, dd.bddOr s.2 (bddDot dd oFuncs (B.drop (k * nCo))))) (oFuncs, dd.b0)
  else (oFuncs, dd.b1)

/-- The body of the loop over the current states. -/
def stateTrans (nTimeFrame i : ℕ) (nsts : Table dd) (stg : STG) (c : (dd.Node × dd.Node) × ℕ) :
    Option STG :=
  let cVNode := c.1.2
  let bCube := dd.cubeArrayToBdd size (dd.firstCube order cVNode)
  let (oFuncs, F) := encodeOutputs dd B nCo nTimeFrame i
    (stateFuncs dd pNodeVec nCo nTimeFrame i bCube)
  nsts.zipIdx.foldlM (fun stg n =>
    let nVNode := n.1.2
    if dd.bddAnd cVNode nVNode ≠ dd.b0 then
      let path := dd.cofactor nVNode bCube
      stg.addOneTrans dd order size (dd.bddAnd F path) oFuncs i c.2 n.2
    else some stg) stg

/-- `buildTrans` -/
def buildTrans (nTimeFrame i : ℕ) (csts nsts : Table dd) (stg : STG) : Option STG :=
  csts.zipIdx.foldlM (stateTrans dd order size pNodeVec B nCo nTimeFrame i nsts) stg

/-- The hyper-function. -/
def hyper : dd.Node := bddDot dd (pNodeVec.map some) B

/-- The states behind frame `i`. -/
def nextStates (H : dd.Node) (nVar nTimeFrame i : ℕ) : Table dd :=
  if i ≠ nTimeFrame - 1 then dd.nodePathsUnderCut order H (nVar * (i + 1))
  else bddCreateDummyState dd

/-- The variables of the loop. -/
structure MuxSt (dd : Cudd) where
  stg : STG
  csts : Table dd
  stsSum : ℕ

/-- The body of the loop. -/
def muxStep (H : dd.Node) (nVar nTimeFrame : ℕ) (s : MuxSt dd) (i : ℕ) : Option (MuxSt dd) := do
  let nsts := nextStates dd order H nVar nTimeFrame i
  let stsSum := s.stsSum + s.csts.length
  let stg ← buildTrans dd order size pNodeVec B nCo nTimeFrame i s.csts nsts s.stg
  return ⟨stg, nsts, stsSum⟩

/-- `for(i=0; i<nTimeFrame; ++i)`, and the number of states at the end. -/
def muxFrames (H : dd.Node) (nVar nTimeFrame : ℕ) (stg : STG) : Option STG := do
  let s ← (List.range nTimeFrame).foldlM
    (muxStep dd order size pNodeVec B nCo H nVar nTimeFrame) ⟨stg, bddCreateDummyState dd, 1⟩
  return { s.stg with nSts := s.stsSum }

end Model

/-- The order of the manager. With `perm`, `sift` reorders while the BDDs are built, and `ro`
once more after the hyper-function; both move levels of inputs only. -/
def muxOrder (sift ro : TimeMux2.Reorder) (initVarSize : ℕ) (perm : Bool) : List ℕ :=
  if perm then ro.run (sift.run (List.range initVarSize) 0 initVarSize) 0 initVarSize
  else List.range initVarSize

/-- `bddMux`: the graph, and the levels of the inputs that are written to `perm`. -/
def bddMux (abc : AbcBdd) (sift ro : TimeMux2.Reorder) (C : Ntk) (nTimeFrame : ℕ) (perm : Bool) :
    Option (STG × Option (List ℕ)) := do
  let nCo := C.pos.length
  let initVarSize := C.nPi
  let nVar := initVarSize / nTimeFrame
  let stg : STG := ⟨initVarSize, nCo * nTimeFrame, nVar, nCo, nTimeFrame, 0, []⟩
  let pNodeVec := abc.globalBdds C
  let nB := if nCo ≠ 0 then Nat.clog 2 (nCo * 2) else 0
  let (B, size) ← bddComputeSign abc.toCudd initVarSize (nCo * 2)
  if initVarSize + nB = size then
    let H := hyper abc.toCudd pNodeVec B
    let order := muxOrder sift ro initVarSize perm
    if perm ∧ ¬ ∀ i ∈ List.range' initVarSize nB, i = cuddI order i then none
    else
      let G ← muxFrames abc.toCudd order size pNodeVec B nCo H nVar nTimeFrame stg
      return (G, if perm then some ((List.range initVarSize).map (cuddI order)) else none)
  else none

/-! ## The same transitions, with empty slots before the last frame -/

/-- The outputs by slot, all in the last frame. -/
def lastSlots {α : Type} (nCo T : ℕ) (cos : List α) : List (Option α) :=
  List.replicate (nCo * (T - 1)) none ++ cos.map some

section Slots

variable {dd : Cudd} {order : List ℕ} {size nCo T i : ℕ} {pNodeVec B : List dd.Node}

theorem getD_lastSlots {α : Type} {cos : List α} (hi : i < T) {k : ℕ} (hk : k < nCo) :
    (lastSlots nCo T cos).getD (i * nCo + k) none = if i = T - 1 then cos[k]? else none := by
  unfold lastSlots
  split
  · next h =>
      subst h
      rw [Nat.mul_comm, List.getD, List.getElem?_append_right (by simp), List.length_replicate,
        Nat.add_sub_cancel_left, List.getElem?_map]
      cases cos[k]? <;> rfl
  · next h =>
      have hlt : i * nCo + k < nCo * (T - 1) := slot_lt (by omega) hk
      rw [List.getD, List.getElem?_append_left (by simpa using hlt), List.getElem?_replicate,
        if_pos hlt]
      rfl

variable (hlen : pNodeVec.length = nCo) (hi : i < T)
include hlen hi

theorem stateFuncs_eq (bCube : dd.Node) : stateFuncs dd pNodeVec nCo T i bCube =
    TimeFold.stateFuncs dd (lastSlots nCo T pNodeVec) nCo i bCube := by
  symm
  apply map_range_eq
  · unfold stateFuncs
    split <;> simp [hlen]
  · intro k a hk
    have hlt : k < nCo := by
      have := (List.getElem?_eq_some_iff.mp hk).1
      unfold stateFuncs at this
      split at this <;> simpa [hlen] using this
    rw [getD_lastSlots hi hlt]
    unfold stateFuncs at hk
    split at hk
    · next hT =>
        rw [List.getElem?_map] at hk
        rw [if_pos hT]
        cases hf : pNodeVec[k]? with
        | none => simp [hf] at hk
        | some f => simpa [hf] using hk
    · next hT =>
        rw [if_neg hT]
        exact (List.eq_of_mem_replicate (List.mem_of_getElem? hk)).symm

/-- With an output at all, the last frame has one. -/
theorem encodeOutputs_eq (hnCo : 0 < nCo) (bCube : dd.Node) :
    encodeOutputs dd B nCo T i (stateFuncs dd pNodeVec nCo T i bCube) =
      TimeFold.encodeOutputs dd B nCo
        (TimeFold.stateFuncs dd (lastSlots nCo T pNodeVec) nCo i bCube) := by
  rw [← stateFuncs_eq hlen hi]
  have hany : (stateFuncs dd pNodeVec nCo T i bCube).any Option.isSome = true ↔ i = T - 1 := by
    unfold stateFuncs
    split
    · next h =>
        obtain ⟨f, fs, rfl⟩ := List.exists_cons_of_length_pos (hlen ▸ hnCo)
        simp [h]
    · next h => simp [h]
  unfold encodeOutputs TimeFold.encodeOutputs
  exact if_congr hany.symm rfl rfl

theorem buildTrans_eq (hnCo : 0 < nCo) (csts nsts : Table dd) (stg : STG) :
    buildTrans dd order size pNodeVec B nCo T i csts nsts stg =
      TimeFold.buildTrans dd order size (lastSlots nCo T pNodeVec) B nCo i csts nsts stg := by
  unfold buildTrans TimeFold.buildTrans
  congr 1
  funext stg c
  unfold stateTrans TimeFold.stateTrans
  simp only [encodeOutputs_eq hlen hi hnCo]

end Slots

/-! ## Cuts of one hyper-function -/

/-- The states before frame `t`. -/
def stateTable (dd : Cudd) (order : List ℕ) (H : dd.Node) (nVar T t : ℕ) : Table dd :=
  if t = 0 ∨ t = T then bddCreateDummyState dd else dd.nodePathsUnderCut order H (nVar * t)

section States

variable {dd : Cudd} {order : List ℕ} {nCo nB nVar T : ℕ} {pNodeVec B : List dd.Node}
  {H : dd.Node}

theorem nextStates_eq {i : ℕ} (hi : i < T) :
    nextStates dd order H nVar T i = stateTable dd order H nVar T (i + 1) := by
  unfold nextStates stateTable
  by_cases h : i = T - 1
  · rw [if_neg (not_not.mpr h), if_pos (Or.inr (by omega))]
  · rw [if_pos h, if_neg (by omega)]

theorem tableOk_stateTable (hcut : Cuts dd order H) (t : ℕ) :
    TableOk dd order (t * nVar) (stateTable dd order H nVar T t) := by
  unfold stateTable
  split
  · exact tableOk_dummy _
  · rw [Nat.mul_comm]
    exact tableOk_of_cuts hcut _

/-- Below the cut above frame `i`, all deeper cuts are determined. -/
theorem eval_deeper (hcut : Cuts dd order H) {L L' : ℕ} (hle : L ≤ L') {x y : Assign}
    (hres : ∀ z, dd.eval H (glue (cuddI order) L x z) = dd.eval H (glue (cuddI order) L y z))
    (hxy : ∀ m, L ≤ cuddI order m → x m = y m) {n : dd.Node × dd.Node}
    (hn : n ∈ dd.nodePathsUnderCut order H L') : dd.eval n.2 x = dd.eval n.2 y := by
  rw [Bool.eq_iff_iff, hcut.paths L' n hn, hcut.paths L' n hn]
  apply forall_congr'
  intro z
  rw [← glue_glue hle (fun _ _ => rfl) z (x := x), hres, glue_glue hle hxy z]

theorem shows_hyper (hB : IsSign dd order.length nB B) (hBlen : B.length = nCo * 2)
    (hlen : pNodeVec.length = nCo) {k : ℕ} {f : dd.Node} (hf : pNodeVec[k]? = some f) :
    Shows dd order (hyper dd pNodeVec B) f := by
  have hk : k < nCo := hlen ▸ (List.getElem?_eq_some_iff.mp hf).1
  intro z
  refine ⟨(bitCube order.length nB k).put z, fun m hm => ?_, fun w hw => ?_⟩
  · apply Cube.put_of_none
    rw [bitCube, if_neg]
    intro h
    rw [cuddI_of_ge h.1] at hm
    exact Nat.not_lt.mpr h.1 hm
  · have hcode : HasCode order.length nB k w := by
      intro m hm
      rw [hw _ (by rw [cuddI_of_ge (Nat.le_add_right _ _)]; exact Nat.le_add_right _ _)]
      exact holds_bitCube.mp (Cube.holds_put _ z) m hm
    have hslot : (pNodeVec.map some).getD (0 * nCo + k) none = some f := by
      simp [List.getD, hf]
    have hft := eval_ft hB hBlen hk hslot hcode
    rwa [Nat.zero_mul, List.drop_zero, List.take_of_length_le (by simp [hlen])] at hft

variable (hB : IsSign dd order.length nB B) (hBlen : B.length = nCo * 2)
  (hlen : pNodeVec.length = nCo) (hnVar : order.length = nVar * T)
  (hdep : ∀ f ∈ pNodeVec, DependsOn (dd.eval f) { m | cuddI order m < order.length })

include hnVar hdep in
/-- The outputs may read all inputs: they are in the last frame. -/
theorem dependsOn_lastSlots {i : ℕ} (hi : i < T) {k : ℕ} (hk : k < nCo) {f : dd.Node}
    (hf : (lastSlots nCo T pNodeVec).getD (i * nCo + k) none = some f) :
    DependsOn (dd.eval f) { m | cuddI order m < (i + 1) * nVar } := by
  rw [getD_lastSlots hi hk] at hf
  split at hf
  · next hT =>
      rw [hT, Nat.sub_add_cancel (Nat.one_le_of_lt hi), Nat.mul_comm, ← hnVar]
      exact hdep f (List.mem_of_getElem? hf)
  · cases hf

include hB hBlen hlen hnVar hdep in
theorem sameFuture_stateTable (hcut : Cuts dd order (hyper dd pNodeVec B)) {i : ℕ} (hi : i < T) :
    ∀ e ∈ stateTable dd order (hyper dd pNodeVec B) nVar T i,
      SameFuture dd order (lastSlots nCo T pNodeVec) nCo i (i * nVar)
        (stateTable dd order (hyper dd pNodeVec B) nVar T (i + 1)) e.2 := by
  intro e he
  by_cases hi0 : i = 0
  · subst hi0
    rw [Nat.zero_mul]
    rw [stateTable, if_pos (Or.inl rfl)] at he
    exact sameFuture_dummy e he
  · rw [stateTable, if_neg (by omega), Nat.mul_comm] at he
    have hres := fun {x y} => residual_of_cuts hcut he (x := x) (y := y)
    have hle : i * nVar ≤ order.length := by
      rw [hnVar, Nat.mul_comm]
      exact Nat.mul_le_mul_left _ hi.le
    constructor
    · intro x y hx hy hxy k hk f hf
      rw [getD_lastSlots hi hk] at hf
      split at hf
      · exact IsHyper.eq_of_residual le_rfl hle (hdep f (List.mem_of_getElem? hf))
          (shows_hyper hB hBlen hlen hf) (hres hx hy) hxy
      · cases hf
    · intro x y hx hy hxy n hn
      unfold stateTable at hn
      split at hn
      · obtain rfl : n = (dd.b1, dd.b1) := by simpa [bddCreateDummyState] using hn
        rw [dd.eval_b1, dd.eval_b1]
      · rw [Nat.mul_comm] at hn
        exact eval_deeper hcut (Nat.mul_le_mul_right _ (Nat.le_succ i)) (hres hx hy) hxy hn

/-- The invariant of the loop before frame `t`. -/
structure MuxInv (dd : Cudd) (order : List ℕ) (H : dd.Node) (nVar T t : ℕ) (stg : STG)
    (s : MuxSt dd) : Prop where
  csts : s.csts = stateTable dd order H nVar T t
  stg : ∃ rows, s.stg = { stg with transs := rows }

/-- What frame `t` adds. -/
structure MuxAdds (dd : Cudd) (order : List ℕ) (pNodeVec : List dd.Node) (nCo nVar T : ℕ)
    (H : dd.Node) (t : ℕ) (stg : STG) (s s' : MuxSt dd) (rows : List TransRow) : Prop where
  sum : s'.stsSum = s.stsSum + s.csts.length
  transs : s'.stg.transs = s.stg.transs ++ rows
  rows : FrameRows dd order (lastSlots nCo T pNodeVec) nCo t (stateTable dd order H nVar T t)
    (stateTable dd order H nVar T (t + 1)) stg rows

variable (hord : order.Perm (List.range order.length)) {size : ℕ} (hsize : order.length ≤ size)
  (hnCo : 0 < nCo) (hcut : Cuts dd order (hyper dd pNodeVec B)) {stg : STG}
  (hPi : stg.nPi = nVar)
include hB hBlen hlen hnVar hdep hord hsize hnCo hcut hPi

theorem muxStep_spec {t : ℕ} (ht : t < T) {s : MuxSt dd}
    (h : MuxInv dd order (hyper dd pNodeVec B) nVar T t stg s) :
    ∃ s', muxStep dd order size pNodeVec B nCo (hyper dd pNodeVec B) nVar T s t = some s' ∧
      MuxInv dd order (hyper dd pNodeVec B) nVar T (t + 1) stg s' ∧
      ∃ rows, MuxAdds dd order pNodeVec nCo nVar T (hyper dd pNodeVec B) t stg s s' rows := by
  obtain ⟨rows₀, hstg⟩ := h.stg
  have hvEnd : (t + 1) * nVar ≤ order.length := by
    rw [hnVar, Nat.mul_comm]
    exact Nat.mul_le_mul_left _ ht
  have hframe : FrameOk dd order size (lastSlots nCo T pNodeVec) B nB nCo t (t * s.stg.nPi)
      ((t + 1) * s.stg.nPi) (stateTable dd order (hyper dd pNodeVec B) nVar T t)
      (stateTable dd order (hyper dd pNodeVec B) nVar T (t + 1)) := by
    have hnPi : s.stg.nPi = nVar := by rw [hstg, hPi]
    rw [hnPi]
    exact ⟨⟨hord, hsize, Nat.mul_le_mul_right _ (Nat.le_succ t), hvEnd, hB, hBlen,
      tableOk_stateTable hcut t, tableOk_stateTable hcut (t + 1),
      sameFuture_stateTable hB hBlen hlen hnVar hdep hcut ht⟩,
      fun k hk f hf => dependsOn_lastSlots hnVar hdep ht hk hf⟩
  obtain ⟨rows, hrun, hrows⟩ := buildTrans_spec hframe
  refine ⟨⟨{ s.stg with transs := s.stg.transs ++ rows },
    stateTable dd order (hyper dd pNodeVec B) nVar T (t + 1), s.stsSum + s.csts.length⟩, ?_,
    ⟨rfl, _, by rw [hstg]⟩, rows, rfl, rfl, ?_⟩
  · unfold muxStep
    simp only [h.csts, nextStates_eq ht, buildTrans_eq hlen ht hnCo, hrun, Option.bind_eq_bind,
      Option.bind_some]
    rfl
  · refine hrows.congr ?_ ?_ <;> rw [hstg]

variable (stg) in
/-- The graph of the loop has a layer of states for every frame: the cuts. -/
theorem muxFrames_layers (hT : stg.nTimeFrame = T) (hT1 : 1 ≤ T) (hnil : stg.transs = []) :
    ∃ G rows, muxFrames dd order size pNodeVec B nCo (hyper dd pNodeVec B) nVar T stg = some G ∧
      G = { stg with
        transs := G.transs
        nSts := 1 + ∑ t ∈ Finset.range T,
          (stateTable dd order (hyper dd pNodeVec B) nVar T t).length } ∧
      Layers dd order (lastSlots nCo T pNodeVec) nCo G
        (stateTable dd order (hyper dd pNodeVec B) nVar T) rows (List.range T) := by
  obtain ⟨s, hs0, hinv, hstep, hrun⟩ := foldlM_range
    (MuxInv dd order (hyper dd pNodeVec B) nVar T · stg)
    (fun t ht b hb => (muxStep_spec hB hBlen hlen hnVar hdep hord hsize hnCo hcut hPi ht hb).imp
      fun b' hb' => ⟨hb'.1, hb'.2.1⟩)
    (b := (⟨stg, bddCreateDummyState dd, 1⟩ : MuxSt dd))
    ⟨(if_pos (Or.inl rfl)).symm, [], by rw [← hnil]⟩
  have hadds : ∀ t < T, ∃ rows, MuxAdds dd order pNodeVec nCo nVar T (hyper dd pNodeVec B) t stg
      (s t) (s (t + 1)) rows := by
    intro t ht
    obtain ⟨s', hs', -, hadd⟩ :=
      muxStep_spec hB hBlen hlen hnVar hdep hord hsize hnCo hcut hPi ht (hinv t ht.le)
    rw [hstep t ht] at hs'
    rwa [Option.some.inj hs']
  choose! rows hrows using hadds
  -- what the frames below `k` have added
  have hsum : ∀ k ≤ T, (s k).stsSum = 1 + ∑ t ∈ Finset.range k,
      (stateTable dd order (hyper dd pNodeVec B) nVar T t).length := by
    intro k
    induction k with
    | zero => simp [hs0]
    | succ k ih =>
        intro hk
        rw [(hrows k hk).sum, ih (Nat.le_of_succ_le hk), (hinv k (Nat.le_of_succ_le hk)).csts,
          Finset.sum_range_succ, Nat.add_assoc]
  have htrans : (s T).stg.transs = (List.range T).flatMap rows := by
    rw [eq_append_flatMap (f := fun k => (s k).stg.transs) fun k hk => (hrows k hk).transs, hs0,
      hnil, List.nil_append]
  obtain ⟨rows₀, hstg⟩ := (hinv T le_rfl).stg
  have hTF : (s T).stg.nTimeFrame = T := by rw [hstg, hT]
  have hnPi : (s T).stg.nPi = nVar := by rw [hstg, hPi]
  refine ⟨{ (s T).stg with nSts := (s T).stsSum }, rows, ?_, ?_, hTF.symm ▸ hT1,
    if_pos (Or.inl rfl), if_pos (Or.inr hTF), fun t _ => ?_, fun t ht => ?_, ?_, htrans⟩
  · unfold muxFrames
    simp only [hrun, Option.bind_eq_bind, Option.bind_some]
    rfl
  · rw [hstg, hsum T le_rfl]
  · show TableOk dd order (t * (s T).stg.nPi) _
    rw [hnPi]
    exact tableOk_stateTable hcut t
  · exact (hrows t (hTF ▸ ht)).rows.congr (hnPi.trans hPi.symm) (hTF.trans hT.symm)
  · show (List.range T).Perm (List.range (s T).stg.nTimeFrame)
    rw [hTF]

end States

/-! ## Folding -/

theorem Reorder.run_perm (ro : TimeMux2.Reorder) {order : List ℕ} {n : ℕ}
    (h : order.Perm (List.range n)) : (ro.run order 0 n).Perm (List.range n) := by
  have hlen : order.length = n := by simpa using h.length_eq
  obtain ⟨mid, hrun, hmid⟩ := ro.spec order 0 n (by omega)
  rw [hrun, Nat.zero_add, List.take_zero, List.nil_append, List.drop_of_length_le hlen.le,
    List.append_nil]
  rw [List.drop_zero, List.take_of_length_le hlen.le] at hmid
  exact hmid.trans h

theorem muxOrder_perm (sift ro : TimeMux2.Reorder) (n : ℕ) (perm : Bool) :
    (muxOrder sift ro n perm).Perm (List.range n) := by
  unfold muxOrder
  split
  · exact Reorder.run_perm ro (Reorder.run_perm sift (List.Perm.refl _))
  · exact List.Perm.refl _

/-- The cuts of the hyper-function of `C` are as specified, also when it is constant. -/
def CutsOk (abc : AbcBdd) (C : Ntk) (order : List ℕ) : Prop :=
  ∀ B size, bddComputeSign abc.toCudd C.nPi (C.pos.length * 2) = some (B, size) →
    Cuts abc.toCudd order (hyper abc.toCudd (abc.globalBdds C) B)

section

variable (abc : AbcBdd) (sift ro : TimeMux2.Reorder) {C : Ntk}

/-- The graph of `bddMux` and the levels it reports. -/
theorem bddMux_layers (hC : C.Ok) (hl : C.latches = []) {nPi T : ℕ} (hT : 1 ≤ T)
    (hpi : C.nPi = nPi * T) (hpo : 1 ≤ C.pos.length) (perm : Bool)
    (hcut : CutsOk abc C (muxOrder sift ro C.nPi perm)) :
    ∃ G tab rows, bddMux abc sift ro C T perm = some (G,
        if perm then some ((List.range C.nPi).map (cuddI (muxOrder sift ro C.nPi perm)))
        else none) ∧
      G = ⟨C.nPi, C.pos.length * T, nPi, C.pos.length, T,
        1 + ∑ t ∈ Finset.range T, (tab t).length, G.transs⟩ ∧
      Layers abc.toCudd (muxOrder sift ro C.nPi perm)
        (lastSlots C.pos.length T (abc.globalBdds C)) C.pos.length G tab rows (List.range T) := by
  set order := muxOrder sift ro C.nPi perm with horder
  have hordlen : order.length = C.nPi := by
    simpa using (muxOrder_perm sift ro C.nPi perm).length_eq
  have hord : order.Perm (List.range order.length) := by
    rw [hordlen]
    exact muxOrder_perm sift ro C.nPi perm
  obtain ⟨B, hsign, hBlen, hB⟩ :=
    bddComputeSign_spec abc.toCudd C.nPi (show C.pos.length * 2 ≠ 0 by omega)
  have hdep : ∀ f ∈ abc.globalBdds C,
      DependsOn (abc.eval f) { m | cuddI order m < order.length } := by
    intro f hf x y hxy
    obtain ⟨o, ho⟩ := List.mem_iff_getElem?.mp hf
    rw [abc.eval_globalBdds C hC hl o f ho, abc.eval_globalBdds C hC hl o f ho]
    exact hC.fn_congr hl (fun m hm => hxy m ((cuddI_lt hord).mpr (hordlen.symm ▸ hm))) o
  obtain ⟨G, rows, hrun, hG, hlay⟩ := muxFrames_layers (by rwa [hordlen]) hBlen
    (abc.globalBdds_length C) (hordlen.trans hpi) hdep hord
    (hordlen.trans_le (Nat.le_add_right C.nPi (Nat.clog 2 (C.pos.length * 2)))) hpo
    (hcut B _ hsign) ⟨C.nPi, C.pos.length * T, nPi, C.pos.length, T, 0, []⟩ rfl rfl hT rfl
  refine ⟨G, _, rows, ?_, hG, hlay⟩
  have hdiv : C.nPi / T = nPi := by rw [hpi, Nat.mul_div_cancel _ hT]
  have hassert : ¬ (perm = true ∧ ¬ ∀ i ∈ List.range' C.nPi (Nat.clog 2 (C.pos.length * 2)),
      i = cuddI order i) := by
    rintro ⟨-, hno⟩
    apply hno
    intro i hi
    rw [cuddI_of_ge (hordlen.trans_le (List.mem_range'_1.mp hi).1)]
  unfold bddMux
  simp only [hdiv, hsign, Option.bind_eq_bind, Option.bind_some]
  rw [if_pos (Nat.ne_of_gt hpo), if_pos rfl, ← horder, if_neg hassert, hrun]
  rfl

/-- The last frame shows all outputs, the others none. -/
theorem frameChars_lastSlots (hC : C.Ok) (hl : C.latches = []) {t T : ℕ} (ht : t < T)
    (x : Assign) :
    frameChars abc.toCudd (lastSlots C.pos.length T (abc.globalBdds C)) C.pos.length t x =
      if t = T - 1 then (List.range C.pos.length).map fun k => bitChar (C.fn x k)
      else List.replicate C.pos.length '-' := by
  unfold frameChars
  split
  · next hT =>
      apply List.map_congr_left
      intro k hk
      have hlt : k < (abc.globalBdds C).length := by
        rw [abc.globalBdds_length]
        exact List.mem_range.mp hk
      rw [getD_lastSlots ht (List.mem_range.mp hk), if_pos hT, List.getElem?_eq_getElem hlt]
      exact congrArg bitChar (abc.eval_globalBdds C hC hl k _ (List.getElem?_eq_getElem hlt) x)
  · next hT =>
      rw [List.eq_replicate_iff, List.length_map, List.length_range]
      refine ⟨rfl, fun ch hch => ?_⟩
      obtain ⟨k, hk, rfl⟩ := List.mem_map.mp hch
      rw [getD_lastSlots ht (List.mem_range.mp hk), if_neg hT]

/-- The hyper-function is not constant when some output can be `1`. -/
theorem cutsOk_of_output (hC : C.Ok) (hl : C.latches = []) {order : List ℕ}
    (hord : order.Perm (List.range C.nPi)) {o : ℕ} (ho : o < C.pos.length) {x : Assign}
    (hx : C.fn x o = true) : CutsOk abc C order := by
  intro B size hsign
  have hordlen : order.length = C.nPi := by simpa using hord.length_eq
  obtain ⟨B', hsign', hBlen, hB⟩ :=
    bddComputeSign_spec abc.toCudd C.nPi (show C.pos.length * 2 ≠ 0 by omega)
  rw [hsign] at hsign'
  cases hsign'
  have hlt : o < (abc.globalBdds C).length := by rwa [abc.globalBdds_length]
  have hf := List.getElem?_eq_getElem hlt
  obtain ⟨z, hz, hshow⟩ := shows_hyper (by rwa [hordlen]) hBlen (abc.globalBdds_length C) hf x
  have hord' : order.Perm (List.range order.length) := hordlen.symm ▸ hord
  apply Cuts.of_ne_b0 hord'
  refine abc.ne_b0_iff.mpr ⟨z, ?_⟩
  rw [hshow z fun _ _ => rfl, abc.eval_globalBdds C hC hl o _ hf, ← hx]
  exact hC.fn_congr hl (fun m hm => hz m ((cuddI_lt hord').mpr (hordlen.symm ▸ hm))) o

/-- Folding without pin sharing preserves the circuit: run on the pins given by the levels,
exactly one row matches in every frame, and only the last frame shows outputs, all of them. -/
theorem bddMux_folds (hC : C.Ok) (hl : C.latches = []) {nPi T : ℕ} (hT : 1 ≤ T)
    (hpi : C.nPi = nPi * T) (hpo : 1 ≤ C.pos.length) (perm : Bool)
    (hcut : CutsOk abc C (muxOrder sift ro C.nPi perm)) :
    ∃ G p, bddMux abc sift ro C T perm = some (G, p) ∧ p.isSome = perm ∧
      (p.getD (List.range C.nPi)).Perm (List.range (nPi * T)) ∧
      ∀ x inp, TimeMux2.Feeds (p.getD (List.range C.nPi)) nPi x inp → ∀ t < T, ∃ s row,
        G.stateAt inp t = some s ∧ G.matching s (inp t) = [row] ∧
        row.output = if t = T - 1 then (List.range C.pos.length).map fun k => bitChar (C.fn x k)
          else List.replicate C.pos.length '-' := by
  obtain ⟨G, tab, rows, hrun, hG, hlay⟩ := bddMux_layers abc sift ro hC hl hT hpi hpo perm hcut
  set order := muxOrder sift ro C.nPi perm with horder
  have hperm : order.Perm (List.range C.nPi) := muxOrder_perm sift ro C.nPi perm
  have hordlen : order.length = C.nPi := by simpa using hperm.length_eq
  have hord : order.Perm (List.range order.length) := hordlen.symm ▸ hperm
  have hlevel : ((if perm then some ((List.range C.nPi).map (cuddI order)) else none).getD
      (List.range C.nPi)) = (List.range C.nPi).map (cuddI order) := by
    cases perm with
    | true => rfl
    | false =>
        conv_lhs => rw [← List.map_id (List.range C.nPi)]
        apply List.map_congr_left
        intro m _
        exact (cuddI_range C.nPi m).symm
  refine ⟨G, _, hrun, by cases perm <;> rfl, ?_, fun x inp hx t ht => ?_⟩
  · rw [hlevel, ← hpi]
    apply TimeMux2.perm_range_of_nodup
    · exact List.nodup_range.map (cuddI_injective hord)
    · intro p hp
      obtain ⟨m, hm, rfl⟩ := List.mem_map.mp hp
      rw [← hordlen, cuddI_lt hord, hordlen]
      exact List.mem_range.mp hm
    · simp
  · rw [hlevel] at hx
    have hcar : Carries order nPi T x inp := TimeMux2.carries_of_feeds hord (hordlen.trans hpi)
      (by simp [hordlen]) (fun m hm => by
        rw [List.getD, List.getElem?_map, List.getElem?_range (hordlen ▸ hm)]
        rfl) hx
    have hTF : G.nTimeFrame = T := by rw [hG]
    have hGPi : G.nPi = nPi := by rw [hG]
    rw [← hGPi, ← hTF] at hcar
    obtain ⟨s, -, hs⟩ := hlay.run hcar
    obtain ⟨hstate, -, row, hmatch, -, hout⟩ := hs t (hTF.symm ▸ ht)
    refine ⟨s t, row, hstate, hmatch, ?_⟩
    rw [hout, frameChars_lastSlots abc hC hl ht]

end

/-- Two outputs over two inputs, both shown in the second frame. -/
theorem bddMux_wiresNtk :
    ∃ G p, bddMux Robdd.abcBdd TimeMux2.reverseRange TimeMux2.reverseRange TimeMux2.wiresNtk 2
        true = some (G, p) ∧ p.isSome = true ∧
      (p.getD (List.range 2)).Perm (List.range (1 * 2)) ∧
      ∀ x inp, TimeMux2.Feeds (p.getD (List.range 2)) 1 x inp → ∀ t < 2, ∃ s row,
        G.stateAt inp t = some s ∧ G.matching s (inp t) = [row] ∧
        row.output = if t = 2 - 1
          then (List.range 2).map fun k => bitChar (TimeMux2.wiresNtk.fn x k)
          else List.replicate 2 '-' :=
  bddMux_folds Robdd.abcBdd TimeMux2.reverseRange TimeMux2.reverseRange TimeMux2.wiresNtk_ok rfl
    (by decide) rfl (by decide) true
    (cutsOk_of_output Robdd.abcBdd TimeMux2.wiresNtk_ok rfl (muxOrder_perm _ _ _ _)
      (show 0 < 2 by decide) (show TimeMux2.wiresNtk.fn (fun _ => true) 0 = true by decide))

end ExtFolding.TimeMux
