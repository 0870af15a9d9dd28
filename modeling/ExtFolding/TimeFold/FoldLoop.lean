import ExtFolding.TimeFold.Layers

/-!
# The frames from last to first

`bddFold` and `bddMux2` run the same loop: from the states behind frame `i` and the outputs
of frame `i` they build a hyper-function whose cut above frame `i` gives the states before it,
and then the transitions of the frame. The variables `a` behind the signatures tell outputs
and states apart.
-/

namespace ExtFolding.TimeFold

open ExtFolding.Utils

section Model

variable (dd : Cudd) (order : List ℕ) (initVarSize : ℕ) (pNodeVec : List (Option dd.Node))
  (B : List dd.Node) (nB nPi nPo : ℕ)

/-- The variable `a[j]`. -/
def aVar (initVarSize nB j : ℕ) : ℕ := initVarSize + nB + j

/-- The hyper-function of the outputs of frame `i` and of the states behind it, with the
assertion on a single state, and the number of variables after it. -/
def hyper (i : ℕ) (nsts : Table dd) (size : ℕ) : Option (dd.Node × ℕ) :=
  let pFuncs := nsts.map Prod.snd
  if pFuncs.length = 1 ∧ pFuncs[0]? ≠ some dd.b1 then none
  else
    let na := Nat.clog 2 pFuncs.length + 2
    let a := aVar initVarSize nB
    let size := sizeAfter size ((List.range na).map a)
    let ft := bddDot dd ((pNodeVec.drop (i * nPo)).take nPo) B
    let ft := dd.bddAnd (dd.cuddNot (dd.ithVar (a 0))) ft
    let tmp1 := dd.encodingBinary pFuncs ((List.range (na - 1)).map fun j => a (j + 1))
    let tmp2 := dd.bddAnd (dd.ithVar (a 0)) tmp1
    some (dd.bddOr ft tmp2, size)

/-- The states before frame `i`. -/
def currentStates (i : ℕ) (nsts : Table dd) (size : ℕ) : Option (Table dd × ℕ) :=
  if i ≠ 0 then
    (hyper dd initVarSize pNodeVec B nB nPo i nsts size).map fun H =>
      (dd.nodePathsUnderCut order H.1 (nPi * i), H.2)
  else some (bddCreateDummyState dd, size)

/-- The variables of the loop. -/
structure FoldSt (dd : Cudd) where
  stg : STG
  nsts : Table dd
  size : ℕ
  stsSum : ℕ

/-- The body of the loop. -/
def foldStep (s : FoldSt dd) (i : ℕ) : Option (FoldSt dd) := do
  let (csts, size) ← currentStates dd order initVarSize pNodeVec B nB nPi nPo i s.nsts s.size
  let stg ← buildTrans dd order size pNodeVec B nPo i csts s.nsts s.stg
  return ⟨stg, csts, size, s.stsSum + csts.length⟩

/-- `for(i=nTimeFrame-1; i>=0; --i)`, and the number of states at the end. -/
def foldFrames (size nTimeFrame : ℕ) (stg : STG) : Option STG := do
  let s ← (List.range nTimeFrame).reverse.foldlM
    (foldStep dd order initVarSize pNodeVec B nB nPi nPo) ⟨stg, bddCreateDummyState dd, size, 1⟩
  return { s.stg with nSts := s.stsSum }

/-- The tables of the loop from the last frame back. -/
def FoldTables (T : ℕ) (tab : ℕ → Table dd) : Prop :=
  tab T = bddCreateDummyState dd ∧ ∀ i < T, ∃ size size',
    currentStates dd order initVarSize pNodeVec B nB nPi nPo i (tab (i + 1)) size =
      some (tab i, size')

end Model

/-! ## The cut gives the states -/

section Cut

variable {dd : Cudd} {order : List ℕ} {pNodeVec : List (Option dd.Node)} {B : List dd.Node}
  {nB nPo i vStart vEnd : ℕ} {nsts : Table dd}

theorem tableOk_dummy (L : ℕ) : TableOk dd order L (bddCreateDummyState dd) := by
  have hmem : ∀ e ∈ bddCreateDummyState dd, e = (dd.b1, dd.b1) := fun e he => by
    simpa [bddCreateDummyState] using he
  refine ⟨fun e he x y _ => ?_, fun e he => ?_, fun x => ⟨0, _, rfl, dd.eval_b1 x⟩, ?_⟩
  · rw [hmem e he, dd.eval_b1, dd.eval_b1]
  · rw [hmem e he]
    exact dd.b1_ne_b0
  · intro x c c' e e' hc hc' _ _
    have hlt := (List.getElem?_eq_some_iff.mp hc).1
    have hlt' := (List.getElem?_eq_some_iff.mp hc').1
    simp only [bddCreateDummyState, List.length_singleton] at hlt hlt'
    omega

/-- Before frame `0` there is one state, and nothing has been read. -/
theorem sameFuture_dummy : ∀ e ∈ bddCreateDummyState dd,
    SameFuture dd order pNodeVec nPo i 0 nsts e.2 := by
  intro e _
  have heq : ∀ {x y : Assign}, (∀ m, 0 ≤ cuddI order m → x m = y m) → x = y := fun h =>
    funext fun m => h m (Nat.zero_le _)
  exact ⟨fun _ _ hxy _ _ _ _ => by rw [heq hxy], fun _ _ hxy _ _ => by rw [heq hxy]⟩

section Hyper

variable (hvEnd : vEnd ≤ order.length) (hle : vStart ≤ vEnd)
  (hB : IsSign dd order.length nB B) (hlen : B.length = nPo * 2)
  (hn : TableOk dd order vEnd nsts)

/-- `H` becomes `f` for suitable values of the variables behind the inputs. -/
def Shows (dd : Cudd) (order : List ℕ) (H f : dd.Node) : Prop :=
  ∀ z : Assign, ∃ z' : Assign, (∀ m, cuddI order m < order.length → z' m = z m) ∧
    ∀ w : Assign, (∀ m, order.length ≤ cuddI order m → w m = z' m) → dd.eval H w = dd.eval f w

/-- What the hyper-function shows: an output under its signature, a state under its code. -/
structure IsHyper (dd : Cudd) (order : List ℕ) (pNodeVec : List (Option dd.Node)) (nPo i : ℕ)
    (nsts : Table dd) (H : dd.Node) : Prop where
  out : ∀ k < nPo, ∀ f, pNodeVec.getD (i * nPo + k) none = some f → Shows dd order H f
  next : ∀ e ∈ nsts, Shows dd order H e.2
  only : ∀ {w w' : Assign}, (∀ m, order.length ≤ cuddI order m → w m = w' m) →
    (∀ k < nPo, ∀ f, pNodeVec.getD (i * nPo + k) none = some f → dd.eval f w = dd.eval f w') →
    (∀ e ∈ nsts, dd.eval e.2 w = dd.eval e.2 w') → dd.eval H w = dd.eval H w'

theorem frameSlots_iff {k : ℕ} {f : dd.Node} :
    ((pNodeVec.drop (i * nPo)).take nPo)[k]? = some (some f) ↔
      k < nPo ∧ pNodeVec.getD (i * nPo + k) none = some f := by
  rw [List.getElem?_take, List.getD, List.getElem?_drop]
  split
  · next hlt =>
      rw [and_iff_right hlt]
      cases pNodeVec[i * nPo + k]? with
      | none => simp
      | some o => simp
  · next hlt => simp [hlt]

include hB hlen in
theorem eval_ft {k : ℕ} (hk : k < nPo) {f : dd.Node}
    (hf : pNodeVec.getD (i * nPo + k) none = some f) {w : Assign}
    (hw : HasCode order.length nB k w) :
    dd.eval (bddDot dd ((pNodeVec.drop (i * nPo)).take nPo) B) w = dd.eval f w := by
  have hkB : k < B.length := by omega
  rw [Bool.eq_iff_iff, eval_bddDot]
  constructor
  · rintro ⟨k', f', g, hf', hg, hfx, hgx⟩
    obtain ⟨hk', hf'⟩ := frameSlots_iff.mp hf'
    have hcode := (hB.eval k' g hg w).mp hgx
    have hle := hB.le
    obtain rfl : k' = k := hcode.eq (by omega) (by omega) hw
    rw [hf] at hf'
    cases hf'
    exact hfx
  · intro hfx
    have hg := List.getElem?_eq_getElem hkB
    exact ⟨k, f, _, frameSlots_iff.mpr ⟨hk, hf⟩, hg, hfx, (hB.eval k _ hg w).mpr hw⟩

include hB in
/-- The encoded outputs are a function of the outputs and the variables behind the inputs. -/
theorem eval_ft_le {w w' : Assign} (hw : ∀ m, order.length ≤ cuddI order m → w m = w' m)
    (hout : ∀ k < nPo, ∀ f, pNodeVec.getD (i * nPo + k) none = some f →
      dd.eval f w = dd.eval f w') :
    dd.eval (bddDot dd ((pNodeVec.drop (i * nPo)).take nPo) B) w = true →
      dd.eval (bddDot dd ((pNodeVec.drop (i * nPo)).take nPo) B) w' = true := by
  rw [eval_bddDot, eval_bddDot]
  rintro ⟨k, f, g, hf, hg, hfx, hgx⟩
  obtain ⟨hk, hf'⟩ := frameSlots_iff.mp hf
  refine ⟨k, f, g, hf, hg, by rw [← hout k hk f hf', hfx], (hB.eval k g hg w').mpr ?_⟩
  intro m hm
  have hge : order.length ≤ cuddI order (order.length + m) := by
    rw [cuddI_of_ge (Nat.le_add_right _ _)]
    exact Nat.le_add_right _ _
  rw [← hw _ hge]
  exact (hB.eval k g hg w).mp hgx m hm

/-- The flag selects the encoded states or the encoded outputs. -/
theorem eval_select (v : ℕ) (ft tmp : dd.Node) (w : Assign) :
    dd.eval (dd.bddOr (dd.bddAnd (dd.cuddNot (dd.ithVar v)) ft) (dd.bddAnd (dd.ithVar v) tmp)) w =
      if w v then dd.eval tmp w else dd.eval ft w := by
  rw [dd.eval_or, dd.eval_and, dd.eval_and, dd.eval_not, dd.eval_ithVar]
  cases w v <;> simp

theorem lt_of_cuddI_lt {m : ℕ} (hm : cuddI order m < order.length) : m < order.length := by
  by_contra hge
  rw [cuddI_of_ge (Nat.le_of_not_lt hge)] at hm
  exact hge hm

include hB hlen in
/-- With the flag down and the signature of `k` the output `k` shows. -/
theorem shows_out {k : ℕ} (hk : k < nPo) {f : dd.Node}
    (hf : pNodeVec.getD (i * nPo + k) none = some f) (tmp : dd.Node) :
    Shows dd order (dd.bddOr (dd.bddAnd (dd.cuddNot (dd.ithVar (aVar order.length nB 0)))
      (bddDot dd ((pNodeVec.drop (i * nPo)).take nPo) B))
      (dd.bddAnd (dd.ithVar (aVar order.length nB 0)) tmp)) f := by
  intro z
  refine ⟨Function.update ((bitCube order.length nB k).put z) (order.length + nB) false,
    fun m hm => ?_, fun w hw => ?_⟩
  · have hlt := lt_of_cuddI_lt hm
    rw [Function.update_of_ne (by omega)]
    apply Cube.put_of_none
    rw [bitCube, if_neg (by omega)]
  · have hflag : w (aVar order.length nB 0) = false := by
      rw [hw _ (by unfold aVar; rw [cuddI_of_ge (by omega)]; omega)]
      exact Function.update_self _ _ _
    have hcode : HasCode order.length nB k w := by
      intro m hm
      rw [hw _ (by rw [cuddI_of_ge (by omega)]; omega), Function.update_of_ne (by omega)]
      exact holds_bitCube.mp (Cube.holds_put _ z) m hm
    rw [eval_select, hflag, eval_ft hB hlen hk hf hcode]
    rfl

/-- `tmp` says for which state the variables behind the flag stand. -/
structure StateCodes (dd : Cudd) (order : List ℕ) (nB : ℕ) (nsts : Table dd) (tmp : dd.Node)
    (vars : List ℕ) (code : ℕ → Assign) : Prop where
  behind : ∀ v ∈ vars, order.length + nB < v
  inj : ∀ c < nsts.length, ∀ c' < nsts.length, (∀ v ∈ vars, code c v = code c' v) → c = c'
  eval : ∀ x, dd.eval tmp x = true ↔
    ∃ (c : ℕ) (e : dd.Node × dd.Node), nsts[c]? = some e ∧ dd.eval e.2 x = true ∧
      ∀ v ∈ vars, x v = code c v

/-- There are enough variables for the states. -/
theorem exists_stateCodes (nsts : Table dd) : ∃ vars code, StateCodes dd order nB nsts
    (dd.encodingBinary (nsts.map Prod.snd)
      ((List.range (Nat.clog 2 (nsts.map Prod.snd).length + 2 - 1)).map fun j =>
        aVar order.length nB (j + 1))) vars code := by
  set funcs := nsts.map Prod.snd with hfuncs
  set vars := (List.range (Nat.clog 2 funcs.length + 2 - 1)).map fun j =>
    aVar order.length nB (j + 1) with hvars
  have hnd : vars.Nodup :=
    List.Nodup.map (fun j j' h => by unfold aVar at h; omega) List.nodup_range
  have hcap : funcs.length ≤ 2 ^ vars.length := by
    have hlen : vars.length = Nat.clog 2 funcs.length + 2 - 1 := by simp [hvars]
    rw [hlen]
    exact (Nat.le_pow_clog (by decide) _).trans (Nat.pow_le_pow_right (by decide) (by omega))
  obtain ⟨code, hinj, henc⟩ := dd.encoding_spec funcs vars hnd hcap
  have hlen : funcs.length = nsts.length := List.length_map _
  refine ⟨vars, code, fun v hv => ?_, hlen ▸ hinj, fun x => (henc x).trans ?_⟩
  · obtain ⟨j, -, rfl⟩ := List.mem_map.mp hv
    unfold aVar
    omega
  · refine exists_congr fun c => ?_
    simp only [hfuncs, List.getElem?_map, Option.map_eq_some_iff]
    constructor
    · rintro ⟨_, ⟨e, he, rfl⟩, h⟩
      exact ⟨e, he, h⟩
    · rintro ⟨e, he, h⟩
      exact ⟨e.2, ⟨e, he, rfl⟩, h⟩

/-- With the flag up and the code of a state the state shows. -/
theorem StateCodes.shows {tmp : dd.Node} {vars : List ℕ} {code : ℕ → Assign}
    (h : StateCodes dd order nB nsts tmp vars code) {e : dd.Node × dd.Node} (he : e ∈ nsts)
    (ft : dd.Node) :
    Shows dd order (dd.bddOr (dd.bddAnd (dd.cuddNot (dd.ithVar (aVar order.length nB 0))) ft)
      (dd.bddAnd (dd.ithVar (aVar order.length nB 0)) tmp)) e.2 := by
  intro z
  obtain ⟨c, hc⟩ := List.mem_iff_getElem?.mp he
  refine ⟨fun m => if m = order.length + nB then true else if m ∈ vars then code c m else z m,
    fun m hm => ?_, fun w hw => ?_⟩
  · have hlt := lt_of_cuddI_lt hm
    show (if _ then _ else if _ then _ else _) = _
    rw [if_neg (by omega), if_neg fun hv => by have := h.behind m hv; omega]
  · have hflag : w (aVar order.length nB 0) = true := by
      rw [hw _ (by unfold aVar; rw [cuddI_of_ge (by omega)]; omega)]
      exact if_pos rfl
    have hcode : ∀ v ∈ vars, w v = code c v := by
      intro v hv
      have := h.behind v hv
      rw [hw _ (by rw [cuddI_of_ge (by omega)]; omega)]
      show (if _ then _ else if _ then _ else _) = _
      rw [if_neg (by omega), if_pos hv]
    rw [eval_select, hflag, if_pos rfl, Bool.eq_iff_iff, h.eval]
    constructor
    · rintro ⟨c', e', hc', hx, hcode'⟩
      have hlt := (List.getElem?_eq_some_iff.mp hc).1
      have hlt' := (List.getElem?_eq_some_iff.mp hc').1
      obtain rfl : c' = c := h.inj c' hlt' c hlt fun v hv => by rw [← hcode' v hv, hcode v hv]
      rw [hc] at hc'
      cases hc'
      exact hx
    · exact fun hx => ⟨c, e, hc, hx, hcode⟩

/-- The encoded states are a function of the states and the variables behind the inputs. -/
theorem StateCodes.congr {tmp : dd.Node} {vars : List ℕ} {code : ℕ → Assign}
    (h : StateCodes dd order nB nsts tmp vars code) {w w' : Assign}
    (hw : ∀ v, order.length ≤ v → w v = w' v)
    (hnext : ∀ e ∈ nsts, dd.eval e.2 w = dd.eval e.2 w') : dd.eval tmp w = dd.eval tmp w' := by
  rw [Bool.eq_iff_iff, h.eval, h.eval]
  refine exists_congr fun c => exists_congr fun e => and_congr_right fun he => ?_
  rw [hnext e (List.mem_of_getElem? he)]
  refine and_congr_right fun _ => forall₂_congr fun v hv => ?_
  rw [hw v (by have := h.behind v hv; omega)]

include hB hlen hn in
theorem hyper_spec (size : ℕ) :
    ∃ H size', hyper dd order.length pNodeVec B nB nPo i nsts size = some (H, size') ∧
      size ≤ size' ∧ IsHyper dd order pNodeVec nPo i nsts H := by
  have hsingle : ¬ ((nsts.map Prod.snd).length = 1 ∧ (nsts.map Prod.snd)[0]? ≠ some dd.b1) := by
    rintro ⟨h1, hne⟩
    rw [List.length_map] at h1
    obtain ⟨e, rfl⟩ := List.length_eq_one_iff.mp h1
    apply hne
    refine congrArg some ((dd.eq_b1_iff).mpr fun x => ?_)
    obtain ⟨c, e', hc, hx⟩ := hn.cover x
    have : e' ∈ [e] := List.mem_of_getElem? hc
    rwa [List.mem_singleton.mp this] at hx
  obtain ⟨vars, code, hcodes⟩ := @exists_stateCodes dd order nB nsts
  refine ⟨_, _, if_neg hsingle, le_sizeAfter _ _, fun k hk f hf => shows_out hB hlen hk hf _,
    fun e he => hcodes.shows he _, fun {w w'} hw hout hnext => ?_⟩
  -- signatures, codes and the flag are variables behind the inputs
  have hge : ∀ v, order.length ≤ v → w v = w' v := fun v hv => hw v (by rwa [cuddI_of_ge hv])
  have hft := Bool.eq_iff_iff.mpr ⟨eval_ft_le hB hw hout,
    eval_ft_le hB (fun m hm => (hw m hm).symm) fun k hk f hf => (hout k hk f hf).symm⟩
  have hflag : w (aVar order.length nB 0) = w' (aVar order.length nB 0) :=
    hge _ (by unfold aVar; omega)
  rw [eval_select, eval_select, hflag, hft, hcodes.congr hge hnext]

include hvEnd hn in
theorem IsHyper.ne_b0 {H : dd.Node} (h : IsHyper dd order pNodeVec nPo i nsts H) :
    H ≠ dd.b0 := by
  obtain ⟨c, e, hc, hx⟩ := hn.cover fun _ => false
  have he := List.mem_of_getElem? hc
  obtain ⟨z', hlow, hz'⟩ := h.next e he fun _ => false
  refine dd.ne_b0_iff.mpr ⟨z', ?_⟩
  rw [hz' z' fun _ _ => rfl, ← hx]
  exact hn.dep e he fun m hm => hlow m (hm.trans_le hvEnd)

include hle hvEnd in
/-- Two prefixes with the same residual agree on whatever the hyper-function shows. -/
theorem IsHyper.eq_of_residual {H f : dd.Node}
    (hf : DependsOn (dd.eval f) { m | cuddI order m < vEnd })
    (hshow : Shows dd order H f) {x y : Assign}
    (hres : ∀ z, dd.eval H (glue (cuddI order) vStart x z) =
      dd.eval H (glue (cuddI order) vStart y z))
    (hxy : ∀ m, vStart ≤ cuddI order m → x m = y m) : dd.eval f x = dd.eval f y := by
  obtain ⟨z', hlow, hz'⟩ := hshow x
  have hglue : ∀ u : Assign, (∀ m, vStart ≤ cuddI order m → x m = u m) →
      dd.eval f u = dd.eval H (glue (cuddI order) vStart u z') := by
    intro u hu
    rw [hz' _ fun m hm => glue_of_le ((hle.trans hvEnd).trans hm)]
    apply hf
    intro m hm
    have hm : cuddI order m < vEnd := hm
    unfold glue
    split
    · rfl
    · next hge =>
        rw [hlow m (hm.trans_le hvEnd)]
        exact (hu m (Nat.le_of_not_lt hge)).symm
  rw [hglue x fun _ _ => rfl, hglue y hxy, hres]

end Hyper

/-- A cut is a partition of the prefixes above it. -/
theorem tableOk_of_cuts {H : dd.Node} (hcut : Cuts dd order H) (L : ℕ) :
    TableOk dd order L (dd.nodePathsUnderCut order H L) := by
  have hpaths := hcut.paths L
  refine ⟨fun e he x y hxy => ?_, fun e he => dd.ne_b0_iff.mpr (hcut.nonempty L e he),
    fun x => ?_, ?_⟩
  · rw [Bool.eq_iff_iff, hpaths e he, hpaths e he]
    exact forall_congr' fun z => by rw [glue_congr hxy]
  · obtain ⟨e, he, hx⟩ := hcut.cover L x
    obtain ⟨c, hc⟩ := List.mem_iff_getElem?.mp he
    exact ⟨c, e, hc, hx⟩
  · intro x c c' e e' hc hc' hx hx'
    have hkey : e.1 = e'.1 := dd.eval_inj fun z => by
      rw [(hpaths e (List.mem_of_getElem? hc) x).mp hx z,
        (hpaths e' (List.mem_of_getElem? hc') x).mp hx' z]
    have hmap : ∀ {k : ℕ} {e : dd.Node × dd.Node},
        (dd.nodePathsUnderCut order H L)[k]? = some e →
        ((dd.nodePathsUnderCut order H L).map Prod.fst)[k]? = some e.1 := by
      intro k e hk
      rw [List.getElem?_map, hk]
      rfl
    have hlt := (List.getElem?_eq_some_iff.mp (hmap hc)).1
    apply (List.getElem?_inj hlt (hcut.nodup L)).mp
    rw [hmap hc, hmap hc', hkey]

/-- Prefixes of one class of a cut leave the same function. -/
theorem residual_of_cuts {H : dd.Node} (hcut : Cuts dd order H) {L : ℕ}
    {e : dd.Node × dd.Node} (he : e ∈ dd.nodePathsUnderCut order H L) {x y : Assign}
    (hx : dd.eval e.2 x = true) (hy : dd.eval e.2 y = true) (z : Assign) :
    dd.eval H (glue (cuddI order) L x z) = dd.eval H (glue (cuddI order) L y z) := by
  rw [← (hcut.paths L e he x).mp hx z, ← (hcut.paths L e he y).mp hy z]

/-- The cut of a hyper-function: a partition whose classes have one future each. -/
theorem tableOk_cut (hord : order.Perm (List.range order.length)) (hvEnd : vEnd ≤ order.length)
    (hn : TableOk dd order vEnd nsts) {H : dd.Node}
    (h : IsHyper dd order pNodeVec nPo i nsts H) (L : ℕ) :
    TableOk dd order L (dd.nodePathsUnderCut order H L) :=
  tableOk_of_cuts (Cuts.of_ne_b0 hord (h.ne_b0 hvEnd hn)) L

theorem sameFuture_cut (hord : order.Perm (List.range order.length)) (hle : vStart ≤ vEnd)
    (hvEnd : vEnd ≤ order.length) (hn : TableOk dd order vEnd nsts)
    (hinp : ∀ k < nPo, ∀ f, pNodeVec.getD (i * nPo + k) none = some f →
      DependsOn (dd.eval f) { m | cuddI order m < order.length }) {H : dd.Node}
    (h : IsHyper dd order pNodeVec nPo i nsts H) :
    ∀ e ∈ dd.nodePathsUnderCut order H vStart,
      SameFuture dd order pNodeVec nPo i vStart nsts e.2 := by
  intro e he
  have hres := fun {x y} => residual_of_cuts (Cuts.of_ne_b0 hord (h.ne_b0 hvEnd hn)) he
    (x := x) (y := y)
  constructor
  · intro x y hx hy hxy k hk f hf
    exact IsHyper.eq_of_residual le_rfl (hle.trans hvEnd) (hinp k hk f hf) (h.out k hk f hf)
      (hres hx hy) hxy
  · intro x y hx hy hxy n hn'
    exact IsHyper.eq_of_residual hvEnd hle (hn.dep n hn') (h.next n hn') (hres hx hy) hxy

theorem currentStates_spec (hord : order.Perm (List.range order.length)) {nPi : ℕ}
    (hvEnd : (i + 1) * nPi ≤ order.length) (hB : IsSign dd order.length nB B)
    (hlen : B.length = nPo * 2) (hn : TableOk dd order ((i + 1) * nPi) nsts)
    (hinp : ∀ k < nPo, ∀ f, pNodeVec.getD (i * nPo + k) none = some f →
      DependsOn (dd.eval f) { m | cuddI order m < order.length }) (size : ℕ) :
    ∃ csts size', currentStates dd order order.length pNodeVec B nB nPi nPo i nsts size =
        some (csts, size') ∧ size ≤ size' ∧ TableOk dd order (i * nPi) csts ∧
      (∀ e ∈ csts, SameFuture dd order pNodeVec nPo i (i * nPi) nsts e.2) ∧
      (i = 0 → csts = bddCreateDummyState dd) := by
  unfold currentStates
  by_cases hi : i = 0
  · subst hi
    refine ⟨_, _, if_neg (by simp), le_rfl, tableOk_dummy _, ?_, fun _ => rfl⟩
    rw [Nat.zero_mul]
    exact sameFuture_dummy
  · obtain ⟨H, size', hrun, hle, hH⟩ := hyper_spec (i := i) hB hlen hn size
    refine ⟨_, size', by rw [if_pos hi, hrun]; rfl, hle, ?_, ?_, fun h => absurd h hi⟩
    · rw [Nat.mul_comm]
      exact tableOk_cut hord hvEnd hn hH _
    · rw [Nat.mul_comm nPi]
      exact sameFuture_cut hord (Nat.mul_le_mul_right _ (Nat.le_succ i)) hvEnd hn hinp hH

end Cut

/-! ## Runs -/

section Run

variable {dd : Cudd} {order : List ℕ} {pNodeVec : List (Option dd.Node)} {B : List dd.Node}
  {nB nPi nPo T : ℕ}

/-- The invariant of the loop before frame `i`. -/
structure FoldInv (dd : Cudd) (order : List ℕ) (nPi i : ℕ) (stg : STG) (s : FoldSt dd) : Prop where
  size : order.length ≤ s.size
  nsts : TableOk dd order (i * nPi) s.nsts
  first : i = 0 → s.nsts = bddCreateDummyState dd
  stg : ∃ rows, s.stg = { stg with transs := rows }

/-- What frame `i` adds. -/
structure FoldAdds (dd : Cudd) (order : List ℕ) (pNodeVec : List (Option dd.Node))
    (B : List dd.Node) (nB nPi nPo i : ℕ) (stg : STG) (s s' : FoldSt dd)
    (rows : List TransRow) : Prop where
  states : ∃ size, currentStates dd order order.length pNodeVec B nB nPi nPo i s.nsts s.size =
    some (s'.nsts, size)
  sum : s'.stsSum = s.stsSum + s'.nsts.length
  transs : s'.stg.transs = s.stg.transs ++ rows
  rows : FrameRows dd order pNodeVec nPo i s'.nsts s.nsts stg rows

/-- The graph and the tables of the loop, on outputs that read only inputs of their frame and
of earlier ones. -/
structure Folded (dd : Cudd) (order : List ℕ) (pNodeVec : List (Option dd.Node))
    (B : List dd.Node) (nB nPi nPo T : ℕ) (G : STG) (tab : ℕ → Table dd) : Prop where
  perm : order.Perm (List.range order.length)
  nCi : order.length = nPi * T
  sign : IsSign dd order.length nB B
  length : B.length = nPo * 2
  causal : ∀ i < T, ∀ k < nPo, ∀ f, pNodeVec.getD (i * nPo + k) none = some f →
    DependsOn (dd.eval f) { m | cuddI order m < (i + 1) * nPi }
  pins : G.nPi = nPi
  slots : G.nPo = nPo
  frames : G.nTimeFrame = T
  states : G.nSts = 1 + ∑ i ∈ Finset.range T, (tab i).length
  layers : ∃ rows, Layers dd order pNodeVec nPo G tab rows (List.range T).reverse
  tables : FoldTables dd order order.length pNodeVec B nB nPi nPo T tab

variable (hord : order.Perm (List.range order.length)) (hnCi : order.length = nPi * T)
  (hB : IsSign dd order.length nB B) (hlen : B.length = nPo * 2)
  (hcausal : ∀ i < T, ∀ k < nPo, ∀ f, pNodeVec.getD (i * nPo + k) none = some f →
    DependsOn (dd.eval f) { m | cuddI order m < (i + 1) * nPi })
  {stg : STG} (hPi : stg.nPi = nPi)
include hord hnCi hB hlen hcausal hPi

omit hcausal in
/-- The states before frame `i` and those behind it. -/
theorem frameClasses_currentStates {i : ℕ} (hi : i < T)
    (hinp : ∀ k < nPo, ∀ f, pNodeVec.getD (i * nPo + k) none = some f →
      DependsOn (dd.eval f) { m | cuddI order m < order.length }) {s : FoldSt dd}
    (h : FoldInv dd order nPi (i + 1) stg s) :
    ∃ csts size', currentStates dd order order.length pNodeVec B nB nPi nPo i s.nsts s.size =
        some (csts, size') ∧ order.length ≤ size' ∧ (i = 0 → csts = bddCreateDummyState dd) ∧
      s.stg.nPi = nPi ∧ FrameClasses dd order size' pNodeVec B nB nPo i (i * nPi) ((i + 1) * nPi)
        csts s.nsts := by
  have hvEnd : (i + 1) * nPi ≤ order.length := by
    rw [hnCi, Nat.mul_comm]
    exact Nat.mul_le_mul_left _ hi
  obtain ⟨csts, size', hcur, hle, hcsts, hfut, hfirst⟩ :=
    currentStates_spec hord hvEnd hB hlen h.nsts hinp s.size
  obtain ⟨rows₀, hstg⟩ := h.stg
  exact ⟨csts, size', hcur, h.size.trans hle, hfirst, by rw [hstg, hPi], hord, h.size.trans hle,
    Nat.mul_le_mul_right _ (Nat.le_succ i), hvEnd, hB, hlen, hcsts, h.nsts, hfut⟩

omit hcausal in
theorem foldStep_spec {i : ℕ} (hi : i < T)
    (hcausal : ∀ k < nPo, ∀ f, pNodeVec.getD (i * nPo + k) none = some f →
      DependsOn (dd.eval f) { m | cuddI order m < (i + 1) * nPi }) {s : FoldSt dd}
    (h : FoldInv dd order nPi (i + 1) stg s) :
    ∃ s', foldStep dd order order.length pNodeVec B nB nPi nPo s i = some s' ∧
      FoldInv dd order nPi i stg s' ∧
      ∃ rows, FoldAdds dd order pNodeVec B nB nPi nPo i stg s s' rows := by
  have hvEnd : (i + 1) * nPi ≤ order.length := by
    rw [hnCi, Nat.mul_comm]
    exact Nat.mul_le_mul_left _ hi
  obtain ⟨csts, size', hcur, hle, hfirst, hnPi, hcls⟩ :=
    frameClasses_currentStates hord hnCi hB hlen hPi hi
      (fun k hk f hf => (hcausal k hk f hf).mono fun m hm => Nat.lt_of_lt_of_le hm hvEnd) h
  obtain ⟨rows₀, hstg⟩ := h.stg
  have hframe : FrameOk dd order size' pNodeVec B nB nPo i (i * s.stg.nPi) ((i + 1) * s.stg.nPi)
      csts s.nsts := by
    rw [hnPi]
    exact ⟨hcls, hcausal⟩
  obtain ⟨rows, hrun, hrows⟩ := buildTrans_spec hframe
  refine ⟨⟨{ s.stg with transs := s.stg.transs ++ rows }, csts, size', s.stsSum + csts.length⟩, ?_,
    ⟨hle, hcls.cur, hfirst, _, by rw [hstg]⟩, rows, ⟨size', hcur⟩, rfl, rfl, ?_⟩
  · unfold foldStep
    simp only [hcur, hrun, Option.bind_eq_bind, Option.bind_some]
    rfl
  · rw [hstg] at hrows
    exact hrows.congr rfl rfl

variable (stg) in
/-- The loop produces a folded graph. -/
theorem foldFrames_folded (hPo : stg.nPo = nPo) (hT : stg.nTimeFrame = T) (hT1 : 1 ≤ T) (size : ℕ)
    (hsize : order.length ≤ size) (hnil : stg.transs = []) :
    ∃ G tab, foldFrames dd order order.length pNodeVec B nB nPi nPo size T stg = some G ∧
      (G.nCi = stg.nCi ∧ G.nCo = stg.nCo) ∧ Folded dd order pNodeVec B nB nPi nPo T G tab := by
  obtain ⟨s, hsT, hinv, hstep, hrun⟩ := foldlM_range_reverse (FoldInv dd order nPi · stg)
    (fun i hi b hb => (foldStep_spec hord hnCi hB hlen hPi hi (hcausal i hi) hb).imp
      fun b' hb' => ⟨hb'.1, hb'.2.1⟩)
    (b := (⟨stg, bddCreateDummyState dd, size, 1⟩ : FoldSt dd))
    ⟨hsize, tableOk_dummy _, fun _ => rfl, [], by rw [← hnil]⟩
  have hadds : ∀ i < T, ∃ rows,
      FoldAdds dd order pNodeVec B nB nPi nPo i stg (s (i + 1)) (s i) rows := by
    intro i hi
    obtain ⟨s', hs', -, hadd⟩ := foldStep_spec hord hnCi hB hlen hPi hi (hcausal i hi)
      (hinv (i + 1) hi)
    rw [hstep i hi] at hs'
    rwa [Option.some.inj hs']
  choose! rows hrows using hadds
  -- what the frames below `k` have added
  have hsum : ∀ k ≤ T, (s 0).stsSum = (s k).stsSum + ∑ i ∈ Finset.range k, (s i).nsts.length := by
    intro k
    induction k with
    | zero => simp
    | succ k ih =>
        intro hk
        rw [ih (Nat.le_of_succ_le hk), (hrows k hk).sum, Finset.sum_range_succ_comm, Nat.add_assoc]
  have htrans : (s 0).stg.transs = (List.range T).reverse.flatMap rows := by
    rw [eq_append_flatMap_reverse (f := fun k => (s k).stg.transs) fun k hk => (hrows k hk).transs,
      hsT, hnil, List.nil_append]
  obtain ⟨rows₀, hstg⟩ := (hinv 0 (Nat.zero_le T)).stg
  have hTF : (s 0).stg.nTimeFrame = T := by rw [hstg, hT]
  have hnPi : (s 0).stg.nPi = nPi := by rw [hstg, hPi]
  refine ⟨{ (s 0).stg with nSts := (s 0).stsSum }, fun i => (s i).nsts, ?_,
    by rw [hstg]; exact ⟨rfl, rfl⟩, hord, hnCi, hB, hlen,
    hcausal, hnPi, by rw [hstg, hPo], hTF, by rw [hsum T le_rfl, hsT],
    ⟨rows, hTF.symm ▸ hT1, (hinv 0 (Nat.zero_le T)).first rfl, ?_, ?_, ?_, ?_, ?_⟩, ?_,
    fun i hi => ?_⟩
  · unfold foldFrames
    simp only [hrun, Option.bind_eq_bind, Option.bind_some]
    rfl
  · show (s (s 0).stg.nTimeFrame).nsts = _
    rw [hTF, hsT]
  · intro t ht
    show TableOk dd order (t * (s 0).stg.nPi) (s t).nsts
    rw [hnPi]
    exact (hinv t (hTF ▸ ht)).nsts
  · intro t ht
    exact (hrows t (hTF ▸ ht)).rows.congr (hnPi.trans hPi.symm) (hTF.trans hT.symm)
  · show (List.range T).reverse.Perm (List.range (s 0).stg.nTimeFrame)
    rw [hTF]
    exact List.reverse_perm _
  · exact htrans
  · show (s T).nsts = _
    rw [hsT]
  · obtain ⟨size', hcur⟩ := (hrows i hi).states
    exact ⟨_, size', hcur⟩

omit hord hnCi hB hlen hcausal hPi in
/-- The graph of the loop has one run for every input, and the runs show the outputs. -/
theorem Folded.run {G : STG} {tab : ℕ → Table dd}
    (h : Folded dd order pNodeVec B nB nPi nPo T G tab) {x : Assign} {inp : ℕ → ℕ → Bool}
    (hx : Carries order nPi T x inp) : ∃ s : ℕ → List Char,
      s T = ['*'] ∧ ∀ t < T, G.stateAt inp t = some (s t) ∧ (∃ c, s t = stName t c) ∧
        ∃ r, G.matching (s t) (inp t) = [r] ∧ r.nst = s (t + 1) ∧
          r.output = frameChars dd pNodeVec nPo t x := by
  obtain ⟨rows, hlay⟩ := h.layers
  obtain ⟨rfl, rfl⟩ := And.intro h.pins h.frames
  exact hlay.run hx

end Run

end ExtFolding.TimeFold
