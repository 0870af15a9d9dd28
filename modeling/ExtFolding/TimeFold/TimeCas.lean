import ExtFolding.Lib.Loop
import ExtFolding.Lib.Ntk
import Mathlib.Data.List.GetD
import Mathlib.Data.Nat.Factorization.Basic

/-!
# The resettable expansion (`timeFold/timeCas.cpp`)

Copy `t` of the logic reads the new inputs from frame `t` on. The outputs of all copies are
collected in a triangular array: copy `j` has `nTimeFrame - j` frames and starts at
`(2 * nTimeFrame - j + 1) * j / 2`. Output frame `t` is chosen among frame `t - j` of the copies
`j = 0, .., t` by multiplexers, and the latest reset wins.

In copy `t` the inputs of the last `t` frames still have the copies of an earlier round. Only
outputs that do not depend on them are collected. Sizes and places in the array are unsigned numbers
of 32 bits, which wrap; the numbers of inputs and outputs of a network are below `2 ^ 31`.
-/

namespace ExtFolding.TimeFold

open ExtFolding.Aig

section Model

variable (abc : AbcAig) (pNtk : Ntk) (nTimeFrame nPi nPo : ℕ)

/-- The number of inputs that the first loop creates: one for each input of the circuit, and a
reset behind the last input of each frame. -/
def numCis : ℕ :=
  pNtk.nPi + ((List.range pNtk.nPi).filter fun i => (i + 1) % nPi = 0).length

/-- The loop that sets `pCopy` of the inputs, with `assert(k < nXVec)`. -/
def setInputs (t : ℕ) (copy : Obj → Lit) : Option ((Obj → Lit) × ℕ) :=
  (List.range ((nTimeFrame - t) * nPi)).foldlM (fun s j =>
    if s.2 < (1 + nPi) * nTimeFrame ∧ j < pNtk.nPi then
      some (Function.update s.1 (.pi j) (Obj.pi s.2).lit,
        if (j + 1) % nPi = 0 then s.2 + 2 else s.2 + 1)
    else none) (copy, t * (nPi + 1))

/-- The new network, `pCopy` and `yVec`. -/
structure CasSt where
  graph : Graph
  copy : Obj → Lit
  yVec : List Lit

/-- One copy of the logic. -/
def casFrame (s : CasSt) (t : ℕ) : Option CasSt := do
  let (copy, _) ← setInputs pNtk nTimeFrame nPi t s.copy
  let r := copyAnds abc pNtk.graph copy s.graph
  let ys ← (List.range ((nTimeFrame - t) * nPo)).mapM fun j => (pNtk.pos[j]?).map (childCopy r.2)
  return ⟨r.1, r.2, s.yVec ++ ys⟩

/-- `_yVec`: frame `t - j` of copy `j`, for `j = 0, .., t`. -/
def collectRow (t : ℕ) (yVec : List Lit) : Option (List Lit) :=
  (List.range (t + 1)).foldlM (fun row j => do
    let tt := t - j
    let offset := (2 * nTimeFrame - j + 1) * j % 2 ^ 32 / 2
    let ys ← (List.range nPo).mapM fun k => yVec[((offset + tt) * nPo + k) % 2 ^ 32]?
    return row ++ ys) []

/-- `_oVec[k] = Abc_AigMux(rstVec[j], _yVec[(j+1)*nPo+k], _oVec[k])` -/
def muxOne (rst : Lit) (row : List Lit) (j : ℕ) (s : Graph × List Lit) (k : ℕ) :
    Option (Graph × List Lit) := do
  let y ← row[(j + 1) * nPo + k]?
  let o ← s.2[k]?
  let r := abc.mux s.1 rst y o
  return (r.1, s.2.set k r.2)

/-- The multiplexers of one output frame. -/
def muxRow (rstVec row : List Lit) (graph : Graph) : Option (Graph × List Lit) := do
  let oVec ← (List.range nPo).mapM fun j => row[j]?
  rstVec.zipIdx.foldlM (fun s rst => (List.range nPo).foldlM (muxOne abc nPo rst.1 row rst.2) s)
    (graph, oVec)

/-- The new network, `rstVec` and the outputs connected so far. -/
structure ResetSt where
  graph : Graph
  rstVec : List Lit
  pos : List Lit

/-- One round of the loop over the frames `t = i + 1`. -/
def resetFrame (yVec : List Lit) (s : ResetSt) (i : ℕ) : Option ResetSt := do
  let t := i + 1
  let rst := (nPi + 1) * t - 1
  if rst < (1 + nPi) * nTimeFrame then
    let rstVec := s.rstVec ++ [(Obj.pi rst).lit]
    let row ← collectRow nTimeFrame nPo t yVec
    let (graph, oVec) ← muxRow abc nPo rstVec row s.graph
    return ⟨graph, rstVec, s.pos ++ oVec⟩
  else none

end Model

/-- `timeCas`. The outputs are connected in order, so their drivers are appended. -/
def timeCas (abc : AbcAig) (pNtk : Ntk) (nTimeFrame : ℕ) : Option Ntk := do
  let nPo := pNtk.pos.length / nTimeFrame
  let nPi := pNtk.nPi / nTimeFrame
  let nXVec := (1 + nPi) * nTimeFrame
  let nYVec := (1 + nTimeFrame) * nTimeFrame * nPo % 2 ^ 32 / 2
  if nPo * nTimeFrame = pNtk.pos.length ∧ nPi * nTimeFrame = pNtk.nPi ∧
      numCis pNtk nPi = nXVec then
    let s ← (List.range nTimeFrame).foldlM (casFrame abc pNtk nTimeFrame nPi nPo)
      ⟨[], fun _ => Obj.const1.lit, []⟩
    if s.yVec.length = nYVec then
      let pos ← (List.range nPo).mapM fun j => s.yVec[j]?
      let r ← (List.range (nTimeFrame - 1)).foldlM (resetFrame abc nTimeFrame nPi nPo s.yVec)
        ⟨s.graph, [], pos⟩
      return { nPi := nXVec, graph := r.graph, latches := [], pos := r.pos }
    else none
  else none

/-! ## Inputs -/

theorem numCis_eq {N : Ntk} {nPi T : ℕ} (hw : 1 ≤ nPi) (hpi : N.nPi = nPi * T) :
    numCis N nPi = (1 + nPi) * T := by
  have hcard := Nat.card_multiples (nPi * T) nPi
  rw [Nat.mul_div_cancel_left T hw] at hcard
  have hlen : ((List.range (nPi * T)).filter fun i => (i + 1) % nPi = 0).length = T := by
    rw [← List.toFinset_card_of_nodup (List.nodup_range.filter _)]
    refine Eq.trans (congrArg Finset.card ?_) hcard
    ext i
    simp [Nat.dvd_iff_mod_eq_zero]
  rw [numCis, hpi, hlen]
  ring

/-- The new input behind input `j` in copy `t`; the last frame is used for frames beyond it. -/
def casSrc (nPi T t j : ℕ) : ℕ := min (t + j / nPi) (T - 1) * (nPi + 1) + j % nPi

theorem casSrc_lt {nPi T t j : ℕ} (hw : 1 ≤ nPi) (hT : 1 ≤ T) :
    casSrc nPi T t j < (1 + nPi) * T := by
  have hmod : j % nPi < nPi := Nat.mod_lt j hw
  have hmin : min (t + j / nPi) (T - 1) + 1 ≤ T := by omega
  calc casSrc nPi T t j < (min (t + j / nPi) (T - 1) + 1) * (nPi + 1) := by
        rw [casSrc, Nat.add_one_mul]
        omega
    _ ≤ T * (nPi + 1) := Nat.mul_le_mul_right _ hmin
    _ = (1 + nPi) * T := by ring

/-- The cursor `k` after the inputs below `j`. -/
def cursor (nPi t j : ℕ) : ℕ := (t + j / nPi) * (nPi + 1) + j % nPi

theorem cursor_succ {nPi t j : ℕ} (hw : 1 ≤ nPi) :
    cursor nPi t (j + 1) =
      if (j + 1) % nPi = 0 then cursor nPi t j + 2 else cursor nPi t j + 1 := by
  have hj := Nat.div_add_mod j nPi
  have hj' := Nat.div_add_mod (j + 1) nPi
  have hmod := Nat.mod_lt j hw
  have hdiv : (j + 1) / nPi = j / nPi + if nPi ∣ j + 1 then 1 else 0 := Nat.succ_div
  simp only [Nat.dvd_iff_mod_eq_zero] at hdiv
  unfold cursor
  split
  · next h0 =>
      rw [if_pos h0] at hdiv
      rw [hdiv, h0] at hj' ⊢
      rw [Nat.mul_add] at hj'
      have hlast : j % nPi + 1 = nPi := by omega
      rw [← Nat.add_assoc, Nat.add_one_mul]
      omega
  · next h0 =>
      have hsame : (j + 1) / nPi = j / nPi := by rw [hdiv, if_neg h0]; rfl
      rw [hsame] at hj' ⊢
      omega

section Copies

variable {N : Ntk} {nPi nPo T : ℕ}

/-- The first loop of a round points the inputs of the frames below `T - t` to the frames from
`t` on and leaves the others. -/
theorem setInputs_spec (hw : 1 ≤ nPi) (hpi : N.nPi = nPi * T) {t : ℕ} (ht : t < T)
    (copy : Obj → Lit) :
    ∃ r, setInputs N T nPi t copy = some r ∧
      (∀ j < (T - t) * nPi, r.1 (.pi j) = (Obj.pi (casSrc nPi T t j)).lit) ∧
      ∀ o : Obj, (∀ j < (T - t) * nPi, o ≠ .pi j) → r.1 o = copy o := by
  have hloop : ∀ m ≤ (T - t) * nPi, ∃ c, (List.range m).foldlM (fun s j =>
      if s.2 < (1 + nPi) * T ∧ j < N.nPi then
        some (Function.update s.1 (.pi j) (Obj.pi s.2).lit,
          if (j + 1) % nPi = 0 then s.2 + 2 else s.2 + 1)
      else none) (copy, t * (nPi + 1)) = some (c, cursor nPi t m) ∧
      (∀ j < m, c (.pi j) = (Obj.pi (casSrc nPi T t j)).lit) ∧
      ∀ o : Obj, (∀ j < m, o ≠ .pi j) → c o = copy o := by
    intro m
    induction m with
    | zero => exact fun _ => ⟨copy, by simp [cursor], by simp, fun _ _ => rfl⟩
    | succ m ih =>
        intro hm
        obtain ⟨c, hrun, hset, hrest⟩ := ih (Nat.le_of_succ_le hm)
        have hframe : m / nPi < T - t := (Nat.div_lt_iff_lt_mul hw).mpr hm
        have hsrc : casSrc nPi T t m = cursor nPi t m := by
          rw [casSrc, cursor, Nat.min_eq_left (by omega)]
        have hk : cursor nPi t m < (1 + nPi) * T := hsrc ▸ casSrc_lt hw (by omega)
        have hmlt : m < N.nPi := by
          have hle := Nat.mul_le_mul_right nPi (Nat.sub_le T t)
          rw [hpi, Nat.mul_comm]
          omega
        refine ⟨Function.update c (.pi m) (Obj.pi (cursor nPi t m)).lit, ?_, fun j hj => ?_,
          fun o ho => ?_⟩
        · rw [List.range_succ, List.foldlM_append, hrun]
          simp [hk, hmlt, cursor_succ hw]
        · rcases Nat.lt_succ_iff_lt_or_eq.mp hj with hlt | rfl
          · rw [Function.update_of_ne (by simp [Nat.ne_of_lt hlt])]
            exact hset j hlt
          · rw [Function.update_self, hsrc]
        · rw [Function.update_of_ne (ho m (Nat.lt_succ_self m))]
          exact hrest o fun j hj => ho j (Nat.lt_succ_of_lt hj)
  obtain ⟨c, hrun, hset, hrest⟩ := hloop _ le_rfl
  exact ⟨_, hrun, hset, hrest⟩

theorem copyAnds_leaf (abc : AbcAig) (g : Graph) (copy : Obj → Lit) (d : Graph) {o : Obj}
    (ho : ∀ k, o ≠ .node k) : (copyAnds abc g copy d).2 o = copy o := by
  induction g with
  | nil => rfl
  | cons n g ih =>
      obtain ⟨a, b⟩ := n
      simp only [copyAnds, Function.update_of_ne (ho _), ih]

/-- Where copy `j` starts, counted in frames. -/
def triOff (T : ℕ) : ℕ → ℕ
  | 0 => 0
  | j + 1 => triOff T j + (T - j)

theorem two_mul_triOff {T j : ℕ} (hj : j ≤ T) : 2 * triOff T j = (2 * T - j + 1) * j := by
  induction j with
  | zero => rfl
  | succ j ih =>
      obtain ⟨d, rfl⟩ := Nat.exists_eq_add_of_le hj
      rw [triOff, Nat.mul_add, ih (by omega)]
      rw [show 2 * (j + 1 + d) - j + 1 = j + 3 + 2 * d by omega,
        show 2 * (j + 1 + d) - (j + 1) + 1 = j + 2 + 2 * d by omega,
        show j + 1 + d - j = d + 1 by omega]
      ring

theorem triOff_mono {T i j : ℕ} (h : i ≤ j) : triOff T i ≤ triOff T j := by
  induction j, h using Nat.le_induction with
  | base => exact le_rfl
  | succ j _ ih => exact ih.trans (Nat.le_add_right _ _)

/-- Twice the size of the array. -/
theorem two_mul_size (T nPo : ℕ) : 2 * (triOff T T * nPo) = (1 + T) * T * nPo := by
  rw [← Nat.mul_assoc, two_mul_triOff le_rfl, Nat.two_mul, Nat.add_sub_cancel, Nat.add_comm T]

theorem offset_eq {T j nPo : ℕ} (hj : j ≤ T) (hPo : 1 ≤ nPo)
    (hsize : (1 + T) * T * nPo < 2 ^ 32) : (2 * T - j + 1) * j % 2 ^ 32 / 2 = triOff T j := by
  have hle : 2 * triOff T j ≤ 2 * (triOff T T * nPo) :=
    Nat.mul_le_mul_left 2 ((triOff_mono hj).trans (Nat.le_mul_of_pos_right _ hPo))
  rw [two_mul_size] at hle
  rw [← two_mul_triOff hj, Nat.mod_eq_of_lt (hle.trans_lt hsize),
    Nat.mul_div_cancel_left _ Nat.two_pos]

/-- The value of output `m` of copy `t`. -/
def casVal (N : Ntk) (nPi T t : ℕ) (e : Env) (m : ℕ) : Bool :=
  N.fn (fun j => e.pi (casSrc nPi T t j)) m

/-- The network after `t` copies. -/
structure CasInv (N : Ntk) (nPi nPo T t : ℕ) (s : CasSt) : Prop where
  ok : s.graph.Ok (Ntk.IsLeaf ((1 + nPi) * T) 0)
  const : s.copy .const1 = Obj.const1.lit
  -- the copies left by the round before, stale or not
  inputs : ∀ r, t = r + 1 → ∀ j < N.nPi, s.copy (.pi j) = (Obj.pi (casSrc nPi T r j)).lit
  length : s.yVec.length = triOff T t * nPo
  lit : ∀ l ∈ s.yVec, l.obj.Ok (Ntk.IsLeaf ((1 + nPi) * T) 0) s.graph.length
  eval : ∀ r < t, ∀ m < (T - r) * nPo, ∀ l, s.yVec[triOff T r * nPo + m]? = some l →
    ∀ e, s.graph.eval e l = casVal N nPi T r e m

theorem casInv_zero (N : Ntk) (nPi nPo T : ℕ) :
    CasInv N nPi nPo T 0 ⟨[], fun _ => Obj.const1.lit, []⟩ where
  ok := trivial
  const := rfl
  inputs _ h := absurd h.symm (Nat.succ_ne_zero _)
  length := by simp [triOff]
  lit := by simp
  eval _ h := absurd h (Nat.not_lt_zero _)

/-- After the first loop of round `t` every input has its place in copy `t`: those that were
not set had reached the last frame before. -/
theorem CasInv.inputs_next (hw : 1 ≤ nPi) (hpi : N.nPi = nPi * T) {t : ℕ} (ht : t < T) {s : CasSt}
    (h : CasInv N nPi nPo T t s) {copy : Obj → Lit}
    (hset : ∀ j < (T - t) * nPi, copy (.pi j) = (Obj.pi (casSrc nPi T t j)).lit)
    (hrest : ∀ o : Obj, (∀ j < (T - t) * nPi, o ≠ .pi j) → copy o = s.copy o) {j : ℕ}
    (hj : j < N.nPi) : copy (.pi j) = (Obj.pi (casSrc nPi T t j)).lit := by
  rcases Nat.lt_or_ge j ((T - t) * nPi) with hlt | hge
  · exact hset j hlt
  · cases t with
    | zero =>
        rw [Nat.sub_zero, Nat.mul_comm] at hge
        exact absurd (hpi ▸ hj) (Nat.not_lt.mpr hge)
    | succ r =>
        have hframe : T - (r + 1) ≤ j / nPi := (Nat.le_div_iff_mul_le hw).mpr hge
        have hsrc : casSrc nPi T r j = casSrc nPi T (r + 1) j := by
          rw [casSrc, casSrc, Nat.min_eq_right (by omega), Nat.min_eq_right (by omega)]
        rw [hrest _ (fun i hi => by simp; omega), h.inputs r rfl j hj, hsrc]

/-- Frame `tt` of copy `j` in the triangular array. -/
theorem CasInv.entry {s : CasSt} (h : CasInv N nPi nPo T T s) (j tt k : ℕ) (hj : j + tt < T)
    (hk : k < nPo) : ∃ l, s.yVec[(triOff T j + tt) * nPo + k]? = some l ∧
      ∀ e, s.graph.eval e l = casVal N nPi T j e (tt * nPo + k) := by
  have hm : tt * nPo + k < (T - j) * nPo := by
    calc tt * nPo + k < tt * nPo + nPo := Nat.add_lt_add_left hk _
      _ = (tt + 1) * nPo := (Nat.add_one_mul tt nPo).symm
      _ ≤ (T - j) * nPo := Nat.mul_le_mul_right _ (by omega)
  have hidx : (triOff T j + tt) * nPo + k = triOff T j * nPo + (tt * nPo + k) := by ring
  have hlt : triOff T j * nPo + (tt * nPo + k) < s.yVec.length := by
    rw [h.length]
    calc triOff T j * nPo + (tt * nPo + k) < triOff T j * nPo + (T - j) * nPo :=
          Nat.add_lt_add_left hm _
      _ = triOff T (j + 1) * nPo := by rw [triOff, Nat.add_mul]
      _ ≤ triOff T T * nPo := Nat.mul_le_mul_right _ (triOff_mono (by omega))
  rw [hidx]
  exact ⟨_, List.getElem?_eq_getElem hlt,
    h.eval j (by omega) _ hm _ (List.getElem?_eq_getElem hlt)⟩

theorem CasInv.casFrame (abc : AbcAig) (hN : N.Ok) (hl : N.latches = []) (hw : 1 ≤ nPi)
    (hpi : N.nPi = nPi * T) (hpo : N.pos.length = nPo * T) {t : ℕ} (ht : t < T) {s : CasSt}
    (h : CasInv N nPi nPo T t s) :
    ∃ s', casFrame abc N T nPi nPo s t = some s' ∧ CasInv N nPi nPo T (t + 1) s' := by
  obtain ⟨⟨copy, k⟩, hins, hset, hrest⟩ := setInputs_spec hw hpi ht s.copy
  simp only at hset hrest
  have hinputs : ∀ {j}, j < N.nPi → copy (.pi j) = (Obj.pi (casSrc nPi T t j)).lit :=
    h.inputs_next hw hpi ht hset hrest
  have hconst : copy .const1 = Obj.const1.lit := by rw [hrest _ (by simp), h.const]
  have hg := hN.graph
  have hpos := hN.pos
  rw [hl] at hg hpos
  obtain ⟨hsuf, hc⟩ := copyAnds_spec abc copy
    (fun e => ⟨fun j => e.pi (casSrc nPi T t j), fun _ => false⟩) hg h.ok trivial
    (by
      intro o ho
      cases o with
      | const1 => rw [hconst]; trivial
      | pi j => rw [hinputs ho]; exact casSrc_lt hw (by omega)
      | bo j => exact absurd ho (Nat.not_lt_zero j)
      | node k => exact absurd ho (Nat.not_lt_zero k))
    (by
      intro o ho e
      cases o with
      | const1 => rw [hconst]; simp [Env.leaf, Obj.lit]
      | pi j => rw [hinputs ho]; simp [Env.leaf, Obj.lit]
      | bo j => exact absurd ho (Nat.not_lt_zero j)
      | node k => exact absurd ho (Nat.not_lt_zero k))
  have hleaf := fun {o : Obj} => copyAnds_leaf abc N.graph copy s.graph (o := o)
  obtain ⟨c, hcopy⟩ : ∃ c, copyAnds abc N.graph copy s.graph = c := ⟨_, rfl⟩
  rw [hcopy] at hsuf hc hleaf
  have hle : (T - t) * nPo ≤ N.pos.length := by
    rw [hpo, Nat.mul_comm nPo]
    exact Nat.mul_le_mul_right _ (Nat.sub_le T t)
  obtain ⟨ys, hmapM, hlen, hget⟩ := mapM_range_some
    (f := fun j => (N.pos[j]?).map (childCopy c.2)) (n := (T - t) * nPo)
    fun j hj => ⟨_, by rw [List.getElem?_eq_getElem (hj.trans_le hle), Option.map_some]⟩
  refine ⟨⟨c.1, c.2, s.yVec ++ ys⟩, ?_, hc.ok, ?_, fun r hr j hj => ?_, ?_, fun l hl' => ?_,
    fun r hr m hm l hl' e => ?_⟩
  · simp only [TimeFold.casFrame, hins, Option.bind_eq_bind, Option.bind_some, hcopy, hmapM]
    rfl
  · exact (hleaf (by simp)).trans hconst
  · cases hr
    exact (hleaf (by simp)).trans (hinputs hj)
  · rw [List.length_append, h.length, hlen, ← Nat.add_mul]
    rfl
  · rcases List.mem_append.mp hl' with hl' | hl'
    · exact (h.lit l hl').mono hsuf.length_le
    · obtain ⟨m, hm⟩ := List.getElem?_of_mem hl'
      rw [hget m (hlen ▸ (List.getElem?_eq_some_iff.mp hm).1), Option.map_eq_some_iff] at hm
      obtain ⟨p, hp, rfl⟩ := hm
      exact hc.lit _ (hpos p (List.mem_of_getElem? hp))
  · rcases Nat.lt_succ_iff_lt_or_eq.mp hr with hlt | rfl
    · have hin : triOff T r * nPo + m < s.yVec.length := by
        rw [h.length]
        calc triOff T r * nPo + m < triOff T r * nPo + (T - r) * nPo := Nat.add_lt_add_left hm _
          _ = triOff T (r + 1) * nPo := by rw [triOff, Nat.add_mul]
          _ ≤ triOff T t * nPo := Nat.mul_le_mul_right _ (triOff_mono hlt)
      have hl'' : s.yVec[triOff T r * nPo + m]? = some l := by
        rw [← hl']
        exact (List.getElem?_append_left hin).symm
      rw [← h.eval r hlt m hm l hl'' e]
      exact Graph.eval_of_suffix hsuf e (h.lit l (List.mem_of_getElem? hl'')).below
    · have hy : ys[m]? = some l := by
        rw [← hl']
        show _ = (s.yVec ++ ys)[_]?
        rw [List.getElem?_append_right (by rw [h.length]; exact Nat.le_add_right _ _), h.length,
          Nat.add_sub_cancel_left]
      rw [hget m hm, Option.map_eq_some_iff] at hy
      obtain ⟨p, hp, rfl⟩ := hy
      rw [hc.child (hpos p (List.mem_of_getElem? hp)), casVal, Ntk.fn, hp]

/-! ## Resets -/

/-- The reset of frame `r`. -/
def rstOf (nPi : ℕ) (e : Env) (r : ℕ) : Bool := e.pi (r * (nPi + 1) + nPi)

theorem rst_index (nPi r : ℕ) : (nPi + 1) * (r + 1) - 1 = r * (nPi + 1) + nPi := by
  rw [Nat.mul_add_one, Nat.mul_comm]
  rfl

/-- The first frame that counts for frame `t`: the one behind the latest reset before `t`. -/
def lastStart (rst : ℕ → Bool) (t : ℕ) : ℕ :=
  ((Finset.range t).filter fun r => rst r = true).sup (· + 1)

theorem lastStart_le (rst : ℕ → Bool) (t : ℕ) : lastStart rst t ≤ t :=
  Finset.sup_le fun _ hr => Finset.mem_range.mp (Finset.mem_filter.mp hr).1

theorem lastStart_succ (rst : ℕ → Bool) (t : ℕ) :
    lastStart rst (t + 1) = if rst t = true then t + 1 else lastStart rst t := by
  unfold lastStart
  rw [Finset.range_add_one, Finset.filter_insert]
  split
  · rw [Finset.sup_insert]
    exact sup_eq_left.mpr ((lastStart_le rst t).trans (Nat.le_succ t))
  · rfl

/-- What the output frame `t` holds when the resets before frame `j` have been looked at. -/
def outVal (N : Ntk) (nPi nPo T t j : ℕ) (e : Env) (k : ℕ) : Bool :=
  casVal N nPi T (lastStart (rstOf nPi e) j) e ((t - lastStart (rstOf nPi e) j) * nPo + k)

theorem outVal_succ (N : Ntk) (nPi nPo T t j : ℕ) (e : Env) (k : ℕ) :
    outVal N nPi nPo T t (j + 1) e k =
      if rstOf nPi e j then casVal N nPi T (j + 1) e ((t - (j + 1)) * nPo + k)
      else outVal N nPi nPo T t j e k := by
  unfold outVal
  rw [lastStart_succ]
  split <;> rfl

/-- The row of frame `t`: frame `t - j` of copy `j`, for `j = 0, .., t`. -/
structure RowOk (N : Ntk) (nPi nPo T t : ℕ) (g : Graph) (row : List Lit) : Prop where
  length : row.length = (t + 1) * nPo
  lit : ∀ l ∈ row, l.obj.Ok (Ntk.IsLeaf ((1 + nPi) * T) 0) g.length
  eval : ∀ j ≤ t, ∀ k < nPo, ∃ l, row[j * nPo + k]? = some l ∧
    ∀ e, g.eval e l = casVal N nPi T j e ((t - j) * nPo + k)

theorem collectRow_spec {s : CasSt} (h : CasInv N nPi nPo T T s)
    (hsize : (1 + T) * T * nPo < 2 ^ 32) {t : ℕ} (ht : t < T) :
    ∃ row, collectRow T nPo t s.yVec = some row ∧ RowOk N nPi nPo T t s.graph row := by
  have hentry := fun {j k : ℕ} (hj : j ≤ t) (hk : k < nPo) =>
    h.entry j (t - j) k (by omega) hk
  -- no place in the array wraps
  have hplace : ∀ {j k : ℕ}, j ≤ t → k < nPo →
      (((2 * T - j + 1) * j % 2 ^ 32 / 2 + (t - j)) * nPo + k) % 2 ^ 32 =
        (triOff T j + (t - j)) * nPo + k := by
    intro j k hj hk
    obtain ⟨l, hl, -⟩ := hentry hj hk
    have hlt := (List.getElem?_eq_some_iff.mp hl).1
    have htwo := two_mul_size T nPo
    rw [h.length] at hlt
    rw [offset_eq (by omega) (Nat.zero_lt_of_lt hk) hsize, Nat.mod_eq_of_lt (by omega)]
  have hloop : ∀ n ≤ t + 1, ∃ row, (List.range n).foldlM (fun row j => do
      let ys ← (List.range nPo).mapM fun k =>
        s.yVec[(((2 * T - j + 1) * j % 2 ^ 32 / 2 + (t - j)) * nPo + k) % 2 ^ 32]?
      return row ++ ys) ([] : List Lit) = some row ∧ row.length = n * nPo ∧
      (∀ l ∈ row, l ∈ s.yVec) ∧
      ∀ j < n, ∀ k < nPo, row[j * nPo + k]? = s.yVec[(triOff T j + (t - j)) * nPo + k]? := by
    intro n
    induction n with
    | zero => exact fun _ => ⟨[], rfl, by simp, by simp, fun j hj => absurd hj (Nat.not_lt_zero j)⟩
    | succ n ih =>
        intro hn
        obtain ⟨row, hrun, hlen, hmem, hget⟩ := ih (Nat.le_of_succ_le hn)
        have hnt : n ≤ t := Nat.le_of_lt_succ hn
        obtain ⟨ys, hys, hylen, hyget⟩ := mapM_range_some (n := nPo)
          (f := fun k => s.yVec[(((2 * T - n + 1) * n % 2 ^ 32 / 2 + (t - n)) * nPo + k) % 2 ^ 32]?)
          fun k hk => by
            obtain ⟨l, hl, -⟩ := hentry hnt hk
            exact ⟨l, by rw [hplace hnt hk]; exact hl⟩
        refine ⟨row ++ ys, ?_, ?_, fun l hl => ?_, fun j hj k hk => ?_⟩
        · rw [List.range_succ, List.foldlM_append, hrun]
          simp only [Option.bind_eq_bind, Option.bind_some, List.foldlM_cons, List.foldlM_nil, hys]
          rfl
        · rw [List.length_append, hlen, hylen, Nat.add_one_mul]
        · rcases List.mem_append.mp hl with hl | hl
          · exact hmem l hl
          · obtain ⟨k, hk⟩ := List.getElem?_of_mem hl
            rw [hyget k (hylen ▸ (List.getElem?_eq_some_iff.mp hk).1)] at hk
            exact List.mem_of_getElem? hk
        · rcases Nat.lt_succ_iff_lt_or_eq.mp hj with hlt | rfl
          · have hin : j * nPo + k < row.length := by
              rw [hlen]
              calc j * nPo + k < j * nPo + nPo := Nat.add_lt_add_left hk _
                _ = (j + 1) * nPo := (Nat.add_one_mul j nPo).symm
                _ ≤ n * nPo := Nat.mul_le_mul_right _ hlt
            rw [List.getElem?_append_left hin, hget j hlt k hk]
          · rw [List.getElem?_append_right (by rw [hlen]; exact Nat.le_add_right _ _), hlen,
              Nat.add_sub_cancel_left, hyget k hk, hplace hnt hk]
  obtain ⟨row, hrun, hlen, hmem, hget⟩ := hloop (t + 1) le_rfl
  refine ⟨row, hrun, hlen, fun l hl => h.lit l (hmem l hl), fun j hj k hk => ?_⟩
  rw [hget j (Nat.lt_succ_of_le hj) k hk]
  exact hentry hj hk

/-- The outputs of frame `t`, the first `n` of which have passed multiplexer `j`. -/
structure MuxInv (N : Ntk) (nPi nPo T t j n : ℕ) (g₀ : Graph) (s : Graph × List Lit) : Prop where
  ok : s.1.Ok (Ntk.IsLeaf ((1 + nPi) * T) 0)
  suffix : g₀ <:+ s.1
  length : s.2.length = nPo
  lit : ∀ l ∈ s.2, l.obj.Ok (Ntk.IsLeaf ((1 + nPi) * T) 0) s.1.length
  eval : ∀ (k : ℕ) (l : Lit), s.2[k]? = some l → ∀ e, s.1.eval e l =
    if k < n then outVal N nPi nPo T t (j + 1) e k else outVal N nPi nPo T t j e k

theorem MuxInv.muxOne (abc : AbcAig) {t j n : ℕ} {g₀ : Graph} {row : List Lit}
    {s : Graph × List Lit} (h : MuxInv N nPi nPo T t j n g₀ s)
    (hrow : RowOk N nPi nPo T t g₀ row) (hj : j < t) (ht : t < T) (hn : n < nPo) :
    ∃ s', muxOne abc nPo (Obj.pi (j * (nPi + 1) + nPi)).lit row j s n = some s' ∧
      MuxInv N nPi nPo T t j (n + 1) g₀ s' := by
  obtain ⟨y, hy, hyev⟩ := hrow.eval (j + 1) hj n hn
  have hyok := (hrow.lit y (List.mem_of_getElem? hy)).mono h.suffix.length_le
  obtain ⟨o, ho⟩ : ∃ o, s.2[n]? = some o := ⟨_, List.getElem?_eq_getElem (h.length.symm ▸ hn)⟩
  have hrst : j * (nPi + 1) + nPi < (1 + nPi) * T := by
    calc j * (nPi + 1) + nPi < (j + 1) * (nPi + 1) := by rw [Nat.add_one_mul]; omega
      _ ≤ T * (nPi + 1) := Nat.mul_le_mul_right _ (by omega)
      _ = (1 + nPi) * T := by ring
  have hmux := abc.mux_computes (P := Ntk.IsLeaf ((1 + nPi) * T) 0)
    (c := (Obj.pi (j * (nPi + 1) + nPi)).lit) trivial h.ok hrst hyok
    (h.lit o (List.mem_of_getElem? ho))
  refine ⟨_, by simp only [TimeFold.muxOne, hy, ho, Option.bind_eq_bind, Option.bind_some]; rfl,
    hmux.ok, h.suffix.trans hmux.suffix, by simp [h.length], fun l hl => ?_, fun k l hl e => ?_⟩
  · rcases List.mem_or_eq_of_mem_set hl with hl | rfl
    · exact (h.lit l hl).mono hmux.length_le
    · exact hmux.lit
  · by_cases hkn : k = n
    · subst hkn
      rw [List.getElem?_set_self (h.length.symm ▸ hn)] at hl
      cases hl
      rw [hmux.eval, Graph.eval_of_suffix h.suffix e (hrow.lit y (List.mem_of_getElem? hy)).below,
        hyev, h.eval k o ho e, if_neg (Nat.lt_irrefl k), if_pos (Nat.lt_succ_self k), outVal_succ]
      exact if_congr (by simp [Obj.lit, rstOf]) rfl rfl
    · rw [List.getElem?_set_ne (Ne.symm hkn)] at hl
      rw [Graph.eval_of_suffix hmux.suffix e (h.lit l (List.mem_of_getElem? hl)).below,
        h.eval k l hl e]
      exact if_congr (by omega) rfl rfl

/-- The resets of the first `n` frames. -/
def resets (nPi n : ℕ) : List Lit :=
  (List.range n).map fun r => (Obj.pi (r * (nPi + 1) + nPi)).lit

theorem muxRow_spec (abc : AbcAig) {t : ℕ} (ht : t < T) {g : Graph} {row : List Lit}
    (hg : g.Ok (Ntk.IsLeaf ((1 + nPi) * T) 0)) (hrow : RowOk N nPi nPo T t g row) :
    ∃ s, muxRow abc nPo (resets nPi t) row g = some s ∧ MuxInv N nPi nPo T t t 0 g s := by
  obtain ⟨oVec, hoVec, hlen, hget⟩ := mapM_range_some (f := fun j => row[j]?) (n := nPo)
    fun k hk => by
      obtain ⟨l, hl, -⟩ := hrow.eval 0 (Nat.zero_le t) k hk
      exact ⟨l, by simpa using hl⟩
  have hstart : MuxInv N nPi nPo T t 0 0 g (g, oVec) := by
    refine ⟨hg, List.suffix_refl g, hlen, fun l hl => ?_, fun k l hl e => ?_⟩
    · obtain ⟨k, hk⟩ := List.getElem?_of_mem hl
      rw [hget k (hlen ▸ (List.getElem?_eq_some_iff.mp hk).1)] at hk
      exact hrow.lit l (List.mem_of_getElem? hk)
    · have hk : k < nPo := hlen ▸ (List.getElem?_eq_some_iff.mp hl).1
      have hl : oVec[k]? = some l := hl
      rw [hget k hk] at hl
      obtain ⟨l', hl', hev⟩ := hrow.eval 0 (Nat.zero_le t) k hk
      rw [Nat.zero_mul, Nat.zero_add, hl] at hl'
      cases hl'
      rw [hev e, if_neg (Nat.not_lt_zero k)]
      rfl
  -- all outputs have passed multiplexer `j`: the next one is at its start
  have hnext : ∀ {j s}, MuxInv N nPi nPo T t j nPo g s → MuxInv N nPi nPo T t (j + 1) 0 g s := by
    intro j s h
    refine ⟨h.ok, h.suffix, h.length, h.lit, fun k l hl e => ?_⟩
    have hk : k < nPo := h.length ▸ (List.getElem?_eq_some_iff.mp hl).1
    rw [h.eval k l hl e, if_pos hk, if_neg (Nat.not_lt_zero k)]
  have hinner : ∀ {j s}, j < t → MuxInv N nPi nPo T t j 0 g s → ∀ n ≤ nPo, ∃ s',
      (List.range n).foldlM
        (muxOne abc nPo (Obj.pi (j * (nPi + 1) + nPi)).lit row j) s = some s' ∧
      MuxInv N nPi nPo T t j n g s' := by
    intro j s hj h n hn
    induction n with
    | zero => exact ⟨s, rfl, h⟩
    | succ n ih =>
        obtain ⟨s', hrun, hs'⟩ := ih (Nat.le_of_succ_le hn)
        obtain ⟨s'', hrun', hs''⟩ := hs'.muxOne abc hrow hj ht hn
        exact ⟨s'', by rw [List.range_succ, List.foldlM_append, hrun]; simpa using hrun', hs''⟩
  have houter : ∀ n ≤ t, ∃ s, (resets nPi n).zipIdx.foldlM (fun s rst =>
      (List.range nPo).foldlM (muxOne abc nPo rst.1 row rst.2) s) (g, oVec) = some s ∧
      MuxInv N nPi nPo T t n 0 g s := by
    intro n hn
    induction n with
    | zero => exact ⟨_, rfl, hstart⟩
    | succ n ih =>
        obtain ⟨s, hrun, hs⟩ := ih (Nat.le_of_succ_le hn)
        obtain ⟨s', hrun', hs'⟩ := hinner hn hs nPo le_rfl
        refine ⟨s', ?_, hnext hs'⟩
        rw [resets, List.range_succ, List.map_append, List.zipIdx_append, List.foldlM_append]
        rw [resets] at hrun
        rw [hrun]
        simpa using hrun'
  obtain ⟨s, hrun, hs⟩ := houter t le_rfl
  exact ⟨s, by simp only [muxRow, hoVec, Option.bind_eq_bind, Option.bind_some, hrun], hs⟩

/-- The outputs of the frames up to `i` are connected. -/
structure ResetInv (N : Ntk) (nPi nPo T i : ℕ) (g₀ : Graph) (s : ResetSt) : Prop where
  ok : s.graph.Ok (Ntk.IsLeaf ((1 + nPi) * T) 0)
  suffix : g₀ <:+ s.graph
  rstVec : s.rstVec = resets nPi i
  length : s.pos.length = (i + 1) * nPo
  lit : ∀ l ∈ s.pos, l.obj.Ok (Ntk.IsLeaf ((1 + nPi) * T) 0) s.graph.length
  eval : ∀ t ≤ i, ∀ k < nPo, ∀ l, s.pos[t * nPo + k]? = some l →
    ∀ e, s.graph.eval e l = outVal N nPi nPo T t t e k

theorem RowOk.mono {t : ℕ} {g g' : Graph} {row : List Lit} (h : RowOk N nPi nPo T t g row)
    (hs : g <:+ g') : RowOk N nPi nPo T t g' row := by
  refine ⟨h.length, fun l hl => (h.lit l hl).mono hs.length_le, fun j hj k hk => ?_⟩
  obtain ⟨l, hl, hev⟩ := h.eval j hj k hk
  refine ⟨l, hl, fun e => ?_⟩
  rw [Graph.eval_of_suffix hs e (h.lit l (List.mem_of_getElem? hl)).below, hev]

theorem ResetInv.resetFrame (abc : AbcAig) {c : CasSt} (hc : CasInv N nPi nPo T T c)
    (hsize : (1 + T) * T * nPo < 2 ^ 32) {i : ℕ} (hi : i + 1 < T) {s : ResetSt}
      (h : ResetInv N nPi nPo T i c.graph s) :
    ∃ s', resetFrame abc T nPi nPo c.yVec s i = some s' ∧
      ResetInv N nPi nPo T (i + 1) c.graph s' := by
  have hrst : (nPi + 1) * (i + 1) - 1 < (1 + nPi) * T := by
    rw [rst_index]
    calc i * (nPi + 1) + nPi < (i + 1) * (nPi + 1) := by rw [Nat.add_one_mul]; omega
      _ ≤ T * (nPi + 1) := Nat.mul_le_mul_right _ (by omega)
      _ = (1 + nPi) * T := by ring
  have hvec : s.rstVec ++ [(Obj.pi ((nPi + 1) * (i + 1) - 1)).lit] = resets nPi (i + 1) := by
    rw [h.rstVec, rst_index, resets, resets, List.range_succ, List.map_append]
    rfl
  obtain ⟨row, hrun, hrow⟩ := collectRow_spec hc hsize hi
  obtain ⟨r, hmux, hr⟩ := muxRow_spec abc hi h.ok (hrow.mono h.suffix)
  refine ⟨⟨r.1, resets nPi (i + 1), s.pos ++ r.2⟩, ?_, hr.ok, h.suffix.trans hr.suffix, rfl, ?_,
    fun l hl => ?_, fun t ht k hk l hl e => ?_⟩
  · simp only [TimeFold.resetFrame, if_pos hrst, hvec, hrun, hmux, Option.bind_eq_bind,
      Option.bind_some]
    rfl
  · rw [List.length_append, h.length, hr.length, ← Nat.add_one_mul]
  · rcases List.mem_append.mp hl with hl | hl
    · exact (h.lit l hl).mono hr.suffix.length_le
    · exact hr.lit l hl
  · rcases Nat.lt_or_ge i t with hlt | hle
    · obtain rfl : t = i + 1 := Nat.le_antisymm ht hlt
      have hl : (s.pos ++ r.2)[(i + 1) * nPo + k]? = some l := hl
      rw [List.getElem?_append_right (by rw [h.length]; exact Nat.le_add_right _ _), h.length,
        Nat.add_sub_cancel_left] at hl
      rw [hr.eval k l hl e, if_neg (Nat.not_lt_zero k)]
    · have hin : t * nPo + k < s.pos.length := by
        rw [h.length]
        calc t * nPo + k < t * nPo + nPo := Nat.add_lt_add_left hk _
          _ = (t + 1) * nPo := (Nat.add_one_mul t nPo).symm
          _ ≤ (i + 1) * nPo := Nat.mul_le_mul_right _ (Nat.succ_le_succ hle)
      have hl : (s.pos ++ r.2)[t * nPo + k]? = some l := hl
      rw [List.getElem?_append_left hin] at hl
      rw [Graph.eval_of_suffix hr.suffix e (h.lit l (List.mem_of_getElem? hl)).below,
        h.eval t hle k hk l hl e]

theorem exists_copies (abc : AbcAig) (hN : N.Ok) (hl : N.latches = []) (hw : 1 ≤ nPi)
    (hpi : N.nPi = nPi * T) (hpo : N.pos.length = nPo * T) :
    ∃ c, (List.range T).foldlM (casFrame abc N T nPi nPo) ⟨[], fun _ => Obj.const1.lit, []⟩ =
      some c ∧ CasInv N nPi nPo T T c := by
  have hcopies : ∀ n ≤ T, ∃ s, (List.range n).foldlM (casFrame abc N T nPi nPo)
      ⟨[], fun _ => Obj.const1.lit, []⟩ = some s ∧ CasInv N nPi nPo T n s := by
    intro n hn
    induction n with
    | zero => exact ⟨_, rfl, casInv_zero N nPi nPo T⟩
    | succ n ih =>
        obtain ⟨s, hrun, hs⟩ := ih (Nat.le_of_succ_le hn)
        obtain ⟨s', hrun', hs'⟩ := hs.casFrame abc hN hl hw hpi hpo hn
        exact ⟨s', by rw [List.range_succ, List.foldlM_append, hrun]; simpa using hrun', hs'⟩
  exact hcopies T le_rfl

/-- Where the size of the array wraps, its assertion fails. -/
theorem timeCas_none (abc : AbcAig) (hN : N.Ok) (hl : N.latches = []) (hT : 1 ≤ T) (hw : 1 ≤ nPi)
    (hpi : N.nPi = nPi * T) (hpo : N.pos.length = nPo * T)
    (hsize : 2 ^ 32 ≤ (1 + T) * T * nPo) : timeCas abc N T = none := by
  have hdiv : N.nPi / T = nPi := by rw [hpi]; exact Nat.mul_div_cancel nPi hT
  have hdiv' : N.pos.length / T = nPo := by rw [hpo]; exact Nat.mul_div_cancel nPo hT
  obtain ⟨c, hc, hcas⟩ := exists_copies abc hN hl hw hpi hpo
  have hyvec : c.yVec.length ≠ (1 + T) * T * nPo % 2 ^ 32 / 2 := by
    have htwo := two_mul_size T nPo
    have hmod := Nat.mod_lt ((1 + T) * T * nPo) (show 0 < 2 ^ 32 by norm_num)
    rw [hcas.length]
    omega
  simp only [timeCas, hdiv, hdiv']
  rw [if_pos ⟨hpo.symm, hpi.symm, numCis_eq hw hpi⟩]
  simp only [hc, Option.bind_eq_bind, Option.bind_some, if_neg hyvec]

theorem timeCas_outputs (abc : AbcAig) (hN : N.Ok) (hl : N.latches = []) (hT : 1 ≤ T)
    (hw : 1 ≤ nPi) (hpi : N.nPi = nPi * T) (hpo : N.pos.length = nPo * T)
    (hsize : (1 + T) * T * nPo < 2 ^ 32) :
    ∃ M, timeCas abc N T = some M ∧ M.Ok ∧ M.latches = [] ∧ M.nPi = (nPi + 1) * T ∧
      M.pos.length = nPo * T ∧
      ∀ z, ∀ t < T, ∀ k < nPo,
        M.fn z (t * nPo + k) = outVal N nPi nPo T t t ⟨z, fun _ => false⟩ k := by
  have hdiv : N.nPi / T = nPi := by rw [hpi]; exact Nat.mul_div_cancel nPi hT
  have hdiv' : N.pos.length / T = nPo := by rw [hpo]; exact Nat.mul_div_cancel nPo hT
  obtain ⟨c, hc, hcas⟩ := exists_copies abc hN hl hw hpi hpo
  have hyvec : c.yVec.length = (1 + T) * T * nPo % 2 ^ 32 / 2 := by
    rw [hcas.length, Nat.mod_eq_of_lt hsize, ← two_mul_size,
      Nat.mul_div_cancel_left _ Nat.two_pos]
  -- the first frame is copy 0 without multiplexers
  obtain ⟨pos, hpos, hlen, hget⟩ := mapM_range_some (f := fun j => c.yVec[j]?) (n := nPo)
    fun k hk => by
      obtain ⟨l, hl', -⟩ := hcas.entry 0 0 k (by omega) hk
      exact ⟨l, by simpa [triOff] using hl'⟩
  have hstart : ResetInv N nPi nPo T 0 c.graph ⟨c.graph, [], pos⟩ := by
    refine ⟨hcas.ok, List.suffix_refl _, rfl, by simp [hlen], fun l hl' => ?_,
      fun t ht k hk l hl' e => ?_⟩
    · obtain ⟨k, hk⟩ := List.getElem?_of_mem hl'
      rw [hget k (hlen ▸ (List.getElem?_eq_some_iff.mp hk).1)] at hk
      exact hcas.lit l (List.mem_of_getElem? hk)
    · obtain rfl := Nat.le_zero.mp ht
      have hl' : pos[0 * nPo + k]? = some l := hl'
      rw [Nat.zero_mul, Nat.zero_add, hget k hk] at hl'
      obtain ⟨l', hl'', hev⟩ := hcas.entry 0 0 k (by omega) hk
      rw [triOff, Nat.zero_add, Nat.zero_mul, Nat.zero_add, hl'] at hl''
      cases hl''
      exact hev e
  have hframes : ∀ n < T, ∃ s, (List.range n).foldlM (resetFrame abc T nPi nPo c.yVec)
      ⟨c.graph, [], pos⟩ = some s ∧ ResetInv N nPi nPo T n c.graph s := by
    intro n hn
    induction n with
    | zero => exact ⟨_, rfl, hstart⟩
    | succ n ih =>
        obtain ⟨s, hrun, hs⟩ := ih (Nat.lt_of_succ_lt hn)
        obtain ⟨s', hrun', hs'⟩ := hs.resetFrame abc hcas hsize hn
        exact ⟨s', by rw [List.range_succ, List.foldlM_append, hrun]; simpa using hrun', hs'⟩
  obtain ⟨r, hr, hres⟩ := hframes (T - 1) (Nat.sub_lt hT Nat.one_pos)
  refine ⟨⟨(1 + nPi) * T, r.graph, [], r.pos⟩, ?_, ⟨hres.ok, by simp, hres.lit⟩, rfl,
    by rw [Nat.add_comm], ?_, fun z t ht k hk => ?_⟩
  · simp only [timeCas, hdiv, hdiv']
    rw [if_pos ⟨hpo.symm, hpi.symm, numCis_eq hw hpi⟩]
    simp only [hc, Option.bind_eq_bind, Option.bind_some, if_pos hyvec, hpos, hr]
    rfl
  · rw [hres.length, Nat.sub_add_cancel hT, Nat.mul_comm]
  · have hin : t * nPo + k < r.pos.length := by
      rw [hres.length]
      calc t * nPo + k < t * nPo + nPo := Nat.add_lt_add_left hk _
        _ = (t + 1) * nPo := (Nat.add_one_mul t nPo).symm
        _ ≤ (T - 1 + 1) * nPo := Nat.mul_le_mul_right _ (by omega)
    have hget := List.getElem?_eq_getElem hin
    simp only [Ntk.fn, hget]
    exact hres.eval t (by omega) k hk _ hget _

/-- The resettable expansion: output frame `t` is frame `t - s` of the circuit on the input frames
from `s` on, where `s` is the frame behind the latest reset before `t`, as long as the size of the
triangular array does not wrap. -/
theorem timeCas_resets (abc : AbcAig) (hN : N.Ok) (hl : N.latches = []) (hT : 1 ≤ T)
    (hw : 1 ≤ nPi) (hpi : N.nPi = nPi * T) (hpo : N.pos.length = nPo * T)
    (hsize : (1 + T) * T * nPo < 2 ^ 32)
    (hcausal : ∀ t < T, ∀ k < nPo, ∀ x y : ℕ → Bool, (∀ j < (t + 1) * nPi, x j = y j) →
      N.fn x (t * nPo + k) = N.fn y (t * nPo + k)) :
    ∃ M, timeCas abc N T = some M ∧ M.Ok ∧ M.latches = [] ∧ M.nPi = (nPi + 1) * T ∧
      M.pos.length = nPo * T ∧
      ∀ z x : ℕ → Bool, ∀ t < T, ∀ s, s = lastStart (fun r => z (r * (nPi + 1) + nPi)) t →
        (∀ f ≤ t - s, ∀ i < nPi, x (f * nPi + i) = z ((s + f) * (nPi + 1) + i)) →
        ∀ k < nPo, M.fn z (t * nPo + k) = N.fn x ((t - s) * nPo + k) := by
  obtain ⟨M, hM, hok, hlat, hpins, hlen, hout⟩ :=
    timeCas_outputs abc hN hl hT hw hpi hpo hsize
  refine ⟨M, hM, hok, hlat, hpins, hlen, fun z x t ht s hs hx k hk => ?_⟩
  have hst : s ≤ t := hs ▸ lastStart_le _ t
  have hrst : lastStart (rstOf nPi ⟨z, fun _ => false⟩) t = s := hs.symm
  rw [hout z t ht k hk, outVal, hrst, casVal]
  refine hcausal (t - s) (by omega) k hk _ _ fun j hj => ?_
  have hframe : j / nPi ≤ t - s := Nat.lt_succ_iff.mp ((Nat.div_lt_iff_lt_mul hw).mpr hj)
  have hmod := Nat.mod_lt j hw
  have hval := hx (j / nPi) hframe (j % nPi) hmod
  rw [Nat.div_add_mod' j nPi] at hval
  rw [hval, casSrc, Nat.min_eq_left (by omega)]

end Copies

/-- Two frames of one input and one output: the conjunction of the inputs so far. -/
def runNtk : Ntk where
  nPi := 2
  graph := [((Obj.pi 0).lit, (Obj.pi 1).lit)]
  latches := []
  pos := [(Obj.pi 0).lit, (Obj.node 0).lit]

theorem runNtk_fn (x : ℕ → Bool) : runNtk.fn x 0 = x 0 ∧ runNtk.fn x 1 = (x 0 && x 1) := by
  simp [runNtk, Ntk.fn, Graph.eval, Graph.interp, Env.leaf, andOp, Obj.lit]

/-- Without a reset both inputs count, after a reset only the second. -/
theorem timeCas_runNtk :
    ∃ M, timeCas strash runNtk 2 = some M ∧ M.nPi = 4 ∧
      ∀ z : ℕ → Bool, M.fn z 1 = if z 1 then z 2 else z 0 && z 2 := by
  obtain ⟨M, hM, -, -, hpins, -, hout⟩ := timeCas_resets strash (N := runNtk)
    ⟨⟨Nat.zero_lt_two, Nat.one_lt_two, trivial⟩, by simp [runNtk],
      by simp [runNtk, Obj.Ok, Ntk.IsLeaf, Obj.lit]⟩ rfl (by decide) (by decide)
    (show runNtk.nPi = 1 * 2 from rfl) (show runNtk.pos.length = 1 * 2 from rfl) (by decide)
    (by
      intro t ht k hk x y hxy
      obtain rfl : k = 0 := by omega
      rcases (by omega : t = 0 ∨ t = 1) with rfl | rfl
      · rw [(runNtk_fn x).1, (runNtk_fn y).1, hxy 0 (by decide)]
      · rw [(runNtk_fn x).2, (runNtk_fn y).2, hxy 0 (by decide), hxy 1 (by decide)])
  refine ⟨M, hM, hpins, fun z => ?_⟩
  cases hz : z 1 with
  | true =>
      have h := hout z (fun _ => z 2) 1 (by decide) 1 (by simp [lastStart_succ, hz])
        (by simp) 0 (by decide)
      simpa [(runNtk_fn _).1] using h
  | false =>
      have h := hout z (fun j => z (j * 2)) 1 (by decide) 0
        (by rw [lastStart_succ]; simp [hz, lastStart]) (by simp) 0 (by decide)
      simpa [(runNtk_fn _).2] using h

/-- Each output frame is its input frame. -/
def wireNtk (T : ℕ) : Ntk where
  nPi := T
  graph := []
  latches := []
  pos := (List.range T).map fun t => (Obj.pi t).lit

theorem wireNtk_ok (T : ℕ) : (wireNtk T).Ok ∧ (wireNtk T).nPi = 1 * T ∧
    (wireNtk T).pos.length = 1 * T := by
  refine ⟨⟨trivial, by simp [wireNtk], fun l hl => ?_⟩, (Nat.one_mul T).symm, by simp [wireNtk]⟩
  obtain ⟨t, ht, rfl⟩ := List.mem_map.mp hl
  exact List.mem_range.mp ht

theorem wireNtk_fn {T t : ℕ} (ht : t < T) (x : ℕ → Bool) : (wireNtk T).fn x t = x t := by
  have hget : (wireNtk T).pos[t]? = some (Obj.pi t).lit := by
    simp [wireNtk, ht]
  rw [Ntk.fn, hget]
  simp [wireNtk, Graph.eval, Env.leaf, Obj.lit]

/-- With 65536 frames of one output, twice the size of the array is 65536 in 32 bits. -/
theorem timeCas_65536 : ∃ N : Ntk, N.Ok ∧ N.latches = [] ∧ N.nPi = 1 * 65536 ∧
    N.pos.length = 1 * 65536 ∧
    (∀ t < 65536, ∀ k < 1, ∀ x y : ℕ → Bool, (∀ j < (t + 1) * 1, x j = y j) →
      N.fn x (t * 1 + k) = N.fn y (t * 1 + k)) ∧
    ∀ abc, timeCas abc N 65536 = none := by
  obtain ⟨hok, hpi, hpo⟩ := wireNtk_ok 65536
  refine ⟨wireNtk 65536, hok, rfl, hpi, hpo, fun t ht k hk x y hxy => ?_,
    fun abc => timeCas_none abc hok rfl (by norm_num) le_rfl hpi hpo (by norm_num)⟩
  obtain rfl := Nat.lt_one_iff.mp hk
  rw [Nat.mul_one, Nat.add_zero, wireNtk_fn ht, wireNtk_fn ht]
  exact hxy t (by omega)

end ExtFolding.TimeFold
