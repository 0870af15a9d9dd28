import ExtFolding.Lib.Loop
import ExtFolding.Lib.Frames
import ExtFolding.Lib.Parallel

/-!
# `utils/aigUtils.cpp`: `aigMerge`

Sequential networks are copied one after another into a new network. Inputs are shared by index and
created when a network needs more than there are; latches and outputs are appended. The result runs
the networks side by side.
-/

namespace ExtFolding.Utils

open ExtFolding.Aig

/-! ## The code -/

/-- The inputs after `aigIthVar(pNtk, i)`: missing ones up to `i` are created. -/
def aigIthVar (nPi i : ℕ) : ℕ := nPi + (i + 1 - nPi)

/-- The latches after `aigNewLatch`, and the index of the new one. Its input is connected later. -/
def aigNewLatch (latches : List Latch) (initVal : LatchInit) : List Latch × ℕ :=
  (latches ++ [⟨match initVal with
    | .zero => .zero
    | .one => .one
    | .dc => .dc, Obj.const1.lit⟩], latches.length)

/-- The new latches of a network, with `vLats`. -/
def newLatches (latches boxes : List Latch) : List Latch × List ℕ :=
  boxes.foldl (fun p box =>
    let r := aigNewLatch p.1 box.init
    (r.1, p.2 ++ [r.2])) (latches, [])

/-- `Abc_ObjAddFanin` on the input of new latch `vLats[i]`, for each box `i`. -/
def connectLatches (vLats : List ℕ) (copy : Obj → Lit) (boxes latches : List Latch) : List Latch :=
  boxes.zipIdx.foldl (fun latches p =>
    latches.modify (vLats.getD p.2 0) fun l => { l with input := childCopy copy p.1.input }) latches

/-- `pCopy` of the constant, the inputs and the latch outputs. -/
def mergeCopy (vLats : List ℕ) : Obj → Lit
  | .const1 => Obj.const1.lit
  | .pi i => (Obj.pi i).lit
  | .bo i => (Obj.bo (vLats.getD i 0)).lit
  | .node _ => Obj.const1.lit

/-- One network is copied into the new one. -/
def mergeStep (abc : AbcAig) (pNtkNew pNtk : Ntk) : Ntk :=
  let nPi := (List.range pNtk.nPi).foldl aigIthVar pNtkNew.nPi
  let p := newLatches pNtkNew.latches pNtk.latches
  let r := copyAnds abc pNtk.graph (mergeCopy p.2) pNtkNew.graph
  { nPi := nPi
    graph := r.1
    latches := connectLatches p.2 r.2 pNtk.latches p.1
    pos := pNtkNew.pos ++ pNtk.pos.map (childCopy r.2) }

/-- `none` is the null pointer for an empty array. -/
def aigMerge (abc : AbcAig) (pNtks : List Ntk) : Option Ntk :=
  if pNtks = [] then none else some (pNtks.foldl (mergeStep abc) ⟨0, [], [], []⟩)

/-! ## Inputs and latches -/

theorem foldl_aigIthVar (n m : ℕ) : (List.range m).foldl aigIthVar n = max n m := by
  induction m with
  | zero => simp
  | succ m ih =>
      rw [List.range_succ, List.foldl_append, ih]
      show max n m + (m + 1 - max n m) = max n (m + 1)
      omega

theorem newLatches_eq (latches boxes : List Latch) :
    newLatches latches boxes =
      (latches ++ boxes.map fun b => ⟨b.init, Obj.const1.lit⟩,
        (List.range boxes.length).map (latches.length + ·)) := by
  unfold newLatches
  refine foldl_inv (fun (pre : List Latch) p =>
    p = (latches ++ pre.map fun b => ⟨b.init, Obj.const1.lit⟩,
      (List.range pre.length).map (latches.length + ·))) (b := (latches, []))
    (fun pre b post p _ hp => ?_) (by simp)
  subst hp
  have hinit : ∀ x : LatchInit, (match x with
    | .zero => LatchInit.zero
    | .one => .one
    | .dc => .dc) = x := by
    intro x
    cases x <;> rfl
  simp [aigNewLatch, hinit, List.range_succ]

theorem modify_middle {α : Type} (l : List α) (a : α) (r : List α) (f : α → α) :
    (l ++ a :: r).modify l.length f = l ++ f a :: r := by
  induction l with
  | nil => rfl
  | cons b l ih => exact congrArg (b :: ·) ih

/-- Each new latch gets the copy of its own input. -/
theorem connectLatches_eq (copy : Obj → Lit) (latches boxes : List Latch) :
    connectLatches ((List.range boxes.length).map (latches.length + ·)) copy boxes
        (latches ++ boxes.map fun b => ⟨b.init, Obj.const1.lit⟩) =
      latches ++ boxes.map fun b => ⟨b.init, childCopy copy b.input⟩ := by
  unfold connectLatches
  set vLats := (List.range boxes.length).map (latches.length + ·) with hv
  -- the boxes of `done` are connected, those of `todo` are not
  have key : ∀ todo done : List Latch, done ++ todo = boxes →
      (todo.zipIdx done.length).foldl (fun latches p =>
          latches.modify (vLats.getD p.2 0) fun l => { l with input := childCopy copy p.1.input })
        ((latches ++ done.map fun b => ⟨b.init, childCopy copy b.input⟩) ++
          todo.map fun b => ⟨b.init, Obj.const1.lit⟩) =
        latches ++ boxes.map fun b => ⟨b.init, childCopy copy b.input⟩ := by
    intro todo
    induction todo with
    | nil =>
        intro done hsplit
        rw [List.append_nil] at hsplit
        simp [hsplit]
    | cons b todo ih =>
        intro done hsplit
        have hlt : done.length < boxes.length := by
          rw [← hsplit]
          simp
        have hat : vLats.getD done.length 0 =
            (latches ++ done.map fun b => (⟨b.init, childCopy copy b.input⟩ : Latch)).length := by
          rw [hv, List.getD_eq_getElem?_getD, List.getElem?_map, List.getElem?_range hlt]
          simp
        rw [List.zipIdx_cons, List.foldl_cons, List.map_cons, hat, modify_middle]
        have := ih (done ++ [b]) (by simpa using hsplit)
        simpa using this
  simpa using key boxes [] rfl

/-! ## The product -/

/-- A step puts the next network beside what is there. -/
theorem mergeStep_isPar (abc : AbcAig) {A B : Ntk} (hA : A.Ok) (hB : B.Ok) :
    Ntk.IsPar A B (mergeStep abc A B) := by
  set vLats := (List.range B.latches.length).map (A.latches.length + ·) with hv
  set r := copyAnds abc B.graph (mergeCopy vLats) A.graph with hr
  have hstep : mergeStep abc A B = {
      nPi := max A.nPi B.nPi
      graph := r.1
      latches := A.latches ++ B.latches.map fun b => ⟨b.init, childCopy r.2 b.input⟩
      pos := A.pos ++ B.pos.map (childCopy r.2) } := by
    simp only [mergeStep, foldl_aigIthVar, newLatches_eq]
    rw [connectLatches_eq]
  set Q := Ntk.IsLeaf (max A.nPi B.nPi) (A.latches.length + B.latches.length) with hQ
  have hweak : ∀ o, Ntk.IsLeaf A.nPi A.latches.length o → Q o :=
    Ntk.isLeaf_mono (Nat.le_max_left _ _) (Nat.le_add_right _ _)
  have hget : ∀ i < B.latches.length, vLats.getD i 0 = A.latches.length + i := by
    intro i hi
    rw [hv, List.getD_eq_getElem?_getD, List.getElem?_map, List.getElem?_range hi]
    rfl
  obtain ⟨hsuf, hcopy⟩ := copyAnds_spec abc (P := Ntk.IsLeaf B.nPi B.latches.length) (Q := Q)
    (mergeCopy vLats) (fun e => e.after A.latches.length) hB.graph (hA.graph.weaken hweak) trivial
    (fun o ho => by
      cases o with
      | const1 => trivial
      | pi i => exact Nat.lt_of_lt_of_le ho (Nat.le_max_right _ _)
      | bo i =>
          show vLats.getD i 0 < A.latches.length + B.latches.length
          rw [hget i ho]
          exact Nat.add_lt_add_left ho _
      | node k => exact absurd ho (Nat.not_lt_zero k))
    (fun o ho e => by
      cases o with
      | const1 => exact Graph.eval_const1 _ _ _
      | pi i => exact (Graph.eval_pi _ _ _ _).trans (Bool.xor_false _)
      | bo i =>
          refine (Graph.eval_bo _ _ _ _).trans ((Bool.xor_false _).trans ?_)
          rw [hget i ho]
          rfl
      | node k => exact absurd ho (Nat.not_lt_zero k))
  rw [← hr] at hsuf hcopy
  have hkeep : ∀ l : Lit, l.obj.Ok (Ntk.IsLeaf A.nPi A.latches.length) A.graph.length →
      l.obj.Ok Q r.1.length ∧ ∀ e, r.1.eval e l = A.graph.eval e l := fun l hl =>
    ⟨(hl.mono hsuf.length_le).weaken hweak, fun e => Graph.eval_of_suffix hsuf e hl.below⟩
  have hlen : (A.latches ++ B.latches.map fun b =>
      (⟨b.init, childCopy r.2 b.input⟩ : Latch)).length = A.latches.length + B.latches.length := by
    simp
  rw [hstep]
  refine ⟨⟨hlen.symm ▸ hcopy.ok, fun l hl => ?_, fun l hl => ?_⟩, rfl, ?_, fun e => ?_, fun e => ?_⟩
  · show l.input.obj.Ok (Ntk.IsLeaf _ (A.latches ++ _).length) r.1.length
    rw [hlen]
    rcases List.mem_append.mp hl with hl | hl
    · exact (hkeep _ (hA.latches l hl)).1
    · obtain ⟨b, hb, rfl⟩ := List.mem_map.mp hl
      exact hcopy.lit _ (hB.latches b hb)
  · show l.obj.Ok (Ntk.IsLeaf _ (A.latches ++ _).length) r.1.length
    rw [hlen]
    rcases List.mem_append.mp hl with hl | hl
    · exact (hkeep _ (hA.pos l hl)).1
    · obtain ⟨p, hp, rfl⟩ := List.mem_map.mp hl
      exact hcopy.lit _ (hB.pos p hp)
  · simp
  · simp only [Ntk.nexts, List.map_append, List.map_map]
    congr 1
    · exact List.map_congr_left fun l hl => (hkeep _ (hA.latches l hl)).2 e
    · exact List.map_congr_left fun b hb => hcopy.child (hB.latches b hb) e
  · simp only [Ntk.outs, List.map_append, List.map_map]
    congr 1
    · exact List.map_congr_left fun p hp => (hkeep _ (hA.pos p hp)).2 e
    · exact List.map_congr_left fun p hp => hcopy.child (hB.pos p hp) e

/-- The first `n` pins. -/
def firstPins (n : ℕ) (inp : ℕ → ℕ → Bool) : ℕ → ℕ → Bool := fun c i => decide (i < n) && inp c i

/-- The result is the parallel composition: as many inputs as the widest network, latches that start
independently, and in every cycle the outputs of each network on its own inputs and latches. -/
theorem aigMerge_parallel (abc : AbcAig) {pNtks : List Ntk} (hne : pNtks ≠ [])
    (hok : ∀ N ∈ pNtks, N.Ok) :
    ∃ M, aigMerge abc pNtks = some M ∧ M.Ok ∧
      (∀ N ∈ pNtks, N.nPi ≤ M.nPi) ∧ (∃ N ∈ pNtks, N.nPi = M.nPi) ∧
      (∀ s, M.IsInit s ↔ ∀ (j : ℕ) N, pNtks[j]? = some N →
        N.IsInit fun i => s (Ntk.latchStart pNtks j + i)) ∧
      ∀ s inp c, M.outsAt s inp c = pNtks.zipIdx.flatMap fun p =>
        p.1.outsAt (fun i => s (Ntk.latchStart pNtks p.2 + i)) (firstPins p.1.nPi inp) c := by
  have hempty : Ntk.Ok ⟨0, [], [], []⟩ := ⟨trivial, by simp, by simp⟩
  obtain ⟨h, -⟩ := foldl_inv (f := mergeStep abc)
    (fun pre M => Ntk.IsParList pre M ∧ (pre = [] → M.nPi = 0)) (l := pNtks)
    (fun pre B post A hl ⟨hA, hA0⟩ => by
      have hB : B.Ok := hok B (hl ▸ by simp)
      exact ⟨hA.snoc hB (mergeStep_isPar abc hA.ok hB) hA0, by simp⟩)
    (b := ⟨0, [], [], []⟩) ⟨Ntk.isParList_nil hempty rfl rfl, fun _ => rfl⟩
  refine ⟨_, if_neg hne, h.ok, h.le, h.widest hne, h.init, fun s inp c => ?_⟩
  rw [h.outs]
  refine List.flatMap_congr fun p hp => ?_
  have hin : p.1 ∈ pNtks := List.mem_of_getElem? (List.mem_zipIdx_iff_getElem?.mp hp)
  exact (hok p.1 hin).outsAt_congr _ fun d _ i hi => by simp [firstPins, hi]

/-- A latch that holds its input, and two inputs in conjunction. -/
def delayAndConj : List Ntk :=
  [{ nPi := 1, graph := [], latches := [⟨.dc, ⟨.pi 0, false⟩⟩], pos := [⟨.bo 0, true⟩] },
   { nPi := 2, graph := [(⟨.pi 0, false⟩, ⟨.pi 1, false⟩)], latches := [],
     pos := [⟨.node 0, false⟩] }]

theorem aigMerge_delayAndConj :
    ∃ M, aigMerge strash delayAndConj = some M ∧ M.Ok ∧
      (∀ N ∈ delayAndConj, N.nPi ≤ M.nPi) ∧ (∃ N ∈ delayAndConj, N.nPi = M.nPi) ∧
      (∀ s, M.IsInit s ↔ ∀ (j : ℕ) N, delayAndConj[j]? = some N →
        N.IsInit fun i => s (Ntk.latchStart delayAndConj j + i)) ∧
      ∀ s inp c, M.outsAt s inp c = delayAndConj.zipIdx.flatMap fun p =>
        p.1.outsAt (fun i => s (Ntk.latchStart delayAndConj p.2 + i)) (firstPins p.1.nPi inp) c :=
  aigMerge_parallel strash (by simp [delayAndConj]) (by
    intro N hN
    rcases List.mem_cons.mp hN with rfl | hN
    · exact ⟨trivial, by simp [Obj.Ok, Ntk.IsLeaf], by simp [Obj.Ok, Ntk.IsLeaf]⟩
    · rw [List.mem_singleton.mp hN]
      exact ⟨by simp [Graph.Ok, Obj.Ok, Ntk.IsLeaf], by simp, by simp [Obj.Ok]⟩)

end ExtFolding.Utils
