import ExtFolding.Lib.Ntk

/-!
# Network routines: time-frame expansion and cones

`AbcNtk` adds to the manager contract the network routines of ABC that the
repository calls: `Abc_NtkFrames` with initialisation, `Abc_NtkCreateCone`
with all inputs kept, and the equivalence check `Abc_NtkCecFraig`. `unroll`,
`coneOf` and `exhaustiveCec` are concrete routines that meet the contracts.
-/

namespace ExtFolding.Aig

namespace Ntk

/-- `F` is the `T`-frame expansion of `M` from its initial state, with inputs
and outputs in frame-major order. -/
structure IsFrames (M : Ntk) (T : ℕ) (F : Ntk) : Prop where
  ok : F.Ok
  latches : F.latches = []
  nPi : F.nPi = M.nPi * T
  pos : F.pos.length = M.pos.length * T
  fn : ∀ s, M.IsInit s → ∀ x t o, t < T → o < M.pos.length →
    F.fn x (t * M.pos.length + o) = M.outAt s (fun c i => x (c * M.nPi + i)) t o

/-- `C` is the cone of object `o` in the combinational network `N`, with all inputs. -/
structure IsCone (N : Ntk) (o : Obj) (C : Ntk) : Prop where
  ok : C.Ok
  latches : C.latches = []
  nPi : C.nPi = N.nPi
  pos : C.pos.length = 1
  fn : ∀ x, C.fn x 0 = N.graph.eval ⟨x, fun _ => false⟩ o.lit

/-- The same outputs as functions of the inputs, position by position. -/
def SameFn (N₁ N₂ : Ntk) : Prop :=
  N₁.pos.length = N₂.pos.length ∧ ∀ x, ∀ o < N₁.pos.length, N₁.fn x o = N₂.fn x o

end Ntk

/-- The manager together with the network routines. -/
structure AbcNtk extends AbcAig where
  frames : Ntk → ℕ → Ntk
  createCone : Ntk → Obj → Ntk
  cec : Ntk → Ntk → Bool
  frames_spec : ∀ {M : Ntk} (T : ℕ), M.Ok → (∀ l ∈ M.latches, l.init ≠ .dc) →
    M.IsFrames T (frames M T)
  createCone_spec : ∀ {N : Ntk} {o : Obj}, N.Ok → N.latches = [] →
    o.Ok (Ntk.IsLeaf N.nPi 0) N.graph.length → N.IsCone o (createCone N o)
  cec_spec : ∀ {N₁ N₂ : Ntk}, N₁.Ok → N₂.Ok → N₁.latches = [] → N₂.latches = [] →
    N₁.nPi = N₂.nPi → (cec N₁ N₂ = true ↔ N₁.SameFn N₂)

/-! ## A concrete expansion -/

/-- Expansion in progress: the graph, the literals on the latch outputs, the outputs so far. -/
structure Unrolled where
  graph : Graph
  bo : ℕ → Lit
  pos : List Lit

/-- Copies of the leaves of `M` in frame `t`. -/
def frameLeaf (M : Ntk) (t : ℕ) (bo : ℕ → Lit) : Obj → Lit
  | .const1 => Obj.const1.lit
  | .pi i => (Obj.pi (t * M.nPi + i)).lit
  | .bo j => bo j
  | .node _ => Obj.const1.lit

def initLit (M : Ntk) (j : ℕ) : Lit :=
  match M.latches[j]? with
  | some l => ⟨.const1, l.init ≠ .one⟩
  | none => Obj.const1.lit

def unrollTo (abc : AbcAig) (M : Ntk) : ℕ → Unrolled
  | 0 => ⟨[], initLit M, []⟩
  | t + 1 =>
      let u := unrollTo abc M t
      let r := copyAnds abc M.graph (frameLeaf M t u.bo) u.graph
      { graph := r.1
        bo := fun j => match M.latches[j]? with
          | some l => childCopy r.2 l.input
          | none => Obj.const1.lit
        pos := u.pos ++ M.pos.map (childCopy r.2) }

def unroll (abc : AbcAig) (M : Ntk) (T : ℕ) : Ntk :=
  let u := unrollTo abc M T
  { nPi := M.nPi * T, graph := u.graph, latches := [], pos := u.pos }

/-- What holds of the expansion after `t` frames, for the initial state `s`. -/
structure UnrollInv (M : Ntk) (s : ℕ → Bool) (t : ℕ) (u : Unrolled) : Prop where
  ok : u.graph.Ok (Ntk.IsLeaf (M.nPi * t) 0)
  boOk : ∀ j < M.latches.length, (u.bo j).obj.Ok (Ntk.IsLeaf (M.nPi * t) 0) u.graph.length
  boEval : ∀ j < M.latches.length, ∀ e : Env,
    u.graph.eval e (u.bo j) = M.stateAt s (fun c i => e.pi (c * M.nPi + i)) t j
  posLen : u.pos.length = M.pos.length * t
  posOk : ∀ l ∈ u.pos, l.obj.Ok (Ntk.IsLeaf (M.nPi * t) 0) u.graph.length
  posEval : ∀ r < t, ∀ (o : ℕ) (ho : o < M.pos.length), ∀ l, u.pos[r * M.pos.length + o]? = some l →
    ∀ e : Env, u.graph.eval e l =
      M.graph.eval (M.envAt s (fun c i => e.pi (c * M.nPi + i)) r) M.pos[o]

theorem unrollTo_inv (abc : AbcAig) {M : Ntk} (hM : M.Ok)
    (hdc : ∀ l ∈ M.latches, l.init ≠ .dc) {s : ℕ → Bool} (hs : M.IsInit s) (t : ℕ) :
    UnrollInv M s t (unrollTo abc M t) := by
  induction t with
  | zero =>
      refine ⟨trivial, fun j hj => ?_, fun j hj e => ?_, rfl, by simp [unrollTo],
        fun r hr => by omega⟩
      · simp [unrollTo, initLit, hj, Obj.Ok, Ntk.IsLeaf]
      · have hl : M.latches[j]? = some M.latches[j] := by simp [hj]
        have hi := hs j _ hl
        have hne := hdc _ (List.getElem_mem hj)
        cases hinit : M.latches[j].init with
        | zero => simp [unrollTo, initLit, hj, hinit, Ntk.stateAt, hi.1 hinit]
        | one => simp [unrollTo, initLit, hj, hinit, Ntk.stateAt, hi.2 hinit]
        | dc => exact absurd hinit hne
  | succ t ih =>
      have hle : M.nPi * t ≤ M.nPi * (t + 1) := Nat.mul_le_mul_left _ (Nat.le_succ t)
      -- the valuation of `M` in frame `t` that a valuation of the expansion describes
      obtain ⟨hsuf, hc⟩ := copyAnds_spec abc (d := (unrollTo abc M t).graph)
        (Q := Ntk.IsLeaf (M.nPi * (t + 1)) 0)
        (frameLeaf M t (unrollTo abc M t).bo)
        (fun e => M.envAt s (fun c i => e.pi (c * M.nPi + i)) t)
        hM.graph (ih.ok.weaken (Ntk.isLeaf_mono hle le_rfl)) trivial
        (by
          intro o ho
          cases o with
          | const1 => trivial
          | pi i =>
              have hi : i < M.nPi := ho
              show t * M.nPi + i < M.nPi * (t + 1)
              nlinarith
          | bo j => exact (ih.boOk j ho).weaken (Ntk.isLeaf_mono hle le_rfl)
          | node k => exact absurd ho (Nat.not_lt_zero k))
        (by
          intro o ho e
          cases o with
          | const1 => simp [frameLeaf, Env.leaf, Obj.lit]
          | pi i => simp [frameLeaf, Env.leaf, Obj.lit, Ntk.envAt]
          | bo j => exact ih.boEval j ho e
          | node k => exact absurd ho (Nat.not_lt_zero k))
      have hgr : (unrollTo abc M (t + 1)).graph =
          (copyAnds abc M.graph (frameLeaf M t (unrollTo abc M t).bo)
            (unrollTo abc M t).graph).1 := rfl
      have hlat : ∀ j (hj : j < M.latches.length),
          (unrollTo abc M (t + 1)).bo j =
            childCopy (copyAnds abc M.graph (frameLeaf M t (unrollTo abc M t).bo)
              (unrollTo abc M t).graph).2 M.latches[j].input := by
        intro j hj
        simp [unrollTo, hj]
      refine ⟨hc.ok, fun j hj => ?_, fun j hj e => ?_, ?_, fun l hl => ?_, ?_⟩
      · rw [hlat j hj]
        exact hc.lit _ (hM.latches _ (List.getElem_mem hj))
      · rw [hlat j hj]
        rw [hgr, hc.child (hM.latches _ (List.getElem_mem hj)) e, Ntk.stateAt_succ]
        simp [Ntk.next, hj]
      · simp only [unrollTo, List.length_append, List.length_map, ih.posLen]
        ring
      · rcases List.mem_append.mp hl with hl | hl
        · exact ((ih.posOk l hl).weaken (Ntk.isLeaf_mono hle le_rfl)).mono hsuf.length_le
        · obtain ⟨m, hm, rfl⟩ := List.mem_map.mp hl
          exact hc.lit _ (hM.pos m hm)
      · intro r hr o ho l hl e
        rcases Nat.lt_succ_iff_lt_or_eq.mp hr with hr | rfl
        · have hlt : r * M.pos.length + o < (unrollTo abc M t).pos.length := by
            rw [ih.posLen]
            nlinarith
          have hl' : (unrollTo abc M t).pos[r * M.pos.length + o]? = some l := by
            rw [← hl]
            simp only [unrollTo]
            rw [List.getElem?_append_left hlt]
          have hmem := List.mem_of_getElem? hl'
          rw [hgr, Graph.eval_of_suffix hsuf e (ih.posOk l hmem).below]
          exact ih.posEval r hr o ho l hl' e
        · have hlen := ih.posLen
          have hl' : l = childCopy (copyAnds abc M.graph (frameLeaf M r (unrollTo abc M r).bo)
              (unrollTo abc M r).graph).2 M.pos[o] := by
            simp only [unrollTo] at hl
            rw [List.getElem?_append_right (by rw [hlen, Nat.mul_comm]; omega), hlen,
              Nat.mul_comm M.pos.length r, Nat.add_sub_cancel_left] at hl
            simpa [ho] using hl.symm
          rw [hl']
          exact hc.child (hM.pos _ (List.getElem_mem ho)) e

/-- Initial valuations exist: don't-care latches may start at either value. -/
theorem Ntk.exists_isInit (M : Ntk) : ∃ s, M.IsInit s := by
  refine ⟨fun i => match M.latches[i]? with
    | some l => decide (l.init = .one)
    | none => false, fun i l hl => ?_⟩
  constructor <;> intro h <;> simp [hl, h]

theorem unroll_isFrames (abc : AbcAig) {M : Ntk} (T : ℕ) (hM : M.Ok)
    (hdc : ∀ l ∈ M.latches, l.init ≠ .dc) : M.IsFrames T (unroll abc M T) := by
  obtain ⟨s₀, hs₀⟩ := M.exists_isInit
  have h₀ := unrollTo_inv abc hM hdc hs₀ T
  refine ⟨⟨h₀.ok, by simp [unroll], h₀.posOk⟩, rfl, rfl, h₀.posLen, ?_⟩
  intro s hs x t o ht ho
  have h := unrollTo_inv abc hM hdc hs T
  have hlt : t * M.pos.length + o < (unrollTo abc M T).pos.length := by
    rw [h.posLen]
    nlinarith
  have hget := List.getElem?_eq_getElem hlt
  simp only [Ntk.fn, unroll, hget, Ntk.outAt, List.getElem?_eq_getElem ho]
  exact h.posEval t ht o ho _ hget _

/-- The cone with nothing thrown away. -/
def coneOf (N : Ntk) (o : Obj) : Ntk := { N with latches := [], pos := [o.lit] }

theorem coneOf_isCone {N : Ntk} {o : Obj} (hN : N.Ok) (hl : N.latches = [])
    (ho : o.Ok (Ntk.IsLeaf N.nPi 0) N.graph.length) : N.IsCone o (coneOf N o) := by
  have hg := hN.graph
  rw [hl] at hg
  refine ⟨⟨hg, by simp [coneOf], ?_⟩, rfl, rfl, rfl, fun x => rfl⟩
  intro l hl'
  simp only [coneOf, List.mem_singleton] at hl'
  subst hl'
  exact ho

/-- Compare two networks on every input vector. -/
def exhaustiveCec (N₁ N₂ : Ntk) : Bool :=
  decide (N₁.pos.length = N₂.pos.length) &&
    (List.range (2 ^ N₁.nPi)).all fun v => (List.range N₁.pos.length).all fun o =>
      N₁.fn v.testBit o == N₂.fn v.testBit o

/-- Every valuation of `n` inputs is the bit pattern of a number below `2 ^ n`. -/
theorem exists_testBit (n : ℕ) (x : ℕ → Bool) : ∃ v < 2 ^ n, ∀ i < n, v.testBit i = x i :=
  ⟨Nat.ofBits fun i : Fin n => x i, Nat.ofBits_lt_two_pow _,
    fun i hi => Nat.testBit_ofBits_lt _ i hi⟩

theorem exhaustiveCec_spec {N₁ N₂ : Ntk} (h₁ : N₁.Ok) (h₂ : N₂.Ok) (hl₁ : N₁.latches = [])
    (hl₂ : N₂.latches = []) (hpi : N₁.nPi = N₂.nPi) :
    exhaustiveCec N₁ N₂ = true ↔ N₁.SameFn N₂ := by
  simp only [exhaustiveCec, Bool.and_eq_true, decide_eq_true_eq, List.all_eq_true,
    List.mem_range, beq_iff_eq, Ntk.SameFn]
  refine and_congr_right fun _ => ⟨fun h x o ho => ?_, fun h v _ o ho => h _ o ho⟩
  obtain ⟨v, hv, hx⟩ := exists_testBit N₁.nPi x
  rw [h₁.fn_congr hl₁ (fun i hi => (hx i hi).symm) o,
    h₂.fn_congr hl₂ (fun i hi => (hx i (hpi ▸ hi)).symm) o]
  exact h v hv o ho

/-- The concrete routines over one-level structural hashing. -/
def strashNtk : AbcNtk where
  toAbcAig := strash
  frames := unroll strash
  createCone := coneOf
  cec := exhaustiveCec
  frames_spec := fun T hM hdc => unroll_isFrames strash T hM hdc
  createCone_spec := coneOf_isCone
  cec_spec := exhaustiveCec_spec

end ExtFolding.Aig
