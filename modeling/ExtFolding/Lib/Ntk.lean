import ExtFolding.Lib.Aig

/-!
# Sequential and-inverter networks

A network is an AIG with latches and outputs. `stateAt` runs it from a given
latch valuation, one cycle after another; a network without latches computes
the functions `fn`. `copyAnds` is the loop with which every construction of
the repository copies the nodes of one network into another.
-/

namespace ExtFolding.Aig

/-- Initial values of a latch (`ABC_INIT_ZERO`, `ABC_INIT_ONE`, `ABC_INIT_DC`). -/
inductive LatchInit where
  | zero | one | dc
deriving DecidableEq, Repr

/-- A latch box: its initial value and the literal driving its input. -/
structure Latch where
  init : LatchInit
  input : Lit
deriving DecidableEq, Repr

structure Ntk where
  nPi : ℕ
  graph : Graph
  latches : List Latch
  pos : List Lit
deriving Repr

namespace Ntk

/-- The leaves of a network with `ni` inputs and `nl` latches. -/
def IsLeaf (ni nl : ℕ) : Obj → Prop
  | .const1 => True
  | .pi i => i < ni
  | .bo i => i < nl
  | .node _ => False

theorem isLeaf_mono {ni nl ni' nl' : ℕ} (hi : ni ≤ ni') (hl : nl ≤ nl') (o : Obj)
    (h : IsLeaf ni nl o) : IsLeaf ni' nl' o := by
  cases o with
  | const1 => trivial
  | pi i => exact Nat.lt_of_lt_of_le h hi
  | bo i => exact Nat.lt_of_lt_of_le h hl
  | node k => exact h

/-- All fanins exist. -/
structure Ok (N : Ntk) : Prop where
  graph : N.graph.Ok (IsLeaf N.nPi N.latches.length)
  latches : ∀ l ∈ N.latches, l.input.obj.Ok (IsLeaf N.nPi N.latches.length) N.graph.length
  pos : ∀ l ∈ N.pos, l.obj.Ok (IsLeaf N.nPi N.latches.length) N.graph.length

/-- Latch values after one cycle. -/
def next (N : Ntk) (e : Env) (i : ℕ) : Bool :=
  match N.latches[i]? with
  | some l => N.graph.eval e l.input
  | none => false

/-- Latch values at the start of cycle `c`, with `inp c i` on pin `i` in cycle `c`. -/
def stateAt (N : Ntk) (s : ℕ → Bool) (inp : ℕ → ℕ → Bool) : ℕ → ℕ → Bool
  | 0 => s
  | c + 1 => N.next ⟨inp c, stateAt N s inp c⟩

def envAt (N : Ntk) (s : ℕ → Bool) (inp : ℕ → ℕ → Bool) (c : ℕ) : Env :=
  ⟨inp c, N.stateAt s inp c⟩

/-- The value on output pin `o` in cycle `c`. -/
def outAt (N : Ntk) (s : ℕ → Bool) (inp : ℕ → ℕ → Bool) (c o : ℕ) : Bool :=
  match N.pos[o]? with
  | some l => N.graph.eval (N.envAt s inp c) l
  | none => false

/-- `s` is an initial latch valuation; don't-care latches are unconstrained. -/
def IsInit (N : Ntk) (s : ℕ → Bool) : Prop :=
  ∀ i l, N.latches[i]? = some l →
    (l.init = .zero → s i = false) ∧ (l.init = .one → s i = true)

/-- The function of output `o` of a combinational network. -/
def fn (N : Ntk) (x : ℕ → Bool) (o : ℕ) : Bool :=
  match N.pos[o]? with
  | some l => N.graph.eval ⟨x, fun _ => false⟩ l
  | none => false

theorem stateAt_succ (N : Ntk) (s : ℕ → Bool) (inp : ℕ → ℕ → Bool) (c : ℕ) :
    N.stateAt s inp (c + 1) = N.next (N.envAt s inp c) := rfl

/-- Running on from cycle `a` is running from the state reached there. -/
theorem stateAt_add (N : Ntk) (s : ℕ → Bool) (inp : ℕ → ℕ → Bool) (a b : ℕ) :
    N.stateAt s inp (a + b) =
      N.stateAt (N.stateAt s inp a) (fun c => inp (a + c)) b := by
  induction b with
  | zero => rfl
  | succ b ih =>
      rw [← Nat.add_assoc, stateAt_succ, stateAt_succ, envAt, envAt, ih]

theorem envAt_add (N : Ntk) (s : ℕ → Bool) (inp : ℕ → ℕ → Bool) (a b : ℕ) :
    N.envAt s inp (a + b) =
      N.envAt (N.stateAt s inp a) (fun c => inp (a + c)) b := by
  simp [envAt, stateAt_add]

theorem outAt_add (N : Ntk) (s : ℕ → Bool) (inp : ℕ → ℕ → Bool) (a b o : ℕ) :
    N.outAt s inp (a + b) o =
      N.outAt (N.stateAt s inp a) (fun c => inp (a + c)) b o := by
  simp [outAt, envAt_add]

end Ntk

/-! ## Evaluation depends only on existing objects -/

theorem Graph.Ok.eval_congr {ni nl : ℕ} {g : Graph} (hg : g.Ok (Ntk.IsLeaf ni nl)) {e e' : Env}
    (hpi : ∀ i < ni, e.pi i = e'.pi i) (hbo : ∀ i < nl, e.bo i = e'.bo i) {l : Lit}
    (hl : l.obj.Ok (Ntk.IsLeaf ni nl) g.length) : g.eval e l = g.eval e' l := by
  rw [Graph.eval, Graph.eval, hg.interp_congr e.leaf e'.leaf andOp _ hl]
  intro o ho
  cases o with
  | const1 => rfl
  | pi i => exact hpi i ho
  | bo i => exact hbo i ho
  | node k => rfl

/-- The output functions of a combinational network read only its inputs. -/
theorem Ntk.Ok.fn_congr {N : Ntk} (hN : N.Ok) (hl : N.latches = []) {x y : ℕ → Bool}
    (h : ∀ i < N.nPi, x i = y i) (o : ℕ) : N.fn x o = N.fn y o := by
  unfold Ntk.fn
  cases ho : N.pos[o]? with
  | none => rfl
  | some l =>
      exact hN.graph.eval_congr h (by simp [hl]) (hN.pos l (List.mem_of_getElem? ho))

theorem Ntk.Ok.next_congr {N : Ntk} (hN : N.Ok) {e e' : Env}
    (hpi : ∀ i < N.nPi, e.pi i = e'.pi i) (hbo : ∀ i < N.latches.length, e.bo i = e'.bo i)
    (i : ℕ) : N.next e i = N.next e' i := by
  unfold Ntk.next
  cases hi : N.latches[i]? with
  | none => rfl
  | some l => exact hN.graph.eval_congr hpi hbo (hN.latches l (List.mem_of_getElem? hi))

theorem Ntk.Ok.stateAt_congr {N : Ntk} (hN : N.Ok) {s s' : ℕ → Bool} {inp inp' : ℕ → ℕ → Bool}
    {c : ℕ} (hs : ∀ i < N.latches.length, s i = s' i)
    (h : ∀ d < c, ∀ i < N.nPi, inp d i = inp' d i) {i : ℕ} (hi : i < N.latches.length) :
    N.stateAt s inp c i = N.stateAt s' inp' c i := by
  induction c generalizing i with
  | zero => exact hs i hi
  | succ c ih =>
      rw [Ntk.stateAt_succ, Ntk.stateAt_succ]
      exact hN.next_congr (h c (Nat.lt_succ_self c))
        (fun j hj => ih (fun d hd => h d (Nat.lt_succ_of_lt hd)) hj) i

/-- An output depends on the pins of its own and of earlier cycles only. -/
theorem Ntk.Ok.outAt_congr {N : Ntk} (hN : N.Ok) {s s' : ℕ → Bool} {inp inp' : ℕ → ℕ → Bool}
    {c : ℕ} (hs : ∀ i < N.latches.length, s i = s' i)
    (h : ∀ d ≤ c, ∀ i < N.nPi, inp d i = inp' d i) (o : ℕ) :
    N.outAt s inp c o = N.outAt s' inp' c o := by
  unfold Ntk.outAt
  cases ho : N.pos[o]? with
  | none => rfl
  | some l =>
      exact hN.graph.eval_congr (h c (Nat.le_refl c))
        (fun i hi => hN.stateAt_congr hs (fun d hd => h d (Nat.le_of_lt hd)) hi)
        (hN.pos l (List.mem_of_getElem? ho))

/-! ## Copying nodes -/

/-- `Abc_ObjChild0Copy` and `Abc_ObjChild1Copy`: the copy of a fanin, with the edge's complement. -/
def childCopy (copy : Obj → Lit) (l : Lit) : Lit := (copy l.obj).notCond l.compl

@[simp] theorem childCopy_obj (copy : Obj → Lit) (l : Lit) :
    (childCopy copy l).obj = (copy l.obj).obj := rfl

/-- `Abc_AigForEachAnd(..) pObj->pCopy = Abc_AigAnd(.., Child0Copy, Child1Copy)`, from the
oldest node to the newest: the grown target graph and the new copies. -/
def copyAnds (abc : AbcAig) : Graph → (Obj → Lit) → Graph → Graph × (Obj → Lit)
  | [], copy, d => (d, copy)
  | (a, b) :: g, copy, d =>
      let r := copyAnds abc g copy d
      let s := abc.and r.1 (childCopy r.2 a) (childCopy r.2 b)
      (s.1, Function.update r.2 (.node g.length) s.2)

/-- Copies compute what their originals compute, once `tr` has turned a valuation of
the target network into one of the source network. -/
structure CopiesTo (P Q : Obj → Prop) (g : Graph) (copy : Obj → Lit) (d : Graph)
    (tr : Env → Env) : Prop where
  ok : d.Ok Q
  lit : ∀ o : Obj, o.Ok P g.length → (copy o).obj.Ok Q d.length
  eval : ∀ o : Obj, o.Ok P g.length → ∀ e, d.eval e (copy o) = g.eval (tr e) o.lit

section Copy

variable {P Q : Obj → Prop} {g d : Graph} {copy : Obj → Lit} {tr : Env → Env}

theorem CopiesTo.child (h : CopiesTo P Q g copy d tr) {l : Lit} (hl : l.obj.Ok P g.length)
    (e : Env) : d.eval e (childCopy copy l) = g.eval (tr e) l := by
  rw [childCopy, Graph.eval_notCond, h.eval _ hl]
  simp [Graph.eval]

/-- If the copies of the leaves are right, so are the copies of all nodes. -/
theorem copyAnds_spec (abc : AbcAig) (copy : Obj → Lit) (tr : Env → Env) (hg : g.Ok P) (hd : d.Ok Q)
    (hQ : Q .const1)
    (hlit : ∀ o : Obj, o.Ok P 0 → (copy o).obj.Ok Q d.length)
    (hleaf : ∀ o : Obj, o.Ok P 0 → ∀ e, d.eval e (copy o) = (tr e).leaf o) :
    d <:+ (copyAnds abc g copy d).1 ∧
      CopiesTo P Q g (copyAnds abc g copy d).2 (copyAnds abc g copy d).1 tr := by
  induction g with
  | nil =>
      refine ⟨List.suffix_refl d, hd, hlit, fun o ho e => ?_⟩
      rw [copyAnds, hleaf o ho]
      simp [Graph.eval, Graph.interp]
  | cons n g ih =>
      obtain ⟨a, b⟩ := n
      obtain ⟨ha, hb, hg⟩ := hg
      obtain ⟨hsuf, hc⟩ := ih hg
      have hand := abc.and_computes (a := childCopy (copyAnds abc g copy d).2 a)
        (b := childCopy (copyAnds abc g copy d).2 b) hQ hc.ok (hc.lit _ ha) (hc.lit _ hb)
      refine ⟨hsuf.trans hand.suffix, hand.ok, fun o ho => ?_, fun o ho e => ?_⟩
      · by_cases h : o = .node g.length
        · subst h
          simpa [copyAnds] using hand.lit
        · simpa [copyAnds, h] using (hc.lit o (ho.of_succ h)).mono hand.length_le
      · by_cases h : o = .node g.length
        · subst h
          have hev := hand.eval e
          rw [hc.child ha, hc.child hb] at hev
          simp only [copyAnds, Function.update_self]
          rw [hev]
          simp [Graph.eval, Graph.interp_cons_self, andOp]
        · simp only [copyAnds, Function.update_of_ne h]
          rw [Graph.eval_of_suffix hand.suffix e (hc.lit o (ho.of_succ h)).below,
            hc.eval o (ho.of_succ h) e]
          simp [Graph.eval, Graph.interp_cons_of_ne _ _ _ _ h]

end Copy

end ExtFolding.Aig
