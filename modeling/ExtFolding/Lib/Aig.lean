import Mathlib.Tactic
import Mathlib.Data.List.Infix

/-!
# And-inverter graphs

A library layer, independent of the folding code. An AND node is named by its
position of creation, primary inputs and latch outputs by their index, and a
literal is an object with a complement bit. The node list is kept newest
first, so that building is consing and every earlier graph is a suffix of every
later one: `interp_of_suffix` is the only fact later construction steps need
about the nodes that are already there.

The manager itself (`Abc_AigAnd` and its relatives) is a parameter,
`AbcAig`: a record of the operations together with the contract that the
construction code relies on.
-/

namespace ExtFolding.Aig

/-- Objects a fanin edge may point to. -/
inductive Obj where
  | const1
  | pi (i : ℕ)
  | bo (i : ℕ)
  | node (k : ℕ)
deriving DecidableEq, Repr

/-- A possibly complemented pointer to an object. -/
structure Lit where
  obj : Obj
  compl : Bool
deriving DecidableEq, Repr

/-- The uncomplemented literal of an object. -/
def Obj.lit (o : Obj) : Lit := ⟨o, false⟩

/-- `Abc_ObjNot`. -/
def Lit.not (l : Lit) : Lit := ⟨l.obj, !l.compl⟩

/-- `Abc_ObjNotCond`. -/
def Lit.notCond (l : Lit) (c : Bool) : Lit := ⟨l.obj, l.compl ^^ c⟩

@[simp] theorem Obj.lit_obj (o : Obj) : o.lit.obj = o := rfl
@[simp] theorem Obj.lit_compl (o : Obj) : o.lit.compl = false := rfl
@[simp] theorem Lit.not_obj (l : Lit) : l.not.obj = l.obj := rfl
@[simp] theorem Lit.notCond_obj (l : Lit) (c : Bool) : (l.notCond c).obj = l.obj := rfl

/-- AND nodes, newest first: the `k`-th created node has `k` entries below it. -/
abbrev Graph := List (Lit × Lit)

/-- The node index, if any, is smaller than `n`. -/
def Obj.Below (n : ℕ) : Obj → Prop
  | .node k => k < n
  | _ => True

/-- Induction along the order of creation. -/
theorem Obj.below_induction {motive : Obj → Prop}
    (h : ∀ o : Obj, (∀ k, o = .node k → ∀ o' : Obj, o'.Below k → motive o') → motive o)
    (o : Obj) : motive o := by
  have leaf : ∀ o : Obj, (∀ k, o ≠ .node k) → motive o :=
    fun o ho => h o fun k hk => absurd hk (ho k)
  have node : ∀ k, motive (.node k) := by
    intro k
    induction k using Nat.strong_induction_on with
    | _ k ih =>
        refine h _ fun k' hk' o' ho' => ?_
        cases hk'
        cases o' with
        | node k' => exact ih k' ho'
        | const1 => exact leaf _ (by simp)
        | pi i => exact leaf _ (by simp)
        | bo i => exact leaf _ (by simp)
  cases o with
  | node k => exact node k
  | const1 => exact leaf _ (by simp)
  | pi i => exact leaf _ (by simp)
  | bo i => exact leaf _ (by simp)

/-- The fanins of node `k`. -/
def Graph.fanins? : Graph → ℕ → Option (Lit × Lit)
  | [], _ => none
  | n :: g, k => if k = g.length then some n else fanins? g k

/-! ## Interpretation in an arbitrary algebra -/

section Interp

variable {α : Type} (leaf : Obj → α) (op : α → Bool → α → Bool → α)

/-- Fold the graph below an object: `leaf` gives the value of constant, inputs
and latch outputs, `op` combines the fanin values with their complement bits. -/
def Graph.interp : Graph → Obj → α
  | [], o => leaf o
  | (a, b) :: g, o =>
      if o = .node g.length then
        op (Graph.interp g a.obj) a.compl (Graph.interp g b.obj) b.compl
      else Graph.interp g o

theorem Graph.interp_cons_of_ne (n : Lit × Lit) (g : Graph) {o : Obj}
    (h : o ≠ .node g.length) :
    Graph.interp leaf op (n :: g) o = Graph.interp leaf op g o := by
  simp [Graph.interp, h]

theorem Graph.interp_cons_self (a b : Lit) (g : Graph) :
    Graph.interp leaf op ((a, b) :: g) (.node g.length) =
      op (Graph.interp leaf op g a.obj) a.compl (Graph.interp leaf op g b.obj) b.compl := by
  simp [Graph.interp]

/-- Objects that are not AND nodes are read from the leaf valuation. -/
theorem Graph.interp_leaf (g : Graph) {o : Obj} (h : ∀ k, o ≠ .node k) :
    Graph.interp leaf op g o = leaf o := by
  induction g with
  | nil => rfl
  | cons n g ih => rw [Graph.interp_cons_of_ne leaf op n g (h _), ih]

@[simp] theorem Graph.interp_const1 (g : Graph) :
    Graph.interp leaf op g .const1 = leaf .const1 :=
  Graph.interp_leaf leaf op g (by simp)

@[simp] theorem Graph.interp_pi (g : Graph) (i : ℕ) :
    Graph.interp leaf op g (.pi i) = leaf (.pi i) :=
  Graph.interp_leaf leaf op g (by simp)

@[simp] theorem Graph.interp_bo (g : Graph) (i : ℕ) :
    Graph.interp leaf op g (.bo i) = leaf (.bo i) :=
  Graph.interp_leaf leaf op g (by simp)

/-- Growing the graph does not change the value of what it already holds. -/
theorem Graph.interp_of_suffix {g g' : Graph} (hs : g <:+ g') {o : Obj}
    (ho : o.Below g.length) :
    Graph.interp leaf op g' o = Graph.interp leaf op g o := by
  obtain ⟨new, rfl⟩ := hs
  induction new with
  | nil => rfl
  | cons n new ih =>
      rw [List.cons_append, Graph.interp_cons_of_ne, ih]
      rintro rfl
      simp [Obj.Below] at ho

end Interp

theorem Graph.fanins?_lt {g : Graph} {k : ℕ} {n : Lit × Lit} (h : g.fanins? k = some n) :
    k < g.length := by
  induction g with
  | nil => simp [Graph.fanins?] at h
  | cons m g ih =>
      rw [Graph.fanins?] at h
      split at h
      · next hk => simp [hk]
      · exact Nat.lt_succ_of_lt (ih h)

theorem Graph.fanins?_isSome {g : Graph} {k : ℕ} (h : k < g.length) :
    ∃ n, g.fanins? k = some n := by
  induction g with
  | nil => simp at h
  | cons m g ih =>
      by_cases hk : k = g.length
      · exact ⟨m, by simp [Graph.fanins?, hk]⟩
      · obtain ⟨n, hn⟩ := ih (by simp at h; omega)
        exact ⟨n, by simp [Graph.fanins?, hk, hn]⟩

theorem Graph.fanins?_of_suffix {g g' : Graph} (hs : g <:+ g') {k : ℕ} (hk : k < g.length) :
    g'.fanins? k = g.fanins? k := by
  obtain ⟨new, rfl⟩ := hs
  induction new with
  | nil => rfl
  | cons n new ih =>
      rw [List.cons_append, Graph.fanins?, if_neg (by simp; omega), ih]

/-! ## Well-formed graphs -/

/-- The object exists: a node with index below `n`, or a leaf that satisfies `P`. -/
def Obj.Ok (P : Obj → Prop) (n : ℕ) : Obj → Prop
  | .node k => k < n
  | o => P o

section Ok

variable {P Q : Obj → Prop}

theorem Obj.Ok.below {n : ℕ} {o : Obj} (h : o.Ok P n) : o.Below n := by
  cases o with
  | node k => exact h
  | const1 => trivial
  | pi i => trivial
  | bo i => trivial

theorem Obj.Ok.mono {n m : ℕ} {o : Obj} (h : o.Ok P n) (hnm : n ≤ m) : o.Ok P m := by
  cases o with
  | node k => exact Nat.lt_of_lt_of_le h hnm
  | const1 => exact h
  | pi i => exact h
  | bo i => exact h

theorem Obj.Ok.weaken {n : ℕ} {o : Obj} (h : o.Ok P n) (hPQ : ∀ o, P o → Q o) : o.Ok Q n := by
  cases o with
  | node k => exact h
  | const1 => exact hPQ _ h
  | pi i => exact hPQ _ h
  | bo i => exact hPQ _ h

theorem Obj.Ok.of_succ {n : ℕ} {o : Obj} (h : o.Ok P (n + 1)) (hne : o ≠ .node n) :
    o.Ok P n := by
  cases o with
  | node k => exact Nat.lt_of_le_of_ne (Nat.le_of_lt_succ h) fun hk => hne (by rw [hk])
  | const1 => exact h
  | pi i => exact h
  | bo i => exact h

/-- Every fanin exists and was created before its node. -/
def Graph.Ok (P : Obj → Prop) : Graph → Prop
  | [] => True
  | (a, b) :: g => a.obj.Ok P g.length ∧ b.obj.Ok P g.length ∧ Graph.Ok P g

theorem Graph.Ok.weaken {g : Graph} (h : g.Ok P) (hPQ : ∀ o, P o → Q o) : g.Ok Q := by
  induction g with
  | nil => trivial
  | cons n g ih => exact ⟨h.1.weaken hPQ, h.2.1.weaken hPQ, ih h.2.2⟩

theorem Graph.Ok.fanins {g : Graph} (h : g.Ok P) {k : ℕ} {a b : Lit}
    (hk : g.fanins? k = some (a, b)) : a.obj.Ok P k ∧ b.obj.Ok P k := by
  induction g with
  | nil => simp [Graph.fanins?] at hk
  | cons n g ih =>
      obtain ⟨a', b'⟩ := n
      obtain ⟨ha, hb, hg⟩ := h
      rw [Graph.fanins?] at hk
      split at hk
      · next heq => cases hk; exact heq ▸ ⟨ha, hb⟩
      · exact ih hg hk

/-- The value of a node is the combination of the values of its fanins. -/
theorem Graph.Ok.interp_node {g : Graph} (h : g.Ok P) {α : Type}
    (leaf : Obj → α) (op : α → Bool → α → Bool → α) {k : ℕ} {a b : Lit}
    (hk : g.fanins? k = some (a, b)) :
    g.interp leaf op (.node k) =
      op (g.interp leaf op a.obj) a.compl (g.interp leaf op b.obj) b.compl := by
  induction g with
  | nil => simp [Graph.fanins?] at hk
  | cons n g ih =>
      obtain ⟨a', b'⟩ := n
      obtain ⟨ha, hb, hg⟩ := h
      have hsuf : g <:+ (a', b') :: g := List.suffix_cons _ _
      rw [Graph.fanins?] at hk
      split at hk
      · next heq =>
          cases hk
          subst heq
          rw [Graph.interp_cons_self, Graph.interp_of_suffix leaf op hsuf ha.below,
            Graph.interp_of_suffix leaf op hsuf hb.below]
      · next hne =>
          have hlt := Graph.fanins?_lt hk
          obtain ⟨ha', hb'⟩ := hg.fanins hk
          rw [Graph.interp_of_suffix leaf op hsuf (o := .node k) hlt,
            Graph.interp_of_suffix leaf op hsuf (ha'.mono (Nat.le_of_lt hlt)).below,
            Graph.interp_of_suffix leaf op hsuf (hb'.mono (Nat.le_of_lt hlt)).below, ih hg hk]

/-- Interpretation reads only the leaves that may occur. -/
theorem Graph.Ok.interp_congr {g : Graph} (hg : g.Ok P) {α : Type}
    (leaf leaf' : Obj → α) (op : α → Bool → α → Bool → α)
    (hleaf : ∀ o : Obj, o.Ok P 0 → leaf o = leaf' o) {o : Obj}
    (ho : o.Ok P g.length) : g.interp leaf op o = g.interp leaf' op o := by
  induction g generalizing o with
  | nil => exact hleaf o ho
  | cons n g ih =>
      obtain ⟨a, b⟩ := n
      obtain ⟨ha, hb, hg⟩ := hg
      by_cases h : o = .node g.length
      · subst h
        rw [Graph.interp_cons_self, Graph.interp_cons_self, ih hg ha, ih hg hb]
      · rw [Graph.interp_cons_of_ne _ _ _ _ h, Graph.interp_cons_of_ne _ _ _ _ h]
        exact ih hg (ho.of_succ h)

end Ok

/-! ## Boolean evaluation -/

/-- Values of the primary inputs and of the latch outputs. -/
structure Env where
  pi : ℕ → Bool
  bo : ℕ → Bool

def Env.leaf (e : Env) : Obj → Bool
  | .const1 => true
  | .pi i => e.pi i
  | .bo i => e.bo i
  | .node _ => false

def andOp (x : Bool) (cx : Bool) (y : Bool) (cy : Bool) : Bool := (x ^^ cx) && (y ^^ cy)

/-- The value of a literal. -/
def Graph.eval (g : Graph) (e : Env) (l : Lit) : Bool :=
  g.interp e.leaf andOp l.obj ^^ l.compl

@[simp] theorem Graph.eval_not (g : Graph) (e : Env) (l : Lit) :
    g.eval e l.not = !g.eval e l := by
  simp [Graph.eval, Lit.not]

@[simp] theorem Graph.eval_notCond (g : Graph) (e : Env) (l : Lit) (c : Bool) :
    g.eval e (l.notCond c) = (g.eval e l ^^ c) := by
  simp [Graph.eval, Lit.notCond]

theorem Graph.eval_eq_lit (g : Graph) (e : Env) (l : Lit) :
    g.eval e l = (g.eval e l.obj.lit ^^ l.compl) := by
  simp [Graph.eval]

@[simp] theorem Graph.eval_const1 (g : Graph) (e : Env) (c : Bool) :
    g.eval e ⟨.const1, c⟩ = !c := by
  simp [Graph.eval, Env.leaf]

@[simp] theorem Graph.eval_pi (g : Graph) (e : Env) (i : ℕ) (c : Bool) :
    g.eval e ⟨.pi i, c⟩ = (e.pi i ^^ c) := by
  simp [Graph.eval, Env.leaf]

@[simp] theorem Graph.eval_bo (g : Graph) (e : Env) (i : ℕ) (c : Bool) :
    g.eval e ⟨.bo i, c⟩ = (e.bo i ^^ c) := by
  simp [Graph.eval, Env.leaf]

theorem Graph.eval_of_suffix {g g' : Graph} (hs : g <:+ g') (e : Env) {l : Lit}
    (hl : l.obj.Below g.length) : g'.eval e l = g.eval e l := by
  rw [Graph.eval, Graph.eval, Graph.interp_of_suffix _ _ hs hl]

theorem Graph.Ok.eval_node {P : Obj → Prop} {g : Graph} (h : g.Ok P) (e : Env) {k : ℕ} {a b : Lit}
    (hk : g.fanins? k = some (a, b)) :
    g.eval e (Obj.node k).lit = (g.eval e a && g.eval e b) := by
  simp [Graph.eval, h.interp_node _ _ hk, andOp]

/-! ## The manager contract -/

/-- The result of a construction step: it grows `g` and its literal computes `v`. -/
structure Graph.Computes (P : Obj → Prop) (g : Graph) (r : Graph × Lit) (v : Env → Bool) :
    Prop where
  suffix : g <:+ r.1
  ok : r.1.Ok P
  lit : r.2.obj.Ok P r.1.length
  eval : ∀ e, r.1.eval e r.2 = v e

theorem Graph.Computes.length_le {P : Obj → Prop} {g : Graph} {r : Graph × Lit}
    {v : Env → Bool} (h : g.Computes P r v) : g.length ≤ r.1.length := h.suffix.length_le

/-- What the code relies on of ABC's AIG manager. `and_node` is structural
hashing: for two different non-constant objects `Abc_AigAnd` returns, without
complement, the node with exactly these fanin edges. -/
structure AbcAig where
  and : Graph → Lit → Lit → Graph × Lit
  or : Graph → Lit → Lit → Graph × Lit
  mux : Graph → Lit → Lit → Lit → Graph × Lit
  and_computes : ∀ {P : Obj → Prop} {g : Graph} {a b : Lit}, P .const1 → g.Ok P →
    a.obj.Ok P g.length → b.obj.Ok P g.length →
    g.Computes P (and g a b) fun e => g.eval e a && g.eval e b
  or_computes : ∀ {P : Obj → Prop} {g : Graph} {a b : Lit}, P .const1 → g.Ok P →
    a.obj.Ok P g.length → b.obj.Ok P g.length →
    g.Computes P (or g a b) fun e => g.eval e a || g.eval e b
  mux_computes : ∀ {P : Obj → Prop} {g : Graph} {c t f : Lit}, P .const1 → g.Ok P →
    c.obj.Ok P g.length → t.obj.Ok P g.length → f.obj.Ok P g.length →
    g.Computes P (mux g c t f) fun e => if g.eval e c then g.eval e t else g.eval e f
  and_node : ∀ {g : Graph} {a b : Lit}, a.obj ≠ b.obj → a.obj ≠ .const1 → b.obj ≠ .const1 →
    ∃ k, (and g a b).2 = (Obj.node k).lit ∧
      ((and g a b).1.fanins? k = some (a, b) ∨ (and g a b).1.fanins? k = some (b, a))

/-! ## A concrete manager: one-level structural hashing -/

/-- Look a fanin pair up in the hash table, in either order. -/
def Graph.lookup : Graph → Lit → Lit → Option ℕ
  | [], _, _ => none
  | n :: g, a, b => if n = (a, b) ∨ n = (b, a) then some g.length else Graph.lookup g a b

theorem Graph.lookup_some {g : Graph} {a b : Lit} {k : ℕ} (h : g.lookup a b = some k) :
    g.fanins? k = some (a, b) ∨ g.fanins? k = some (b, a) := by
  induction g with
  | nil => simp [Graph.lookup] at h
  | cons n g ih =>
      rw [Graph.lookup] at h
      split at h
      · next hn =>
          cases h
          rcases hn with rfl | rfl <;> simp [Graph.fanins?]
      · have hk := ih h
        have hlt : k < g.length := by
          rcases hk with hk | hk <;> exact Graph.fanins?_lt hk
        simpa [Graph.fanins?, Nat.ne_of_lt hlt] using hk

/-- The hashed node if there is one, otherwise a new node. -/
def Graph.hashAnd (g : Graph) (a b : Lit) : Graph × Lit :=
  match g.lookup a b with
  | some k => (g, (Obj.node k).lit)
  | none => ((a, b) :: g, (Obj.node g.length).lit)

/-- Conjunction with the trivial cases folded. -/
def Graph.strashAnd (g : Graph) (a b : Lit) : Graph × Lit :=
  if a = b then (g, a)
  else if a = b.not then (g, ⟨.const1, true⟩)
  else if a.obj = .const1 then (g, if a.compl then a else b)
  else if b.obj = .const1 then (g, if b.compl then b else a)
  else g.hashAnd a b

theorem Graph.hashAnd_node (g : Graph) (a b : Lit) :
    ∃ k, (g.hashAnd a b).2 = (Obj.node k).lit ∧
      ((g.hashAnd a b).1.fanins? k = some (a, b) ∨
        (g.hashAnd a b).1.fanins? k = some (b, a)) := by
  unfold Graph.hashAnd
  cases h : g.lookup a b with
  | some k => exact ⟨k, rfl, Graph.lookup_some h⟩
  | none => exact ⟨g.length, rfl, Or.inl (by simp [Graph.fanins?])⟩

section

variable {P : Obj → Prop} {g : Graph}

theorem Graph.hashAnd_computes {a b : Lit} (hg : g.Ok P)
    (ha : a.obj.Ok P g.length) (hb : b.obj.Ok P g.length) :
    g.Computes P (g.hashAnd a b) fun e => g.eval e a && g.eval e b := by
  unfold Graph.hashAnd
  cases h : g.lookup a b with
  | some k =>
      have hk := Graph.lookup_some h
      refine ⟨List.suffix_refl g, hg, ?_, fun e => ?_⟩
      · rcases hk with hk | hk <;> exact Graph.fanins?_lt hk
      · rcases hk with hk | hk
        · exact hg.eval_node e hk
        · rw [hg.eval_node e hk, Bool.and_comm]
  | none =>
      have hs : g <:+ (a, b) :: g := List.suffix_cons _ _
      have hg' : Graph.Ok P ((a, b) :: g) := ⟨ha, hb, hg⟩
      refine ⟨hs, hg', by simp [Obj.Ok], fun e => ?_⟩
      rw [hg'.eval_node e (a := a) (b := b) (by simp [Graph.fanins?]),
        Graph.eval_of_suffix hs e ha.below, Graph.eval_of_suffix hs e hb.below]

theorem Graph.strashAnd_computes {a b : Lit} (hc : P .const1) (hg : g.Ok P)
    (ha : a.obj.Ok P g.length) (hb : b.obj.Ok P g.length) :
    g.Computes P (g.strashAnd a b) fun e => g.eval e a && g.eval e b := by
  unfold Graph.strashAnd
  split
  · next h => subst h; exact ⟨List.suffix_refl g, hg, ha, fun e => by simp⟩
  split
  · next h => subst h; exact ⟨List.suffix_refl g, hg, hc, fun e => by simp⟩
  split
  · next h =>
      obtain ⟨o, c⟩ := a
      cases h
      cases c <;> exact ⟨List.suffix_refl g, hg, by assumption, fun e => by simp⟩
  split
  · next h =>
      obtain ⟨o, c⟩ := b
      cases h
      cases c <;> exact ⟨List.suffix_refl g, hg, by assumption, fun e => by simp⟩
  · exact Graph.hashAnd_computes hg ha hb

/-- `or` and `mux` built from `and`, as AIG packages do. -/
def Graph.strashOr (g : Graph) (a b : Lit) : Graph × Lit :=
  let r := g.strashAnd a.not b.not
  (r.1, r.2.not)

def Graph.strashMux (g : Graph) (c t f : Lit) : Graph × Lit :=
  let r₁ := g.strashAnd c t
  let r₂ := r₁.1.strashAnd c.not f
  r₂.1.strashOr r₁.2 r₂.2

theorem Graph.strashOr_computes {a b : Lit} (hc : P .const1) (hg : g.Ok P)
    (ha : a.obj.Ok P g.length) (hb : b.obj.Ok P g.length) :
    g.Computes P (g.strashOr a b) fun e => g.eval e a || g.eval e b := by
  have h := Graph.strashAnd_computes (a := a.not) (b := b.not) hc hg ha hb
  exact ⟨h.suffix, h.ok, h.lit, fun e => by simp [Graph.strashOr, h.eval]⟩

theorem Graph.strashMux_computes {c t f : Lit} (h1 : P .const1) (hg : g.Ok P)
    (hc : c.obj.Ok P g.length) (ht : t.obj.Ok P g.length) (hf : f.obj.Ok P g.length) :
    g.Computes P (g.strashMux c t f) fun e =>
      if g.eval e c then g.eval e t else g.eval e f := by
  have h₁ := Graph.strashAnd_computes h1 hg hc ht
  have h₂ := Graph.strashAnd_computes (a := c.not) (b := f) h1 h₁.ok
    (hc.mono h₁.length_le) (hf.mono h₁.length_le)
  have h₃ := Graph.strashOr_computes h1 h₂.ok (h₁.lit.mono h₂.length_le) h₂.lit
  refine ⟨(h₁.suffix.trans h₂.suffix).trans h₃.suffix, h₃.ok, h₃.lit, fun e => ?_⟩
  rw [Graph.strashMux, h₃.eval, Graph.eval_of_suffix h₂.suffix e h₁.lit.below, h₁.eval, h₂.eval,
    Graph.eval_not, Graph.eval_of_suffix h₁.suffix e hc.below,
    Graph.eval_of_suffix h₁.suffix e hf.below]
  cases g.eval e c <;> simp

end

/-- One-level structural hashing meets the contract. -/
def strash : AbcAig where
  and := Graph.strashAnd
  or := Graph.strashOr
  mux := Graph.strashMux
  and_computes := Graph.strashAnd_computes
  or_computes := Graph.strashOr_computes
  mux_computes := Graph.strashMux_computes
  and_node {g a b} hab ha hb := by
    have h₁ : a ≠ b := fun h => hab (by rw [h])
    have h₂ : a ≠ b.not := fun h => hab (by rw [h]; rfl)
    simpa [Graph.strashAnd, h₁, h₂, ha, hb] using Graph.hashAnd_node g a b

end ExtFolding.Aig
