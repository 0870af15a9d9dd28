import ExtFolding.TimeMux4.AigMux4

/-!
# Strashed networks and the frame of an object

`Strashed` is what ABC guarantees of a combinational AIG: the two fanins of a
node are different and not constant, no two nodes have the same fanins, and the
fanout lists are exactly the fanin edges read backwards. The frame of an object
is the latest frame with an input in its cone.
-/

namespace ExtFolding.TimeMux4

open ExtFolding.Aig ExtFolding.TimeMux2 ExtFolding.TimeMux3

namespace CombNtk

/-- `p` and `q` are the two fanins of node `k`, in either order. -/
def Join (N : CombNtk) (k : ℕ) (p q : Obj) : Prop :=
  ∃ a b, N.graph.fanins? k = some (a, b) ∧ (a.obj = p ∧ b.obj = q ∨ a.obj = q ∧ b.obj = p)

/-- `f` has a fanin edge from `o`. -/
def Edge (N : CombNtk) (o : Obj) : Fanout → Prop
  | .node k => ∃ q, N.Join k o q
  | .po p => ∃ l, N.pos[p]? = some l ∧ l.obj = o

/-- The object exists. -/
abbrev Has (N : CombNtk) (o : Obj) : Prop := o.Ok (Ntk.IsLeaf N.nCi 0) N.graph.length

structure Strashed (N : CombNtk) : Prop where
  ok : N.graph.Ok (Ntk.IsLeaf N.nCi 0)
  posOk : ∀ l ∈ N.pos, N.Has l.obj
  distinct : ∀ {k a b}, N.graph.fanins? k = some (a, b) → a.obj ≠ b.obj
  not_const : ∀ {k a b}, N.graph.fanins? k = some (a, b) → a.obj ≠ .const1 ∧ b.obj ≠ .const1
  hashed : ∀ {k k' a b}, N.graph.fanins? k = some (a, b) →
    N.graph.fanins? k' = some (a, b) ∨ N.graph.fanins? k' = some (b, a) → k = k'
  nodup : ∀ o, (N.fanouts o).Nodup
  mem_fanouts : ∀ o f, f ∈ N.fanouts o ↔ N.Edge o f

/-- The value of an object under an input vector. -/
def val (N : CombNtk) (x : ℕ → Bool) (o : Obj) : Bool :=
  N.graph.eval ⟨x, fun _ => false⟩ o.lit

/-- The inputs in the cone of an object. -/
def support (N : CombNtk) : Obj → Finset ℕ :=
  N.graph.interp (fun o => match o with | .pi j => {j} | _ => ∅) (fun s _ s' _ => s ∪ s')

/-- The latest frame with an input in the cone of an object. -/
def frameOf (N : CombNtk) (nPi : ℕ) : Obj → ℕ :=
  N.graph.interp (fun o => match o with | .pi j => j / nPi | _ => 0) (fun m _ n _ => max m n)

variable {N : CombNtk} {nPi : ℕ}

theorem Join.symm {k : ℕ} {p q : Obj} (h : N.Join k p q) : N.Join k q p := by
  obtain ⟨a, b, hk, h⟩ := h
  exact ⟨a, b, hk, h.symm⟩

theorem Join.of_fanins {k : ℕ} {a b : Lit} (h : N.graph.fanins? k = some (a, b)) :
    N.Join k a.obj b.obj :=
  ⟨a, b, h, Or.inl ⟨rfl, rfl⟩⟩

theorem Join.edge {k : ℕ} {p q : Obj} (h : N.Join k p q) : N.Edge p (.node k) := ⟨q, h⟩

theorem Join.lt {k : ℕ} {p q : Obj} (h : N.Join k p q) : k < N.graph.length := by
  obtain ⟨a, b, hk, -⟩ := h
  exact Graph.fanins?_lt hk

theorem Strashed.ne (hN : N.Strashed) {k : ℕ} {p q : Obj} (h : N.Join k p q) : p ≠ q := by
  obtain ⟨a, b, hk, ⟨rfl, rfl⟩ | ⟨rfl, rfl⟩⟩ := h
  · exact hN.distinct hk
  · exact (hN.distinct hk).symm

theorem Join.pair_cases {k : ℕ} {p q p' q' : Obj} (h : N.Join k p q) (h' : N.Join k p' q') :
    p' = p ∧ q' = q ∨ p' = q ∧ q' = p := by
  obtain ⟨a, b, hk, h⟩ := h
  obtain ⟨a', b', hk', h'⟩ := h'
  obtain ⟨rfl, rfl⟩ : a = a' ∧ b = b' := by simpa [hk] using hk'
  grind

theorem Strashed.has_fanin (hN : N.Strashed) {k : ℕ} {p q : Obj} (h : N.Join k p q) :
    p.Ok (Ntk.IsLeaf N.nCi 0) k := by
  obtain ⟨a, b, hk, h⟩ := h
  obtain ⟨ha, hb⟩ := hN.ok.fanins hk
  rcases h with ⟨rfl, rfl⟩ | ⟨rfl, rfl⟩
  · exact ha
  · exact hb

theorem Strashed.has_of_edge (hN : N.Strashed) {o : Obj} {f : Fanout} (h : N.Edge o f) :
    N.Has o := by
  cases f with
  | node k =>
      obtain ⟨q, hq⟩ := h
      exact (hN.has_fanin hq).mono hq.lt.le
  | po p =>
      obtain ⟨l, hl, rfl⟩ := h
      exact hN.posOk l (List.mem_of_getElem? hl)

/-- The driver of an output is unique. -/
theorem Edge.po_unique {o o' : Obj} {p : ℕ} (h : N.Edge o (.po p)) (h' : N.Edge o' (.po p)) :
    o = o' := by
  obtain ⟨l, hl, rfl⟩ := h
  obtain ⟨l', hl', rfl⟩ := h'
  rw [hl] at hl'
  cases hl'
  rfl

/-! ## Frames -/

@[simp] theorem frameOf_const1 : N.frameOf nPi .const1 = 0 := by simp [frameOf]

@[simp] theorem frameOf_pi (j : ℕ) : N.frameOf nPi (.pi j) = j / nPi := by simp [frameOf]

theorem Strashed.frameOf_node (hN : N.Strashed) (nPi : ℕ) {k : ℕ} {p q : Obj} (h : N.Join k p q) :
    N.frameOf nPi (.node k) = max (N.frameOf nPi p) (N.frameOf nPi q) := by
  obtain ⟨a, b, hk, h⟩ := h
  rw [frameOf, hN.ok.interp_node _ _ hk]
  rcases h with ⟨rfl, rfl⟩ | ⟨rfl, rfl⟩
  · rfl
  · exact max_comm _ _

/-- Interpretations that agree on leaves and nodes up to `f` agree everywhere. -/
theorem interp_hom {α β : Type} (g : Graph) (f : α → β) {leaf : Obj → α} {leaf' : Obj → β}
    {op : α → Bool → α → Bool → α} {op' : β → Bool → β → Bool → β}
    (hleaf : ∀ o, f (leaf o) = leaf' o)
    (hop : ∀ x c y d, f (op x c y d) = op' (f x) c (f y) d) (o : Obj) :
    f (g.interp leaf op o) = g.interp leaf' op' o := by
  induction g generalizing o with
  | nil => exact hleaf o
  | cons n g ih =>
      obtain ⟨a, b⟩ := n
      rw [Graph.interp, Graph.interp]
      split
      · rw [hop, ih, ih]
      · exact ih o

/-- The frame of an object is the largest frame of an input in its support. -/
theorem frameOf_eq_sup (N : CombNtk) (nPi : ℕ) (o : Obj) :
    N.frameOf nPi o = (N.support o).sup (· / nPi) := by
  symm
  refine interp_hom N.graph (fun s : Finset ℕ => s.sup (· / nPi)) ?_ ?_ o
  · intro o
    cases o <;> simp
  · intro s _ s' _
    exact Finset.sup_union

/-- Every object lies in one of the `T` frames. -/
theorem Strashed.frameOf_lt (hN : N.Strashed) {T : ℕ} (hT : 1 ≤ T) (hci : N.nCi = nPi * T)
    {o : Obj} (ho : N.Has o) : N.frameOf nPi o < T := by
  have key : ∀ n, ∀ o : Obj, o.Ok (Ntk.IsLeaf N.nCi 0) n → n ≤ N.graph.length →
      N.frameOf nPi o < T := by
    intro n
    induction n with
    | zero =>
        intro o ho _
        cases o with
        | const1 => simpa using Nat.lt_of_lt_of_le Nat.one_pos hT
        | pi j =>
            have hj : j < nPi * T := hci ▸ ho
            rw [frameOf_pi]
            exact Nat.div_lt_of_lt_mul hj
        | bo i => exact absurd ho (Nat.not_lt_zero i)
        | node k => exact absurd ho (Nat.not_lt_zero k)
    | succ n ih =>
        intro o ho hn
        by_cases h : o = .node n
        · subst h
          obtain ⟨⟨a, b⟩, hab⟩ := Graph.fanins?_isSome (g := N.graph) (Nat.lt_of_succ_le hn)
          have hj := Join.of_fanins hab
          rw [hN.frameOf_node nPi hj]
          exact max_lt (ih _ (hN.has_fanin hj) (Nat.le_of_succ_le hn))
            (ih _ (hN.has_fanin hj.symm) (Nat.le_of_succ_le hn))
        · exact ih o (ho.of_succ h) (Nat.le_of_succ_le hn)
  exact key _ o ho le_rfl

/-- The inputs of frame `t`. -/
theorem exists_pin {T j t : ℕ} (hci : N.nCi = nPi * T) (hj : j < N.nCi) (ht : j / nPi = t) :
    ∃ i < nPi, j = t * nPi + i := by
  have hpos : 0 < nPi := by
    rcases Nat.eq_zero_or_pos nPi with h | h
    · simp [hci, h] at hj
    · exact h
  refine ⟨j % nPi, Nat.mod_lt j hpos, ?_⟩
  rw [← ht, Nat.mul_comm]
  exact (Nat.div_add_mod j nPi).symm

/-- `p` has arrived before frame `t` while a node that it feeds has not. -/
def Waiting (N : CombNtk) (nPi t : ℕ) (k : ℕ) (p : Obj) : Prop :=
  ∃ q, N.Join k p q ∧ N.frameOf nPi p < t ∧ t ≤ N.frameOf nPi q

theorem Waiting.frame_lt {t k : ℕ} {p : Obj} (h : N.Waiting nPi t k p) : N.frameOf nPi p < t := by
  obtain ⟨q, -, hp, -⟩ := h
  exact hp

theorem Strashed.waiting_ne_const (hN : N.Strashed) {t k : ℕ} {p : Obj}
    (h : N.Waiting nPi t k p) : p ≠ .const1 := by
  obtain ⟨q, ⟨a, b, hk, h⟩, -⟩ := h
  have := hN.not_const hk
  grind

/-- The value of a node is the conjunction of its fanin literals. -/
theorem Strashed.val_node (hN : N.Strashed) (x : ℕ → Bool) {k : ℕ} {a b : Lit}
    (h : N.graph.fanins? k = some (a, b)) :
    N.val x (.node k) = ((N.val x a.obj ^^ a.compl) && (N.val x b.obj ^^ b.compl)) := by
  rw [val, hN.ok.eval_node _ h, Graph.eval_eq_lit, Graph.eval_eq_lit _ _ b]
  rfl

end CombNtk

end ExtFolding.TimeMux4
