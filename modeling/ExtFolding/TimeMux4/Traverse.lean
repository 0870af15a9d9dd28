import ExtFolding.TimeMux4.Strashed

/-!
# The traversal of one frame

`CopyInv` is the invariant of the copies: `L` lists the objects that have
arrived in frame `t`, `c₀` gives the latch of every object that was waiting when
the frame began. Copies are uncomplemented and pairwise different, so the checks
of the code on pointers never go wrong, and under a matching environment every
copy computes what its original computes.
-/

namespace ExtFolding.TimeMux4

open ExtFolding.Aig ExtFolding.TimeMux2 ExtFolding.TimeMux3

section

variable (N : CombNtk) (nPi t : ℕ) (c₀ : Obj → Lit)

/-- The pins carry the inputs of frame `t`, the latches the values that wait. -/
structure Matches (x : ℕ → Bool) (e : Env) : Prop where
  pin : ∀ i < nPi, e.pi i = x (t * nPi + i)
  held : ∀ {k o j}, N.Waiting nPi t k o → c₀ o = (Obj.bo j).lit → e.bo j = N.val x o

/-- Every waiting object has a latch of its own, behind the ring of `T` boxes. -/
structure Held (T nl : ℕ) : Prop where
  const1 : c₀ .const1 = Obj.const1.lit
  bo : ∀ {k o}, N.Waiting nPi t k o → ∃ j, T ≤ j ∧ j < nl ∧ c₀ o = (Obj.bo j).lit
  inj : ∀ {k o k' o'}, N.Waiting nPi t k o → N.Waiting nPi t k' o' → c₀ o = c₀ o' → o = o'

/-- The objects with a valid copy during frame `t`. -/
def Live (L : List Obj) (o : Obj) : Prop :=
  o = .const1 ∨ (∃ k, N.Waiting nPi t k o) ∨ o ∈ L

structure CopyInv (nl : ℕ) (L : List Obj) (g : Graph) (copy : Obj → Lit) : Prop where
  ok : g.Ok (Ntk.IsLeaf nPi nl)
  arrived : ∀ o ∈ L, N.Has o ∧ N.frameOf nPi o = t
  const1 : copy .const1 = Obj.const1.lit
  wait : ∀ {k o}, N.Waiting nPi t k o → copy o = c₀ o
  pi : ∀ {j}, Obj.pi j ∈ L → copy (.pi j) = (Obj.pi (j - t * nPi)).lit
  node : ∀ {k}, Obj.node k ∈ L → ∃ m a b, N.graph.fanins? k = some (a, b) ∧
    Live N nPi t L a.obj ∧ Live N nPi t L b.obj ∧ copy (.node k) = (Obj.node m).lit ∧
    (g.fanins? m = some (childCopy copy a, childCopy copy b) ∨
      g.fanins? m = some (childCopy copy b, childCopy copy a))
  lit : ∀ {o}, Live N nPi t L o → (copy o).obj.Ok (Ntk.IsLeaf nPi nl) g.length
  sem : ∀ {o}, Live N nPi t L o → ∀ {x e}, Matches N nPi t c₀ x e → g.eval e (copy o) = N.val x o

end

section

variable {N : CombNtk} {nPi t T nl : ℕ} {c₀ : Obj → Lit} {L : List Obj} {g : Graph}
  {copy : Obj → Lit}

theorem Live.cons {o o' : Obj} (h : Live N nPi t L o) : Live N nPi t (o' :: L) o := by
  rcases h with h | h | h
  · exact Or.inl h
  · exact Or.inr (Or.inl h)
  · exact Or.inr (Or.inr (List.mem_cons_of_mem _ h))

/-- The four kinds of live objects and their copies. -/
inductive Shape (N : CombNtk) (nPi t : ℕ) (L : List Obj) (g : Graph) (copy : Obj → Lit) :
    Obj → Prop where
  | const1 : copy .const1 = Obj.const1.lit → Shape N nPi t L g copy .const1
  | wait {k o j} : N.Waiting nPi t k o → copy o = (Obj.bo j).lit → Shape N nPi t L g copy o
  | pi {j} : t * nPi ≤ j → copy (.pi j) = (Obj.pi (j - t * nPi)).lit →
      Shape N nPi t L g copy (.pi j)
  | node {k m a b} : N.graph.fanins? k = some (a, b) → Live N nPi t L a.obj →
      Live N nPi t L b.obj → copy (.node k) = (Obj.node m).lit →
      (g.fanins? m = some (childCopy copy a, childCopy copy b) ∨
        g.fanins? m = some (childCopy copy b, childCopy copy a)) →
      Shape N nPi t L g copy (.node k)

theorem CopyInv.shape (h : CopyInv N nPi t c₀ nl L g copy) (h₀ : Held N nPi t c₀ T nl)
    {o : Obj} (ho : Live N nPi t L o) : Shape N nPi t L g copy o := by
  rcases ho with rfl | ⟨k, hk⟩ | ho
  · exact .const1 h.const1
  · obtain ⟨j, -, -, hj⟩ := h₀.bo hk
    exact .wait hk ((h.wait hk).trans hj)
  · obtain ⟨hhas, hframe⟩ := h.arrived o ho
    cases o with
    | const1 => exact .const1 h.const1
    | pi j =>
        refine .pi ?_ (h.pi ho)
        rw [CombNtk.frameOf_pi] at hframe
        exact hframe ▸ Nat.div_mul_le_self j nPi
    | bo i => exact absurd hhas (Nat.not_lt_zero i)
    | node k =>
        obtain ⟨m, a, b, hk, ha, hb, hc, hm⟩ := h.node ho
        exact .node hk ha hb hc hm

/-- Copies are never complemented. -/
theorem CopyInv.compl (h : CopyInv N nPi t c₀ nl L g copy) (h₀ : Held N nPi t c₀ T nl)
    {o : Obj} (ho : Live N nPi t L o) : (copy o).compl = false := by
  cases h.shape h₀ ho with
  | const1 hc => rw [hc]; rfl
  | wait _ hc => rw [hc]; rfl
  | pi _ hc => rw [hc]; rfl
  | node _ _ _ hc _ => rw [hc]; rfl

theorem CopyInv.eq_lit (h : CopyInv N nPi t c₀ nl L g copy) (h₀ : Held N nPi t c₀ T nl)
    {o : Obj} (ho : Live N nPi t L o) : copy o = (copy o).obj.lit := by
  have hc := h.compl h₀ ho
  generalize copy o = l at hc
  cases l
  cases hc
  rfl

theorem childCopy_inj {a a' : Lit} (ha : (copy a.obj).compl = false)
    (ha' : (copy a'.obj).compl = false) (hinj : copy a.obj = copy a'.obj → a.obj = a'.obj)
    (h : childCopy copy a = childCopy copy a') : a = a' := by
  obtain ⟨o, c⟩ := a
  obtain ⟨o', c'⟩ := a'
  simp only [childCopy, Lit.notCond, Lit.mk.injEq, ha, ha', Bool.false_xor] at h
  obtain ⟨hobj, rfl⟩ := h
  have hcopy : copy o = copy o' := by
    generalize copy o = l at ha hobj
    generalize copy o' = l' at ha' hobj
    cases l; cases l'
    simp_all
  cases hinj hcopy
  rfl

/-- Different live objects have different copies: two nodes with one copy have the same
fanin copies, hence by induction the same fanins. -/
theorem CopyInv.inj (hN : N.Strashed) (h : CopyInv N nPi t c₀ nl L g copy)
    (h₀ : Held N nPi t c₀ T nl) {o o' : Obj} (ho : Live N nPi t L o) (ho' : Live N nPi t L o')
    (heq : copy o = copy o') : o = o' := by
  induction o using Obj.below_induction generalizing o' with
  | h o ih =>
      cases h.shape h₀ ho with
      | const1 hc =>
          cases h.shape h₀ ho' with
          | const1 _ => rfl
          | wait _ hc' => simp [hc, hc', Obj.lit] at heq
          | pi _ hc' => simp [hc, hc', Obj.lit] at heq
          | node _ _ _ hc' _ => simp [hc, hc', Obj.lit] at heq
      | wait hw hc =>
          cases h.shape h₀ ho' with
          | const1 hc' => simp [hc, hc', Obj.lit] at heq
          | wait hw' hc' => exact h₀.inj hw hw' (by rw [← h.wait hw, ← h.wait hw', heq])
          | pi _ hc' => simp [hc, hc', Obj.lit] at heq
          | node _ _ _ hc' _ => simp [hc, hc', Obj.lit] at heq
      | pi hj hc =>
          cases h.shape h₀ ho' with
          | const1 hc' => simp [hc, hc', Obj.lit] at heq
          | wait _ hc' => simp [hc, hc', Obj.lit] at heq
          | pi hj' hc' =>
              simp only [hc, hc', Obj.lit, Lit.mk.injEq, Obj.pi.injEq, and_true] at heq
              congr 1
              omega
          | node _ _ _ hc' _ => simp [hc, hc', Obj.lit] at heq
      | node hk ha hb hc hm =>
          cases h.shape h₀ ho' with
          | const1 hc' => simp [hc, hc', Obj.lit] at heq
          | wait _ hc' => simp [hc, hc', Obj.lit] at heq
          | pi _ hc' => simp [hc, hc', Obj.lit] at heq
          | node hk' ha' hb' hc' hm' =>
              obtain ⟨hba, hbb⟩ := hN.ok.fanins hk
              have child : ∀ {l l' : Lit}, l.obj.Below _ → Live N nPi t L l.obj →
                  Live N nPi t L l'.obj → childCopy copy l = childCopy copy l' → l = l' :=
                fun hl hlive hlive' => childCopy_inj (h.compl h₀ hlive) (h.compl h₀ hlive')
                  (ih _ rfl _ hl hlive hlive')
              rw [hc, hc'] at heq
              cases heq
              congr 1
              refine hN.hashed hk ?_
              rcases hm with hm | hm <;> rcases hm' with hm' | hm' <;> rw [hm] at hm' <;>
                simp only [Option.some.injEq, Prod.mk.injEq] at hm'
              · left
                rw [hk', child hba.below ha ha' hm'.1, child hbb.below hb hb' hm'.2]
              · right
                rw [hk', child hba.below ha hb' hm'.1, child hbb.below hb ha' hm'.2]
              · right
                rw [hk', child hba.below ha hb' hm'.2, child hbb.below hb ha' hm'.1]
              · left
                rw [hk', child hba.below ha ha' hm'.2, child hbb.below hb hb' hm'.1]

/-- Building a node whose two fanins are live. -/
theorem CopyInv.build (abc : AbcAig) (hN : N.Strashed) (h : CopyInv N nPi t c₀ nl L g copy)
    (h₀ : Held N nPi t c₀ T nl) {k : ℕ} {a b : Lit} (hk : N.graph.fanins? k = some (a, b))
    (ha : Live N nPi t L a.obj) (hb : Live N nPi t L b.obj) (hframe : N.frameOf nPi (.node k) = t)
    (hnew : Obj.node k ∉ L) :
    g <:+ (abc.and g (childCopy copy a) (childCopy copy b)).1 ∧
      CopyInv N nPi t c₀ nl (.node k :: L) (abc.and g (childCopy copy a) (childCopy copy b)).1
        (Function.update copy (.node k) (abc.and g (childCopy copy a) (childCopy copy b)).2) := by
  have hand := abc.and_computes (a := childCopy copy a) (b := childCopy copy b)
    (P := Ntk.IsLeaf nPi nl) trivial h.ok (h.lit ha) (h.lit hb)
  obtain ⟨m, hm, hmem⟩ := abc.and_node (g := g) (a := childCopy copy a) (b := childCopy copy b)
    (fun heq => hN.distinct hk (h.inj hN h₀ ha hb (by rw [h.eq_lit h₀ ha, h.eq_lit h₀ hb]
                                                      exact congrArg Obj.lit heq)))
    (fun heq => (hN.not_const hk).1 (h.inj hN h₀ ha (Or.inl rfl) (by
      rw [h.eq_lit h₀ ha, h.const1]; exact congrArg Obj.lit heq)))
    (fun heq => (hN.not_const hk).2 (h.inj hN h₀ hb (Or.inl rfl) (by
      rw [h.eq_lit h₀ hb, h.const1]; exact congrArg Obj.lit heq)))
  generalize abc.and g (childCopy copy a) (childCopy copy b) = r at hand hm hmem ⊢
  have hne : ∀ o, Live N nPi t L o → o ≠ .node k := by
    rintro o ho rfl
    rcases ho with ho | ⟨k', hk'⟩ | ho
    · cases ho
    · exact absurd hframe (Nat.ne_of_lt hk'.frame_lt)
    · exact hnew ho
  have hchild : ∀ l : Lit, Live N nPi t L l.obj →
      childCopy (Function.update copy (.node k) r.2) l = childCopy copy l := fun l hl => by
    rw [childCopy, childCopy, Function.update_of_ne (hne _ hl)]
  have hlive : ∀ o, Live N nPi t (.node k :: L) o → o = .node k ∨ Live N nPi t L o := by
    rintro o (ho | ho | ho)
    · exact Or.inr (Or.inl ho)
    · exact Or.inr (Or.inr (Or.inl ho))
    · rcases List.mem_cons.mp ho with rfl | ho
      · exact Or.inl rfl
      · exact Or.inr (Or.inr (Or.inr ho))
  have hhas : N.Has (.node k) := Graph.fanins?_lt hk
  refine ⟨hand.suffix, ⟨hand.ok, ?_, ?_, fun {k' o} hw => ?_, fun {j} hj => ?_, fun {k'} hk' => ?_,
    fun {o} ho => ?_, fun {o} ho {x e} he => ?_⟩⟩
  · intro o ho
    rcases List.mem_cons.mp ho with rfl | ho
    · exact ⟨hhas, hframe⟩
    · exact h.arrived o ho
  · rw [Function.update_of_ne (hne _ (Or.inl rfl)), h.const1]
  · rw [Function.update_of_ne (hne _ (Or.inr (Or.inl ⟨k', hw⟩))), h.wait hw]
  · rw [Function.update_of_ne (by simp), h.pi (by simpa using hj)]
  · by_cases hkk : k' = k
    · subst hkk
      refine ⟨m, a, b, hk, ha.cons, hb.cons, by rw [Function.update_self, hm], ?_⟩
      rwa [hchild a ha, hchild b hb]
    · have hk'L : Obj.node k' ∈ L := by simpa [hkk] using hk'
      obtain ⟨m', a', b', hab', ha', hb', hc', hm'⟩ := h.node hk'L
      refine ⟨m', a', b', hab', ha'.cons, hb'.cons, ?_, ?_⟩
      · rw [Function.update_of_ne (by simpa using hkk), hc']
      · rw [hchild a' ha', hchild b' hb']
        have hlt : m' < g.length := by
          rcases hm' with hm' | hm' <;> exact Graph.fanins?_lt hm'
        rwa [Graph.fanins?_of_suffix hand.suffix hlt]
  · rcases hlive o ho with rfl | ho
    · rw [Function.update_self]
      exact hand.lit
    · rw [Function.update_of_ne (hne o ho)]
      exact (h.lit ho).mono hand.length_le
  · rcases hlive o ho with rfl | ho
    · rw [Function.update_self, hand.eval, hN.val_node x hk, childCopy, childCopy,
        Graph.eval_notCond, Graph.eval_notCond, h.sem ha he, h.sem hb he]
    · rw [Function.update_of_ne (hne o ho), Graph.eval_of_suffix hand.suffix e (h.lit ho).below,
        h.sem ho he]

end

end ExtFolding.TimeMux4
