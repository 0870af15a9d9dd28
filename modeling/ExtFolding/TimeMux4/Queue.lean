import ExtFolding.TimeMux4.Traverse

/-!
# The work list of `processQue`

`seen` holds the fanin edges that the traversal has looked at so far, over all
frames. `visitFanout` looks at one more edge; a frame ends when the queue is
empty, and then the edges seen are exactly those leaving objects of frames
up to `t`.
-/

namespace ExtFolding.TimeMux4

open ExtFolding.Aig ExtFolding.TimeMux2 ExtFolding.TimeMux3

/-- The invariant of the traversal of frame `t`. -/
structure TravInv (N : CombNtk) (nPi t : ℕ) (c₀ : Obj → Lit) (nl : ℕ) (g₀ : Graph)
    (seen : Obj → Fanout → Prop) (L : List Obj) (s : QueSt) : Prop where
  copies : CopyInv N nPi t c₀ nl L s.graph s.copy
  suffix : g₀ <:+ s.graph
  nodup : L.Nodup
  leaf : ∀ o : Obj, o.Ok (Ntk.IsLeaf N.nCi 0) 0 → N.frameOf nPi o = t → o ∈ L
  node : ∀ {k p q}, N.Join k p q → N.frameOf nPi (.node k) = t →
    (Obj.node k ∈ L ↔ seen p (.node k) ∧ seen q (.node k))
  edge : ∀ {o f}, seen o f → N.Edge o f ∧ (N.frameOf nPi o < t ∨ o ∈ L)
  old : ∀ {o f}, N.Edge o f → N.frameOf nPi o < t → seen o f
  waits : ∀ {k p}, (k, p) ∈ s.vMap ↔
    ∃ q, N.Join k p q ∧ seen p (.node k) ∧ ¬ seen q (.node k)
  outs : (s.info.map Prod.fst).Nodup
  mem_outs : ∀ {o}, o ∈ s.info.map Prod.fst ↔ ∃ d ∈ L, seen d (.po o)
  out : ∀ p ∈ s.info, p.2.obj.Ok (Ntk.IsLeaf nPi nl) s.graph.length ∧
    ∀ {x e}, Matches N nPi t c₀ x e → s.graph.eval e p.2 = N.fn x p.1

variable {N : CombNtk} {nPi t T nl : ℕ} {c₀ : Obj → Lit} {g₀ : Graph}
  {seen : Obj → Fanout → Prop} {L : List Obj} {s : QueSt}

/-- One more edge has been looked at. -/
def see (seen : Obj → Fanout → Prop) (o : Obj) (f : Fanout) (o' : Obj) (f' : Fanout) : Prop :=
  seen o' f' ∨ (o' = o ∧ f' = f)

theorem TravInv.frame (h : TravInv N nPi t c₀ nl g₀ seen L s) {o : Obj} (ho : o ∈ L) :
    N.frameOf nPi o = t := (h.copies.arrived o ho).2

/-- A fanout that is an output is recorded. -/
theorem TravInv.visit_po (abc : AbcAig) (h : TravInv N nPi t c₀ nl g₀ seen L s) {o : Obj}
    {p : ℕ} (ho : o ∈ L) (he : N.Edge o (.po p)) (hf : ¬ seen o (.po p)) :
    ∃ s', visitFanout abc N o s (.po p) = some s' ∧ s'.que = s.que ∧
      TravInv N nPi t c₀ nl g₀ (see seen o (.po p)) L s' := by
  obtain ⟨l, hl, rfl⟩ := id he
  have hlive : Live N nPi t L l.obj := Or.inr (Or.inr ho)
  have hpos : N.pos.getD p Obj.const1.lit = l := by simp [List.getD, hl]
  refine ⟨{ s with info := s.info ++ [(p, childCopy s.copy l)] }, by rw [visitFanout, hpos], rfl,
    h.copies, h.suffix, h.nodup, h.leaf, fun {k p' q} hj hk => ?_, fun {o f} hs => ?_,
      fun he' hlt => Or.inl (h.old he' hlt), fun {k p'} => ?_, ?_,
    fun {o} => ?_, ?_⟩
  · simpa [see] using h.node hj hk
  · rcases hs with hs | ⟨rfl, rfl⟩
    · exact h.edge hs
    · exact ⟨he, Or.inr ho⟩
  · simpa [see] using h.waits (k := k) (p := p')
  · rw [List.map_append, List.nodup_append]
    refine ⟨h.outs, by simp, ?_⟩
    intro a ha b hb
    obtain ⟨d, hd, hs⟩ := h.mem_outs.mp ha
    obtain rfl : b = p := by simpa using hb
    rintro rfl
    obtain rfl := (h.edge hs).1.po_unique he
    exact hf hs
  · rw [List.map_append, List.mem_append, h.mem_outs]
    constructor
    · rintro (⟨d, hd, hs⟩ | hs)
      · exact ⟨d, hd, Or.inl hs⟩
      · obtain rfl : o = p := by simpa using hs
        exact ⟨_, ho, Or.inr ⟨rfl, rfl⟩⟩
    · rintro ⟨d, hd, hs | ⟨rfl, hs⟩⟩
      · exact Or.inl ⟨d, hd, hs⟩
      · cases hs
        simp
  · intro p' hp'
    rcases List.mem_append.mp hp' with hp' | hp'
    · exact h.out p' hp'
    · obtain rfl : p' = (p, childCopy s.copy l) := by simpa using hp'
      refine ⟨h.copies.lit hlive, fun {x e} hm => ?_⟩
      have hfn : N.fn x p = N.graph.eval ⟨x, fun _ => false⟩ l := by simp [CombNtk.fn, hl]
      change s.graph.eval e ((s.copy l.obj).notCond l.compl) = N.fn x p
      rw [Graph.eval_notCond, h.copies.sem hlive hm, hfn, Graph.eval_eq_lit _ _ l]
      rfl

/-- The first fanin of a node to arrive waits for the other one. -/
theorem TravInv.visit_first (abc : AbcAig) (hN : N.Strashed)
    (h : TravInv N nPi t c₀ nl g₀ seen L s) {o : Obj} {k : ℕ} (ho : o ∈ L)
    (he : N.Edge o (.node k)) (hf : ¬ seen o (.node k)) (hnone : s.vMap.lookup k = none) :
    ∃ s', visitFanout abc N o s (.node k) = some s' ∧ s'.que = s.que ∧
      TravInv N nPi t c₀ nl g₀ (see seen o (.node k)) L s' := by
  obtain ⟨q, hq⟩ := he
  have hqs : ¬ seen q (.node k) := fun hs => by
    have hmem := h.waits.mpr ⟨o, hq.symm, hs, hf⟩
    rw [List.lookup_eq_none_iff] at hnone
    simpa using hnone _ hmem
  have hqo : q ≠ o := (hN.ne hq).symm
  refine ⟨{ s with vMap := (k, o) :: s.vMap }, by rw [visitFanout, hnone], rfl, h.copies,
    h.suffix, h.nodup, h.leaf, fun {k' p' q'} hj hk => ?_, fun {o' f} hs => ?_,
    fun he' hlt => Or.inl (h.old he' hlt), fun {k' p'} => ?_, h.outs, fun {o'} => ?_, h.out⟩
  · rw [h.node hj hk]
    by_cases hkk : k' = k
    · subst hkk
      rcases hq.pair_cases hj with ⟨rfl, rfl⟩ | ⟨rfl, rfl⟩ <;> simp [see, hqs, hf, hqo]
    · simp [see, hkk]
  · rcases hs with hs | ⟨rfl, rfl⟩
    · exact h.edge hs
    · exact ⟨hq.edge, Or.inr ho⟩
  · rw [List.mem_cons, h.waits]
    by_cases hkk : k' = k
    · subst hkk
      constructor
      · rintro (heq | ⟨q', hj, hs, hns⟩)
        · cases heq
          exact ⟨q, hq, Or.inr ⟨rfl, rfl⟩, by simp [see, hqs, hqo]⟩
        · rcases hq.pair_cases hj with ⟨rfl, rfl⟩ | ⟨rfl, rfl⟩
          · exact absurd hs hf
          · exact absurd hs hqs
      · rintro ⟨q', hj, hs, hns⟩
        rcases hq.pair_cases hj with ⟨rfl, rfl⟩ | ⟨rfl, rfl⟩
        · exact Or.inl rfl
        · exact absurd (Or.inr ⟨rfl, rfl⟩) hns
    · simp [see, hkk]
  · simpa [see] using h.mem_outs (o := o')

/-- When the second fanin arrives, the node is built and queued. -/
theorem TravInv.visit_second (abc : AbcAig) (hN : N.Strashed) (h₀ : Held N nPi t c₀ T nl)
    (h : TravInv N nPi t c₀ nl g₀ seen L s) {o p : Obj} {k : ℕ} (ho : o ∈ L)
    (he : N.Edge o (.node k)) (hf : ¬ seen o (.node k)) (hsome : s.vMap.lookup k = some p) :
    ∃ s', visitFanout abc N o s (.node k) = some s' ∧ s'.que = .node k :: s.que ∧
      TravInv N nPi t c₀ nl g₀ (see seen o (.node k)) (.node k :: L) s' := by
  have hmem : (k, p) ∈ s.vMap := by
    obtain ⟨l₁, l₂, hl, -⟩ := List.lookup_eq_some_iff.mp hsome
    simp [hl]
  obtain ⟨q, hj, hsp, hsq⟩ := h.waits.mp hmem
  obtain ⟨q', hj'⟩ := he
  obtain ⟨rfl, rfl⟩ : o = q ∧ p = q' := by
    rcases hj.pair_cases hj' with ⟨rfl, rfl⟩ | ⟨ho, hp⟩
    · exact absurd hsp hf
    · exact ⟨ho, hp.symm⟩
  have hpo : p ≠ o := hN.ne hj
  have hfo := h.frame ho
  have hframe : N.frameOf nPi (.node k) = t := by
    have hle : N.frameOf nPi p ≤ t := by
      rcases (h.edge hsp).2 with hlt | hL
      · exact hlt.le
      · exact (h.frame hL).le
    rw [hN.frameOf_node nPi hj, hfo, max_eq_right hle]
  have hlive : Live N nPi t L p := by
    rcases (h.edge hsp).2 with hlt | hL
    · exact Or.inr (Or.inl ⟨k, o, hj, hlt, hfo.ge⟩)
    · exact Or.inr (Or.inr hL)
  have hlive' : Live N nPi t L o := Or.inr (Or.inr ho)
  have hnew : Obj.node k ∉ L := fun hmem => hf ((h.node hj hframe).mp hmem).2
  obtain ⟨a, b, hk, hab⟩ := id hj
  have hlab : Live N nPi t L a.obj ∧ Live N nPi t L b.obj := by
    rcases hab with ⟨rfl, rfl⟩ | ⟨rfl, rfl⟩
    · exact ⟨hlive, hlive'⟩
    · exact ⟨hlive', hlive⟩
  obtain ⟨hsuf, hcopies⟩ := h.copies.build abc hN h₀ hk hlab.1 hlab.2 hframe hnew
  have hvisit : visitFanout abc N o s (.node k) = some { s with
      graph := (abc.and s.graph (childCopy s.copy a) (childCopy s.copy b)).1
      copy := Function.update s.copy (.node k)
        (abc.and s.graph (childCopy s.copy a) (childCopy s.copy b)).2
      que := .node k :: s.que
      vMap := s.vMap.filter fun p => p.1 ≠ k } := by
    rw [visitFanout, hsome]
    simp only [if_neg hpo, hk]
  refine ⟨_, hvisit, rfl, hcopies, h.suffix.trans hsuf,
    List.nodup_cons.mpr ⟨hnew, h.nodup⟩, fun o' ho' hf' =>
      List.mem_cons_of_mem _ (h.leaf o' ho' hf'), fun {k' p' q'} hjn hk' => ?_,
    fun {o' f} hs => ?_, fun he' hlt => Or.inl (h.old he' hlt), fun {k' p'} => ?_, h.outs,
    fun {o'} => ?_, fun p' hp' => ?_⟩
  · by_cases hkk : k' = k
    · subst hkk
      rcases hj.pair_cases hjn with ⟨rfl, rfl⟩ | ⟨rfl, rfl⟩ <;> simp [see, hsp]
    · simpa [see, hkk] using h.node hjn hk'
  · rcases hs with hs | ⟨rfl, rfl⟩
    · exact ⟨(h.edge hs).1, (h.edge hs).2.imp_right (List.mem_cons_of_mem _)⟩
    · exact ⟨hj'.edge, Or.inr (List.mem_cons_of_mem _ ho)⟩
  · rw [List.mem_filter, h.waits]
    by_cases hkk : k' = k
    · subst hkk
      constructor
      · rintro ⟨-, hne⟩
        simp at hne
      · rintro ⟨q', hjq, hs, hns⟩
        rcases hj.pair_cases hjq with ⟨rfl, rfl⟩ | ⟨rfl, rfl⟩
        · exact absurd (Or.inr ⟨rfl, rfl⟩) hns
        · exact absurd (Or.inl hsp) hns
    · simp [see, hkk]
  · rw [h.mem_outs]
    constructor
    · rintro ⟨d, hd, hs⟩
      exact ⟨d, List.mem_cons_of_mem _ hd, Or.inl hs⟩
    · rintro ⟨d, hd, hs | ⟨rfl, hs⟩⟩
      · refine ⟨d, ?_, hs⟩
        rcases List.mem_cons.mp hd with rfl | hd
        · rcases (h.edge hs).2 with hlt | hL
          · exact absurd hframe hlt.ne
          · exact hL
        · exact hd
      · cases hs
  · obtain ⟨hok, hsem⟩ := h.out p' hp'
    refine ⟨hok.mono hsuf.length_le, fun {x e} hm => ?_⟩
    rw [Graph.eval_of_suffix hsuf e hok.below, hsem hm]

/-- The loop over the fanouts of one object; `new` are the nodes it builds. -/
theorem TravInv.visit_all (abc : AbcAig) (hN : N.Strashed) (h₀ : Held N nPi t c₀ T nl) {o : Obj}
    {fs : List Fanout} (h : TravInv N nPi t c₀ nl g₀ seen L s) (ho : o ∈ L) (hfs : fs.Nodup)
    (he : ∀ f ∈ fs, N.Edge o f) (hf : ∀ f ∈ fs, ¬ seen o f) :
    ∃ new s', fs.foldlM (visitFanout abc N o) s = some s' ∧ s'.que = new ++ s.que ∧
      TravInv N nPi t c₀ nl g₀ (fun o' f' => seen o' f' ∨ (o' = o ∧ f' ∈ fs)) (new ++ L) s' := by
  induction fs generalizing seen L s with
  | nil => exact ⟨[], s, rfl, rfl, by simpa using h⟩
  | cons f fs ih =>
      obtain ⟨hnot, hfs⟩ := List.nodup_cons.mp hfs
      obtain ⟨new, s₁, hv, hq, h₁⟩ : ∃ new s₁, visitFanout abc N o s f = some s₁ ∧
          s₁.que = new ++ s.que ∧ TravInv N nPi t c₀ nl g₀ (see seen o f) (new ++ L) s₁ := by
        cases f with
        | po p =>
            obtain ⟨s₁, hv, hq, h₁⟩ :=
              h.visit_po abc ho (he _ List.mem_cons_self) (hf _ List.mem_cons_self)
            exact ⟨[], s₁, hv, hq, h₁⟩
        | node k =>
            cases hl : s.vMap.lookup k with
            | none =>
                obtain ⟨s₁, hv, hq, h₁⟩ :=
                  h.visit_first abc hN ho (he _ List.mem_cons_self)
                    (hf _ List.mem_cons_self) hl
                exact ⟨[], s₁, hv, hq, h₁⟩
            | some p =>
                obtain ⟨s₁, hv, hq, h₁⟩ :=
                  h.visit_second abc hN h₀ ho (he _ List.mem_cons_self)
                    (hf _ List.mem_cons_self) hl
                exact ⟨[.node k], s₁, hv, hq, h₁⟩
      have hunseen : ∀ f' ∈ fs, ¬ see seen o f o f' := by
        rintro f' hf' (hs | ⟨-, rfl⟩)
        · exact hf f' (List.mem_cons_of_mem _ hf') hs
        · exact hnot hf'
      obtain ⟨new', s₂, hfold, hq', h₂⟩ := ih h₁ (List.mem_append_right _ ho) hfs
        (fun f' hf' => he f' (List.mem_cons_of_mem _ hf')) hunseen
      refine ⟨new' ++ new, s₂, ?_, by rw [hq', hq, List.append_assoc], ?_⟩
      · rw [List.foldlM_cons, hv]
        exact hfold
      · rw [List.append_assoc]
        convert h₂ using 3
        simp only [see, List.mem_cons]
        tauto

/-- The edges seen when exactly the objects in `D` have been popped. -/
def seenAt (N : CombNtk) (nPi t : ℕ) (D : List Obj) (o : Obj) (f : Fanout) : Prop :=
  N.Edge o f ∧ (N.frameOf nPi o < t ∨ o ∈ D)

theorem seenAt_congr {D D' : List Obj} (h : ∀ o, o ∈ D ↔ o ∈ D') :
    seenAt N nPi t D = seenAt N nPi t D' := by
  funext o f
  simp [seenAt, h]

theorem processQue_nil (abc : AbcAig) (fuel : ℕ) (h : s.que = []) :
    processQue abc N fuel s = some s := by
  unfold processQue
  simp only [h]

theorem processQue_cons (abc : AbcAig) (fuel : ℕ) {o : Obj} {que : List Obj}
    (h : s.que = o :: que) :
    processQue abc N (fuel + 1) s =
      ((N.fanouts o).foldlM (visitFanout abc N o) { s with que := que }).bind
        (processQue abc N fuel) := by
  conv_lhs => unfold processQue
  simp only [h]

/-- The number of objects that can arrive in a frame bounds the number of rounds. -/
theorem TravInv.length_le (hci : N.nCi = nPi * T) (h : TravInv N nPi t c₀ nl g₀ seen L s) :
    L.length ≤ nPi + 1 + N.graph.length := by
  have hsub : L ⊆ .const1 :: ((List.range nPi).map fun i => Obj.pi (t * nPi + i)) ++
      (List.range N.graph.length).map Obj.node := by
    intro o ho
    obtain ⟨hhas, hframe⟩ := h.copies.arrived o ho
    cases o with
    | const1 => simp
    | pi j =>
        rw [CombNtk.frameOf_pi] at hframe
        obtain ⟨i, hi, rfl⟩ := CombNtk.exists_pin hci hhas hframe
        simp [hi]
    | bo i => exact absurd hhas (Nat.not_lt_zero i)
    | node k =>
        have hk : k < N.graph.length := hhas
        simp [hk]
  have := (h.nodup.subperm hsub).length_le
  simp only [List.cons_append, List.length_cons, List.length_append, List.length_map,
    List.length_range] at this
  omega

/-- The loop empties the queue, and by then has popped all that arrived. -/
theorem processQue_spec (abc : AbcAig) (hN : N.Strashed) (h₀ : Held N nPi t c₀ T nl) {T' : ℕ}
    (hci : N.nCi = nPi * T') (fuel : ℕ) {D : List Obj}
    (h : TravInv N nPi t c₀ nl g₀ (seenAt N nPi t D) L s) (hL : L.Perm (D ++ s.que))
    (hfuel : nPi + 1 + N.graph.length ≤ fuel + D.length) :
    ∃ s' L', processQue abc N fuel s = some s' ∧
      TravInv N nPi t c₀ nl g₀ (seenAt N nPi t L') L' s' := by
  induction fuel generalizing D L s with
  | zero =>
      have hlen := h.length_le hci
      rw [hL.length_eq, List.length_append] at hlen
      have hque : s.que = [] := List.length_eq_zero_iff.mp (by omega)
      refine ⟨s, L, processQue_nil abc 0 hque, ?_⟩
      rwa [seenAt_congr (show ∀ o, o ∈ L ↔ o ∈ D by simp [hL.mem_iff, hque])]
  | succ fuel ih =>
      cases hq : s.que with
      | nil =>
          refine ⟨s, L, processQue_nil abc _ hq, ?_⟩
          rwa [seenAt_congr (show ∀ o, o ∈ L ↔ o ∈ D by simp [hL.mem_iff, hq])]
      | cons o que =>
          have ho : o ∈ L := hL.mem_iff.mpr (by simp [hq])
          have hoD : o ∉ D := fun hD => by
            have := hL.nodup_iff.mp h.nodup
            rw [hq] at this
            exact (List.nodup_append.mp this).2.2 o hD o (by simp) rfl
          have hstart : TravInv N nPi t c₀ nl g₀ (seenAt N nPi t D) L { s with que := que } :=
            ⟨h.copies, h.suffix, h.nodup, h.leaf, h.node, h.edge, h.old, h.waits, h.outs,
              h.mem_outs, h.out⟩
          obtain ⟨new, s₁, hfold, hque, h₁⟩ := hstart.visit_all abc hN h₀ ho (hN.nodup o)
            (fun f hf => (hN.mem_fanouts o f).mp hf)
            (fun f _ hs => hs.2.elim (fun hlt => absurd (h.frame ho) hlt.ne) hoD)
          have hseen : (fun o' f' => seenAt N nPi t D o' f' ∨ (o' = o ∧ f' ∈ N.fanouts o)) =
              seenAt N nPi t (o :: D) := by
            funext o' f'
            simp only [seenAt, List.mem_cons, hN.mem_fanouts]
            by_cases ho' : o' = o
            · subst ho'
              simp only [true_and, true_or, or_true, and_true, eq_iff_iff]
              tauto
            · simp [ho']
          rw [hseen] at h₁
          have hperm : (new ++ L).Perm (o :: D ++ s₁.que) := by
            rw [hque]
            refine (hL.append_left new).trans ?_
            rw [hq]
            refine List.perm_append_comm_assoc _ _ _ |>.trans ?_
            refine (List.Perm.append_left D List.perm_middle).trans ?_
            exact List.perm_middle
          obtain ⟨s', L', hrun, h'⟩ := ih h₁ hperm (by simp only [List.length_cons]; omega)
          refine ⟨s', L', ?_, h'⟩
          rw [processQue_cons abc fuel hq, hfold]
          exact hrun

/-! ## The end of a frame -/

/-- Every object of the frame has arrived. -/
theorem TravInv.complete (hN : N.Strashed)
    (h : TravInv N nPi t c₀ nl g₀ (seenAt N nPi t L) L s) {o : Obj} (ho : N.Has o)
    (hframe : N.frameOf nPi o = t) : o ∈ L := by
  induction o using Obj.below_induction with
  | h o ih =>
      cases o with
      | const1 => exact h.leaf _ ho hframe
      | pi j => exact h.leaf _ ho hframe
      | bo i => exact h.leaf _ ho hframe
      | node k =>
          obtain ⟨⟨a, b⟩, hk⟩ := Graph.fanins?_isSome (g := N.graph) ho
          have hj := CombNtk.Join.of_fanins hk
          have hmax := hN.frameOf_node nPi hj
          have arrived : ∀ {p q}, N.Join k p q → N.frameOf nPi p ≤ t →
              seenAt N nPi t L p (.node k) := by
            intro p q hpq hle
            refine ⟨hpq.edge, ?_⟩
            rcases hle.lt_or_eq with hlt | heq
            · exact Or.inl hlt
            · exact Or.inr (ih k rfl p (hN.has_fanin hpq).below (hN.has_of_edge hpq.edge) heq)
          rw [h.node hj hframe]
          exact ⟨arrived hj (by omega), arrived hj.symm (by omega)⟩

theorem TravInv.done_seen (hN : N.Strashed)
    (h : TravInv N nPi t c₀ nl g₀ (seenAt N nPi t L) L s) {o : Obj} {f : Fanout} :
    seenAt N nPi t L o f ↔ N.Edge o f ∧ N.frameOf nPi o < t + 1 := by
  constructor
  · rintro ⟨he, hlt | hL⟩
    · exact ⟨he, by omega⟩
    · exact ⟨he, by rw [h.frame hL]; omega⟩
  · rintro ⟨he, hlt⟩
    refine ⟨he, ?_⟩
    rcases Nat.lt_succ_iff_lt_or_eq.mp hlt with hlt | heq
    · exact Or.inl hlt
    · exact Or.inr (h.complete hN (hN.has_of_edge he) heq)

/-- `vMap` now holds what waits for the next frames. -/
theorem TravInv.done_waits (hN : N.Strashed)
    (h : TravInv N nPi t c₀ nl g₀ (seenAt N nPi t L) L s) {k : ℕ} {p : Obj} :
    (k, p) ∈ s.vMap ↔ N.Waiting nPi (t + 1) k p := by
  rw [h.waits]
  refine exists_congr fun q => and_congr_right fun hj => ?_
  rw [h.done_seen hN, h.done_seen hN]
  constructor
  · rintro ⟨⟨-, hp⟩, hq⟩
    exact ⟨hp, Nat.le_of_not_lt fun hlt => hq ⟨hj.symm.edge, hlt⟩⟩
  · rintro ⟨hp, hq⟩
    exact ⟨⟨hj.edge, hp⟩, fun hq' => absurd hq'.2 (Nat.not_lt.mpr hq)⟩

theorem TravInv.done_live (hN : N.Strashed)
    (h : TravInv N nPi t c₀ nl g₀ (seenAt N nPi t L) L s) {k : ℕ} {p : Obj}
    (hw : N.Waiting nPi (t + 1) k p) : Live N nPi t L p := by
  obtain ⟨q, hj, hp, hq⟩ := hw
  rcases Nat.lt_succ_iff_lt_or_eq.mp hp with hlt | heq
  · exact Or.inr (Or.inl ⟨k, q, hj, hlt, by omega⟩)
  · exact Or.inr (Or.inr (h.complete hN (hN.has_of_edge hj.edge) heq))

/-- The outputs recorded in frame `t` are those driven by an object of frame `t`. -/
theorem TravInv.done_outs (hN : N.Strashed)
    (h : TravInv N nPi t c₀ nl g₀ (seenAt N nPi t L) L s) {o : ℕ} :
    o ∈ s.info.map Prod.fst ↔ ∃ d, N.Edge d (.po o) ∧ N.frameOf nPi d = t := by
  rw [h.mem_outs]
  constructor
  · rintro ⟨d, hd, he, -⟩
    exact ⟨d, he, h.frame hd⟩
  · rintro ⟨d, he, hd⟩
    have hL := h.complete hN (hN.has_of_edge he) hd
    exact ⟨d, hL, he, Or.inr hL⟩

/-! ## The beginning of a frame -/

theorem foldl_update_of_ne {α : Type} (f : α → Obj) (v : α → Lit) (l : List α) (copy : Obj → Lit)
    {o : Obj} (h : ∀ a ∈ l, f a ≠ o) :
    l.foldl (fun c a => Function.update c (f a) (v a)) copy o = copy o := by
  induction l generalizing copy with
  | nil => rfl
  | cons a l ih =>
      rw [List.foldl_cons, ih _ fun b hb => h b (List.mem_cons_of_mem _ hb),
        Function.update_of_ne (h a List.mem_cons_self).symm]

theorem foldl_update_of_mem {α : Type} {f : α → Obj} (hf : Function.Injective f) (v : α → Lit)
    (l : List α) (copy : Obj → Lit) {a : α} (h : a ∈ l) :
    l.foldl (fun c a => Function.update c (f a) (v a)) copy (f a) = v a := by
  classical
  induction l generalizing copy with
  | nil => simp at h
  | cons b l ih =>
      by_cases hl : a ∈ l
      · exact ih _ hl
      · obtain rfl : a = b := by simpa [hl] using h
        rw [List.foldl_cons, foldl_update_of_ne f v l _ fun c hc heq => hl (by rwa [hf heq] at hc),
          Function.update_self]

variable {copy : Obj → Lit} {vMap : List (ℕ × Obj)}

theorem mem_initQue {o : Obj} :
    o ∈ (initQue t nPi g₀ copy vMap).que ↔
      (∃ i < nPi, o = .pi (t * nPi + i)) ∨ (t = 0 ∧ o = .const1) := by
  by_cases ht : t = 0 <;> simp [initQue, ht, eq_comm]

theorem initQue_nodup : (initQue t nPi g₀ copy vMap).que.Nodup := by
  simp only [initQue]
  rw [List.nodup_append, List.nodup_reverse]
  refine ⟨List.Nodup.map (fun i j h => by simpa using h) List.nodup_range, by split <;> simp, ?_⟩
  intro o ho o' ho' heq
  subst heq
  by_cases ht : t = 0
  · rw [if_pos ht, List.mem_singleton] at ho'
    subst ho'
    simp at ho
  · simp [ht] at ho'

theorem initQue_pi {i : ℕ} (hi : i < nPi) :
    (initQue t nPi g₀ copy vMap).copy (.pi (t * nPi + i)) = (Obj.pi i).lit :=
  foldl_update_of_mem (f := fun i => Obj.pi (t * nPi + i)) (fun i j h => by simpa using h)
    (fun i => (Obj.pi i).lit) _ copy (List.mem_range.mpr hi)

theorem initQue_other {o : Obj} (h : ∀ i < nPi, o ≠ .pi (t * nPi + i)) :
    (initQue t nPi g₀ copy vMap).copy o = copy o :=
  foldl_update_of_ne _ _ _ copy fun i hi => (h i (List.mem_range.mp hi)).symm

theorem initQue_inv (hN : N.Strashed) {T' : ℕ} (hci : N.nCi = nPi * T') (ht : t < T')
    (h₀ : Held N nPi t copy T nl) (hg : g₀.Ok (Ntk.IsLeaf nPi nl))
    (hv : ∀ {k p}, (k, p) ∈ vMap ↔ N.Waiting nPi t k p) :
    TravInv N nPi t copy nl g₀ (seenAt N nPi t []) (initQue t nPi g₀ copy vMap).que
      (initQue t nPi g₀ copy vMap) := by
  have hpin : ∀ {i}, i < nPi → N.frameOf nPi (.pi (t * nPi + i)) = t := fun {i} hi => by
    rw [CombNtk.frameOf_pi, Nat.mul_comm, Nat.mul_add_div (by omega), Nat.div_eq_of_lt hi,
      Nat.add_zero]
  have hwait : ∀ {k o}, N.Waiting nPi t k o →
      (initQue t nPi g₀ copy vMap).copy o = copy o := fun hw =>
    initQue_other fun i hi heq => by
      have := hw.frame_lt
      rw [heq, hpin hi] at this
      omega
  have hconst : (initQue t nPi g₀ copy vMap).copy .const1 = Obj.const1.lit := by
    rw [initQue_other (by simp), h₀.const1]
  have hlive : ∀ {o}, Live N nPi t (initQue t nPi g₀ copy vMap).que o →
      o = .const1 ∨ (∃ k, N.Waiting nPi t k o) ∨ ∃ i < nPi, o = .pi (t * nPi + i) := by
    rintro o (ho | ho | ho)
    · exact Or.inl ho
    · exact Or.inr (Or.inl ho)
    · rcases mem_initQue.mp ho with ho | ⟨-, ho⟩
      · exact Or.inr (Or.inr ho)
      · exact Or.inl ho
  have harr : ∀ o ∈ (initQue t nPi g₀ copy vMap).que, N.Has o ∧ N.frameOf nPi o = t := by
    intro o ho
    rcases mem_initQue.mp ho with ⟨i, hi, rfl⟩ | ⟨ht, rfl⟩
    · refine ⟨?_, hpin hi⟩
      change t * nPi + i < N.nCi
      have := Nat.mul_le_mul_left nPi ht
      rw [Nat.mul_succ, Nat.mul_comm nPi t, ← hci] at this
      omega
    · exact ⟨trivial, by simp [ht]⟩
  refine ⟨⟨hg, harr, hconst, hwait, fun {j} hj => ?_, fun {k} hk => ?_,
    fun {o} ho => ?_, fun {o} ho {x e} hm => ?_⟩, List.suffix_refl _, initQue_nodup,
      fun o ho hf => ?_,
    fun {k p q} hj hk => ?_, fun {o f} hs => ?_, fun he hlt => ⟨he, Or.inl hlt⟩,
    fun {k p} => ?_, by simp [initQue], fun {o} => ?_, by simp [initQue]⟩
  · obtain ⟨i, hi, hij⟩ : ∃ i < nPi, j = t * nPi + i := by simpa [mem_initQue] using hj
    subst hij
    rw [initQue_pi hi, Nat.add_sub_cancel_left]
  · simp [mem_initQue] at hk
  · rcases hlive ho with rfl | ⟨k, hw⟩ | ⟨i, hi, rfl⟩
    · rw [hconst]; trivial
    · obtain ⟨j, -, hj, hc⟩ := h₀.bo hw
      rw [hwait hw, hc]
      exact hj
    · rw [initQue_pi hi]
      exact hi
  · rcases hlive ho with rfl | ⟨k, hw⟩ | ⟨i, hi, rfl⟩
    · rw [hconst]; simp [CombNtk.val, Obj.lit]
    · obtain ⟨j, -, -, hc⟩ := h₀.bo hw
      rw [hwait hw, hc, ← hm.held hw hc]
      simp [Obj.lit]
    · rw [initQue_pi hi]
      simp [CombNtk.val, Obj.lit, hm.pin i hi]
  · rw [mem_initQue]
    cases o with
    | const1 => exact Or.inr ⟨by simpa using hf.symm, rfl⟩
    | pi j =>
        rw [CombNtk.frameOf_pi] at hf
        obtain ⟨i, hi, rfl⟩ := CombNtk.exists_pin hci ho hf
        exact Or.inl ⟨i, hi, rfl⟩
    | bo i => exact absurd ho (Nat.not_lt_zero i)
    | node k => exact absurd ho (Nat.not_lt_zero k)
  · have hmax := hN.frameOf_node nPi hj
    constructor
    · intro hmem
      simp [mem_initQue] at hmem
    · rintro ⟨⟨-, hp⟩, -, hq⟩
      simp only [List.not_mem_nil, or_false] at hp hq
      omega
  · exact ⟨hs.1, hs.2.imp_right (by simp)⟩
  · change (k, p) ∈ vMap ↔ _
    rw [hv]
    refine exists_congr fun q => and_congr_right fun hj => ?_
    simp [seenAt, hj.edge, hj.symm.edge]
  · constructor
    · simp [initQue]
    · rintro ⟨d, hd, -, hlt | hmem⟩
      · exact absurd (harr d hd).2 hlt.ne
      · simp at hmem

end ExtFolding.TimeMux4
