import ExtFolding.Lib.Loop
import Mathlib.Data.Finset.Card

/-!
# Marking what is reachable

Nodes are marked in a state, possibly together with a mirror image. A recursive search and a
work list both mark every node that can be reached from marked ones and no other; each pushes a
node only when it is marked for the first time, so both end.
-/

namespace ExtFolding

/-- How a state carries the marks of finitely many nodes; `mirror` is marked with each node. -/
structure Marking (α σ : Type) where
  nodes : Finset α
  mirror : α → α
  ok : σ → Prop
  marked : σ → α → Bool
  mark : σ → α → σ
  mirror_mem : ∀ {a}, a ∈ nodes → mirror a ∈ nodes
  mirror_mirror : ∀ a, mirror (mirror a) = a
  ok_mark : ∀ {s a}, ok s → a ∈ nodes → ok (mark s a)
  marked_mark : ∀ {s a b}, ok s → a ∈ nodes → b ∈ nodes →
    (marked (mark s a) b = true ↔ b = a ∨ b = mirror a ∨ marked s b = true)

namespace Marking

variable {α σ : Type} (M : Marking α σ) (succs : α → List α)

/-- Marks of `s` are marks of `s'`. -/
def Sub (s s' : σ) : Prop := ∀ a ∈ M.nodes, M.marked s a = true → M.marked s' a = true

/-- Mirror images are marked together. -/
def Even (s : σ) : Prop := ∀ a ∈ M.nodes, M.marked s a = true → M.marked s (M.mirror a) = true

/-- All successors of `a` are marked. -/
def Closed (s : σ) (a : α) : Prop := ∀ c ∈ succs a, M.marked s c = true

/-- Successors of nodes are nodes, and mirror images have mirrored successors. -/
structure Graph : Prop where
  mem : ∀ {a c}, a ∈ M.nodes → c ∈ succs a → c ∈ M.nodes
  mirror : ∀ {a c}, a ∈ M.nodes → c ∈ succs (M.mirror a) → M.mirror c ∈ succs a

/-- A property that successors and mirror images inherit. -/
structure Inherited (P : α → Prop) : Prop where
  succ : ∀ {a c}, a ∈ M.nodes → P a → c ∈ succs a → P c
  mirror : ∀ {a}, a ∈ M.nodes → P a → P (M.mirror a)

/-- The nodes without a mark. -/
def unmarked (s : σ) : Finset α := M.nodes.filter fun a => M.marked s a = false

/-- Recursive marking: successors without a mark are marked and visited. -/
def visit : ℕ → α → σ → Option σ
  | 0, _, _ => none
  | fuel + 1, a, s =>
      (succs a).foldlM (fun s b =>
        if M.marked s b then some s else visit fuel b (M.mark s b)) s

/-- What is done with a successor of the front of a work list. -/
def push (p : List α × σ) (b : α) : List α × σ :=
  if M.marked p.2 b then p else (p.1 ++ [b], M.mark p.2 b)

/-- Marking with a work list. -/
def drain : ℕ → List α → σ → Option σ
  | _, [], s => some s
  | 0, _ :: _, _ => none
  | fuel + 1, a :: queue, s =>
      let p := (succs a).foldl M.push (queue, s)
      drain fuel p.1 p.2

variable {M succs} {s s' s'' : σ} {a b : α}

theorem Sub.trans (h : M.Sub s s') (h' : M.Sub s' s'') : M.Sub s s'' := fun a ha hm =>
  h' a ha (h a ha hm)

theorem sub_mark (hs : M.ok s) (ha : a ∈ M.nodes) : M.Sub s (M.mark s a) := fun _ hb hm =>
  (M.marked_mark hs ha hb).mpr (Or.inr (Or.inr hm))

theorem marked_mark_self (hs : M.ok s) (ha : a ∈ M.nodes) : M.marked (M.mark s a) a = true :=
  (M.marked_mark hs ha ha).mpr (Or.inl rfl)

theorem Even.mark (h : M.Even s) (hs : M.ok s) (ha : a ∈ M.nodes) : M.Even (M.mark s a) := by
  intro b hb hm
  rw [M.marked_mark hs ha (M.mirror_mem hb)]
  rcases (M.marked_mark hs ha hb).mp hm with rfl | rfl | hm
  · exact Or.inr (Or.inl rfl)
  · exact Or.inl (M.mirror_mirror a)
  · exact Or.inr (Or.inr (h b hb hm))

theorem Closed.sub (hg : M.Graph succs) (ha : a ∈ M.nodes) (h : M.Closed succs s a)
    (hsub : M.Sub s s') : M.Closed succs s' a := fun c hc => hsub c (hg.mem ha hc) (h c hc)

theorem Closed.mirror (hg : M.Graph succs) (he : M.Even s) (ha : a ∈ M.nodes)
    (h : M.Closed succs s a) : M.Closed succs s (M.mirror a) := by
  intro c hc
  have hmem := hg.mirror ha hc
  have := he _ (hg.mem ha hmem) (h _ hmem)
  rwa [M.mirror_mirror] at this

theorem unmarked_sub (h : M.Sub s s') : (M.unmarked s').card ≤ (M.unmarked s).card := by
  refine Finset.card_le_card fun a ha => ?_
  obtain ⟨hmem, hfalse⟩ := Finset.mem_filter.mp ha
  refine Finset.mem_filter.mpr ⟨hmem, ?_⟩
  by_contra hne
  rw [h a hmem (by simpa using hne)] at hfalse
  exact Bool.noConfusion hfalse

theorem unmarked_mark (hs : M.ok s) (ha : a ∈ M.nodes) (hm : M.marked s a = false) :
    (M.unmarked (M.mark s a)).card < (M.unmarked s).card := by
  refine Finset.card_lt_card (Finset.ssubset_iff_subset_ne.mpr ⟨fun b hb => ?_, fun heq => ?_⟩)
  · obtain ⟨hmem, hfalse⟩ := Finset.mem_filter.mp hb
    refine Finset.mem_filter.mpr ⟨hmem, ?_⟩
    by_contra hne
    rw [sub_mark hs ha b hmem (by simpa using hne)] at hfalse
    exact Bool.noConfusion hfalse
  · have hin : a ∈ M.unmarked s := Finset.mem_filter.mpr ⟨ha, hm⟩
    rw [← heq] at hin
    have := (Finset.mem_filter.mp hin).2
    rw [marked_mark_self hs ha] at this
    exact Bool.noConfusion this

/-- What a search from the nodes `as` has done to the marks of `s`: nothing is taken back, the
successors of `as` and of all new marks are marked, and inherited properties of the marks stay. -/
structure Searched (M : Marking α σ) (succs : α → List α) (as : List α) (s s' : σ) : Prop where
  ok : M.ok s'
  even : M.Even s'
  sub : M.Sub s s'
  start : ∀ a ∈ as, M.Closed succs s' a
  closed : ∀ b ∈ M.nodes, M.marked s' b = true → M.marked s b = true ∨ M.Closed succs s' b
  sound : ∀ P, M.Inherited succs P → (∀ a ∈ as, P a) →
    (∀ b ∈ M.nodes, M.marked s b = true → P b) → ∀ b ∈ M.nodes, M.marked s' b = true → P b

/-- The marks after the successors `pre` of `a` have been visited. -/
structure VisitInv (M : Marking α σ) (succs : α → List α) (a : α) (s : σ) (pre : List α) (s' : σ) :
    Prop where
  ok : M.ok s'
  even : M.Even s'
  sub : M.Sub s s'
  done : ∀ c ∈ pre, M.marked s' c = true
  closed : ∀ b ∈ M.nodes, M.marked s' b = true → M.marked s b = true ∨ M.Closed succs s' b
  sound : ∀ P, M.Inherited succs P → P a →
    (∀ b ∈ M.nodes, M.marked s b = true → P b) → ∀ b ∈ M.nodes, M.marked s' b = true → P b

/-- A successor is marked and searched from. -/
theorem VisitInv.step (hg : M.Graph succs) {pre : List α} (h : M.VisitInv succs a s pre s')
    (ha : a ∈ M.nodes) (hpre : ∀ c ∈ pre, c ∈ M.nodes) (hb : b ∈ succs a)
    (hv : M.Searched succs [b] (M.mark s' b) s'') : M.VisitInv succs a s (pre ++ [b]) s'' := by
  have hbn := hg.mem ha hb
  have hsub : M.Sub s' s'' := (sub_mark h.ok hbn).trans hv.sub
  have hclosed := hv.start b (List.mem_singleton_self b)
  refine ⟨hv.ok, hv.even, h.sub.trans hsub, fun c hc => ?_, fun c hc hm => ?_,
    fun P hP hPa hPs c hc hm => ?_⟩
  · rcases List.mem_append.mp hc with hc | hc
    · exact hsub c (hpre c hc) (h.done c hc)
    · rw [List.mem_singleton.mp hc]
      exact hv.sub b hbn (marked_mark_self h.ok hbn)
  · rcases hv.closed c hc hm with hm | hcl
    · rcases (M.marked_mark h.ok hbn hc).mp hm with rfl | rfl | hm
      · exact Or.inr hclosed
      · exact Or.inr (hclosed.mirror hg hv.even hbn)
      · exact (h.closed c hc hm).imp_right fun hcl => hcl.sub hg hc hsub
    · exact Or.inr hcl
  · have hPb : P b := hP.succ ha hPa hb
    refine hv.sound P hP (fun d hd => List.mem_singleton.mp hd ▸ hPb) (fun d hd hm => ?_) c hc hm
    rcases (M.marked_mark h.ok hbn hd).mp hm with rfl | rfl | hm
    · exact hPb
    · exact hP.mirror hbn hPb
    · exact h.sound P hP hPa hPs d hd hm

/-- A recursive search with fuel for every node without a mark. -/
theorem visit_spec (hg : M.Graph succs) : ∀ (fuel : ℕ) (a : α) (s : σ), M.ok s → M.Even s →
    a ∈ M.nodes → (M.unmarked s).card < fuel →
    ∃ s', M.visit succs fuel a s = some s' ∧ M.Searched succs [a] s s' := by
  intro fuel
  induction fuel with
  | zero => exact fun a s _ _ _ h => absurd h (Nat.not_lt_zero _)
  | succ fuel ih =>
      intro a s hs he ha hfuel
      have hinit : M.VisitInv succs a s [] s :=
        ⟨hs, he, fun _ _ h => h, by simp, fun _ _ h => Or.inl h, fun _ _ _ hP => hP⟩
      obtain ⟨s', hrun, h'⟩ := foldlM_some
        (f := fun s b => if M.marked s b then some s else M.visit succs fuel b (M.mark s b))
        (M.VisitInv succs a s)
        (by
          intro pre b post s₁ hl h₁
          have hmem : ∀ c ∈ pre ++ b :: post, c ∈ M.nodes := fun c hc => hg.mem ha (hl ▸ hc)
          have hb : b ∈ succs a := hl ▸ by simp
          by_cases hm : M.marked s₁ b = true
          · refine ⟨s₁, if_pos hm, h₁.ok, h₁.even, h₁.sub, fun c hc => ?_, h₁.closed,
              h₁.sound⟩
            rcases List.mem_append.mp hc with hc | hc
            · exact h₁.done c hc
            · rwa [List.mem_singleton.mp hc]
          · have hbn := hg.mem ha hb
            have hlt : (M.unmarked (M.mark s₁ b)).card < fuel :=
              calc (M.unmarked (M.mark s₁ b)).card
                  < (M.unmarked s₁).card := unmarked_mark h₁.ok hbn (by simpa using hm)
                _ ≤ (M.unmarked s).card := unmarked_sub h₁.sub
                _ ≤ fuel := Nat.lt_succ_iff.mp hfuel
            obtain ⟨s₂, hrun, h₂⟩ :=
              ih b (M.mark s₁ b) (M.ok_mark h₁.ok hbn) (h₁.even.mark h₁.ok hbn) hbn hlt
            exact ⟨s₂, (if_neg hm).trans hrun,
              h₁.step hg ha (fun c hc => hmem c (List.mem_append_left _ hc)) hb h₂⟩)
        hinit (l := succs a)
      refine ⟨s', hrun, h'.ok, h'.even, h'.sub, fun c hc => ?_, h'.closed,
        fun P hP hPa => h'.sound P hP (hPa a (List.mem_singleton_self a))⟩
      rw [List.mem_singleton.mp hc]
      exact h'.done

/-! ## Work lists -/

/-- The work list and the marks after the successors `pre` have been looked at; `new` has been
pushed. -/
structure PushInv (M : Marking α σ) (queue : List α) (s : σ) (pre : List α) (p : List α × σ)
    (new : List α) : Prop where
  queue : p.1 = queue ++ new
  ok : M.ok p.2
  even : M.Even p.2
  fresh : ∀ c ∈ new, c ∈ pre
  done : ∀ c ∈ pre, M.marked p.2 c = true
  marked : ∀ b ∈ M.nodes,
    (M.marked p.2 b = true ↔ b ∈ new ∨ M.mirror b ∈ new ∨ M.marked s b = true)
  card : (M.unmarked p.2).card + new.length ≤ (M.unmarked s).card

theorem push_inv {queue l : List α} (hs : M.ok s) (he : M.Even s) (hl : ∀ c ∈ l, c ∈ M.nodes) :
    ∃ new, M.PushInv queue s l (l.foldl M.push (queue, s)) new := by
  refine foldl_inv (fun pre p => ∃ new, M.PushInv queue s pre p new)
    (fun pre b post p hsplit hp => ?_)
    ⟨[], by simp, hs, he, by simp, by simp, by simp, by simp⟩
  obtain ⟨new, hp⟩ := hp
  have hb : b ∈ M.nodes := hl b (hsplit ▸ by simp)
  have hpre : ∀ c ∈ pre, c ∈ M.nodes := fun c hc => hl c (hsplit ▸ by simp [hc])
  unfold push
  by_cases hm : M.marked p.2 b = true
  · rw [if_pos hm]
    refine ⟨new, hp.queue, hp.ok, hp.even, fun c hc => List.mem_append_left _ (hp.fresh c hc),
      fun c hc => ?_, hp.marked, hp.card⟩
    rcases List.mem_append.mp hc with hc | hc
    · exact hp.done c hc
    · rwa [List.mem_singleton.mp hc]
  · rw [if_neg hm]
    refine ⟨new ++ [b], by rw [hp.queue, List.append_assoc], M.ok_mark hp.ok hb,
      hp.even.mark hp.ok hb, fun c hc => ?_, fun c hc => ?_, fun c hc => ?_, ?_⟩
    · rcases List.mem_append.mp hc with hc | hc
      · exact List.mem_append_left _ (hp.fresh c hc)
      · exact List.mem_append_right _ hc
    · rcases List.mem_append.mp hc with hc | hc
      · exact sub_mark hp.ok hb c (hpre c hc) (hp.done c hc)
      · rw [List.mem_singleton.mp hc]
        exact marked_mark_self hp.ok hb
    · have hmir : c = M.mirror b ↔ M.mirror c = b :=
        ⟨fun h => by rw [h, M.mirror_mirror], fun h => by rw [← h, M.mirror_mirror]⟩
      rw [M.marked_mark hp.ok hb hc, hp.marked c hc, List.mem_append, List.mem_append,
        List.mem_singleton, List.mem_singleton, hmir]
      tauto
    · have hlt := unmarked_mark hp.ok hb (by simpa using hm)
      calc (M.unmarked (M.mark p.2 b)).card + (new ++ [b]).length
          = (M.unmarked (M.mark p.2 b)).card + 1 + new.length := by
            rw [List.length_append, List.length_singleton, Nat.add_right_comm, Nat.add_assoc]
        _ ≤ (M.unmarked p.2).card + new.length := Nat.add_le_add_right hlt _
        _ ≤ (M.unmarked s).card := hp.card

/-- A work list with fuel for its entries and every node without a mark. -/
theorem drain_spec (hg : M.Graph succs) : ∀ (fuel : ℕ) (queue : List α) (s : σ), M.ok s →
    M.Even s → (∀ a ∈ queue, a ∈ M.nodes) → queue.length + (M.unmarked s).card ≤ fuel →
    ∃ s', M.drain succs fuel queue s = some s' ∧ M.Searched succs queue s s' := by
  intro fuel
  induction fuel with
  | zero =>
      intro queue s hs he _ hfuel
      obtain rfl : queue = [] := List.length_eq_zero_iff.mp (by omega)
      exact ⟨s, rfl, hs, he, fun _ _ h => h, by simp, fun _ _ h => Or.inl h, fun _ _ _ hP => hP⟩
  | succ fuel ih =>
      intro queue s hs he hq hfuel
      cases queue with
      | nil =>
          exact ⟨s, rfl, hs, he, fun _ _ h => h, by simp, fun _ _ h => Or.inl h, fun _ _ _ hP => hP⟩
      | cons a queue =>
          have ha := hq a List.mem_cons_self
          have hsucc : ∀ c ∈ succs a, c ∈ M.nodes := fun c hc => hg.mem ha hc
          obtain ⟨new, hp⟩ : ∃ new, M.PushInv queue s (succs a) ((succs a).foldl M.push (queue, s))
              new := push_inv hs he hsucc
          set p := (succs a).foldl M.push (queue, s)
          have hnew : ∀ c ∈ new, c ∈ succs a := hp.fresh
          have hlen : p.1.length + (M.unmarked p.2).card ≤ fuel := by
            have := hp.card
            rw [hp.queue, List.length_append]
            rw [List.length_cons] at hfuel
            omega
          obtain ⟨s', hrun, h'⟩ := ih p.1 p.2 hp.ok hp.even
            (fun c hc => by
              rcases List.mem_append.mp (hp.queue ▸ hc) with hc | hc
              · exact hq c (List.mem_cons_of_mem _ hc)
              · exact hsucc c (hnew c hc)) hlen
          have hin : ∀ c ∈ new, c ∈ p.1 := fun c hc => hp.queue ▸ List.mem_append_right _ hc
          refine ⟨s', hrun, h'.ok, h'.even, Sub.trans (fun b hb hm => ?_) h'.sub, fun c hc => ?_,
            fun b hb hm => ?_, fun P hP hPq hPs => ?_⟩
          · exact (hp.marked b hb).mpr (Or.inr (Or.inr hm))
          · rcases List.mem_cons.mp hc with rfl | hc
            · exact fun d hd => h'.sub d (hsucc d hd) (hp.done d hd)
            · exact h'.start c (hp.queue ▸ List.mem_append_left _ hc)
          · rcases h'.closed b hb hm with hm | hcl
            · rcases (hp.marked b hb).mp hm with hb' | hb' | hm
              · exact Or.inr (h'.start b (hin b hb'))
              · have := (h'.start _ (hin _ hb')).mirror hg h'.even (hsucc _ (hnew _ hb'))
                rw [M.mirror_mirror] at this
                exact Or.inr this
              · exact Or.inl hm
            · exact Or.inr hcl
          · have hPnew : ∀ c ∈ new, P c := fun c hc =>
              hP.succ ha (hPq a List.mem_cons_self) (hnew c hc)
            refine h'.sound P hP (fun c hc => ?_) fun b hb hm => ?_
            · rcases List.mem_append.mp (hp.queue ▸ hc) with hc | hc
              · exact hPq c (List.mem_cons_of_mem _ hc)
              · exact hPnew c hc
            · rcases (hp.marked b hb).mp hm with hb' | hb' | hm
              · exact hPnew b hb'
              · have := hP.mirror (hsucc _ (hnew _ hb')) (hPnew _ hb')
                rwa [M.mirror_mirror] at this
              · exact hPs b hb hm

/-- What marking one more node preserves is true of the marks at the end. -/
theorem drain_inv (hg : M.Graph succs) {I : σ → Prop}
    (hI : ∀ {s a}, I s → a ∈ M.nodes → M.marked s a = false → I (M.mark s a)) :
    ∀ (fuel : ℕ) (queue : List α) (s : σ), (∀ a ∈ queue, a ∈ M.nodes) → I s →
      M.drain succs fuel queue s = some s' → I s' := by
  intro fuel
  induction fuel with
  | zero =>
      intro queue s hq hs hrun
      cases queue with
      | nil => exact Option.some.inj hrun ▸ hs
      | cons a queue => exact absurd hrun (by simp [drain])
  | succ fuel ih =>
      intro queue s hq hs hrun
      cases queue with
      | nil => exact Option.some.inj hrun ▸ hs
      | cons a queue =>
          have ha := hq a List.mem_cons_self
          have hp : (∀ b ∈ ((succs a).foldl M.push (queue, s)).1, b ∈ M.nodes) ∧
              I ((succs a).foldl M.push (queue, s)).2 := by
            refine foldl_inv (fun _ (p : List α × σ) => (∀ b ∈ p.1, b ∈ M.nodes) ∧ I p.2)
              (fun pre b post p hl hp => ?_) ⟨fun b hb => hq b (List.mem_cons_of_mem _ hb), hs⟩
            have hb : b ∈ M.nodes := hg.mem ha (hl ▸ by simp)
            unfold push
            split
            · exact hp
            · next hm =>
                refine ⟨fun c hc => ?_, hI hp.2 hb (by simpa using hm)⟩
                rcases List.mem_append.mp hc with hc | hc
                · exact hp.1 c hc
                · exact List.mem_singleton.mp hc ▸ hb
          exact ih _ _ hp.1 hp.2 hrun

/-! ## Flags -/

theorem getD_set {β : Type} {l : List β} {a b : ℕ} {v d : β} (ha : a < l.length) :
    (l.set a v).getD b d = if b = a then v else l.getD b d := by
  rw [List.getD_eq_getElem?_getD, List.getD_eq_getElem?_getD, List.getElem?_set]
  by_cases h : b = a
  · subst h
    simp [ha]
  · simp [h, Ne.symm h]

theorem lt_of_flag {fl : List Bool} {a : ℕ} (h : fl.getD a false = true) : a < fl.length := by
  by_contra ha
  rw [List.getD_eq_getElem?_getD, List.getElem?_eq_none (Nat.le_of_not_lt ha)] at h
  exact Bool.noConfusion h

/-- One flag a node. -/
def flags (n : ℕ) : Marking ℕ (List Bool) where
  nodes := Finset.range n
  mirror a := a
  ok fl := fl.length = n
  marked fl a := fl.getD a false
  mark fl a := fl.set a true
  mirror_mem h := h
  mirror_mirror _ := rfl
  ok_mark hs _ := by rw [List.length_set, hs]
  marked_mark {s a b} hs ha _ := by
    rw [getD_set (hs ▸ Finset.mem_range.mp ha)]
    by_cases h : b = a <;> simp [h]

end Marking

end ExtFolding
