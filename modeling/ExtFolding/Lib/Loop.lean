import Mathlib.Tactic

/-!
# Loop rules

A `for` loop is `List.foldl`, one with early failure `List.foldlM` in `Option`. The rules
take an invariant indexed by the part of the list already handled.
-/

namespace ExtFolding

theorem foldlM_some {α β : Type} {f : β → α → Option β} (I : List α → β → Prop) {l : List α}
    (step : ∀ pre a post b, pre ++ a :: post = l → I pre b →
      ∃ b', f b a = some b' ∧ I (pre ++ [a]) b')
    {b : β} (h : I [] b) : ∃ b', l.foldlM f b = some b' ∧ I l b' := by
  have key : ∀ post pre b, pre ++ post = l → I pre b →
      ∃ b', post.foldlM f b = some b' ∧ I l b' := by
    intro post
    induction post with
    | nil =>
        intro pre b hl hI
        rw [List.append_nil] at hl
        exact ⟨b, rfl, hl ▸ hI⟩
    | cons a post ih =>
        intro pre b hl hI
        obtain ⟨b₁, hb₁, h₁⟩ := step pre a post b hl hI
        obtain ⟨b₂, hb₂, h₂⟩ := ih (pre ++ [a]) b₁ (by simpa using hl) h₁
        refine ⟨b₂, ?_, h₂⟩
        rw [List.foldlM_cons, hb₁]
        exact hb₂
  exact key l [] b rfl h

/-- A counting loop as the sequence of its states. -/
theorem foldlM_range {β : Type} {f : β → ℕ → Option β} (I : ℕ → β → Prop) {n : ℕ}
    (step : ∀ i < n, ∀ b, I i b → ∃ b', f b i = some b' ∧ I (i + 1) b') {b : β} (h : I 0 b) :
    ∃ s : ℕ → β, s 0 = b ∧ (∀ i ≤ n, I i (s i)) ∧ (∀ i < n, f (s i) i = some (s (i + 1))) ∧
      (List.range n).foldlM f b = some (s n) := by
  let s : ℕ → β := fun i => i.rec b fun i b => (f b i).getD b
  have hs : ∀ i ≤ n, I i (s i) := by
    intro i
    induction i with
    | zero => exact fun _ => h
    | succ i ih =>
        intro hi
        obtain ⟨b', hb', hI⟩ := step i hi (s i) (ih (Nat.le_of_succ_le hi))
        show I (i + 1) ((f (s i) i).getD (s i))
        rwa [hb']
  have hstep : ∀ i < n, f (s i) i = some (s (i + 1)) := by
    intro i hi
    obtain ⟨b', hb', -⟩ := step i hi (s i) (hs i hi.le)
    show f (s i) i = some ((f (s i) i).getD (s i))
    rw [hb', Option.getD_some]
  refine ⟨s, rfl, hs, hstep, ?_⟩
  clear step hs h
  induction n with
  | zero => rfl
  | succ n ih =>
      rw [List.range_succ, List.foldlM_append, ih fun i hi => hstep i (Nat.lt_succ_of_lt hi)]
      show [n].foldlM f (s n) = _
      rw [List.foldlM_cons, hstep n (Nat.lt_succ_self n)]
      rfl

/-- A loop that counts down to `0`. -/
theorem foldlM_range_reverse {β : Type} {f : β → ℕ → Option β} (I : ℕ → β → Prop) {n : ℕ}
    (step : ∀ i < n, ∀ b, I (i + 1) b → ∃ b', f b i = some b' ∧ I i b') {b : β} (h : I n b) :
    ∃ s : ℕ → β, s n = b ∧ (∀ i ≤ n, I i (s i)) ∧ (∀ i < n, f (s (i + 1)) i = some (s i)) ∧
      (List.range n).reverse.foldlM f b = some (s 0) := by
  have hsub : ∀ k < n, n - k = n - 1 - k + 1 ∧ n - (k + 1) = n - 1 - k := by omega
  have hstep' : ∀ k < n, ∀ b, I (n - k) b → ∃ b', f b (n - 1 - k) = some b' ∧
    I (n - (k + 1)) b' := by
    intro k hk b hb
    rw [(hsub k hk).1] at hb
    rw [(hsub k hk).2]
    exact step (n - 1 - k) (by omega) b hb
  obtain ⟨s, h0, hI, hs, hrun⟩ := foldlM_range (f := fun b k => f b (n - 1 - k))
    (fun k => I (n - k)) hstep' h
  refine ⟨fun i => s (n - i), ?_, fun i hi => ?_, fun i hi => ?_, ?_⟩
  · show s (n - n) = b
    rw [Nat.sub_self, h0]
  · have := hI (n - i) (Nat.sub_le _ _)
    rwa [Nat.sub_sub_self hi] at this
  · have := hs (n - (i + 1)) (by omega)
    rwa [show n - 1 - (n - (i + 1)) = i by omega, show n - (i + 1) + 1 = n - i by omega] at this
  · show _ = some (s (n - 0))
    rw [Nat.sub_zero, ← hrun, List.range_eq_range', List.reverse_range', List.foldlM_map,
      ← List.range_eq_range']
    simp

/-- A loop that ends: the invariant at the end, and every step has been taken from it. -/
theorem foldlM_inv {α β : Type} {f : β → α → Option β} {I : β → Prop} {l : List α}
    (step : ∀ b a b', I b → f b a = some b' → I b') {b b' : β} (hb : I b)
    (h : l.foldlM f b = some b') :
    I b' ∧ ∀ a ∈ l, ∃ b₁ b₂, I b₁ ∧ f b₁ a = some b₂ := by
  induction l generalizing b with
  | nil => exact ⟨Option.some.inj h ▸ hb, fun _ ha => absurd ha List.not_mem_nil⟩
  | cons a l ih =>
      rw [List.foldlM_cons] at h
      obtain ⟨b₁, hb₁, h⟩ := Option.bind_eq_some_iff.mp h
      obtain ⟨hend, hmem⟩ := ih (step b a b₁ hb hb₁) h
      refine ⟨hend, fun a' ha' => ?_⟩
      rcases List.mem_cons.mp ha' with rfl | ha'
      · exact ⟨b, b₁, hb, hb₁⟩
      · exact hmem a' ha'

theorem mapM_some {α β : Type} {f : α → Option β} {l : List α}
    (h : ∀ a ∈ l, ∃ b, f a = some b) : ∃ bs, l.mapM f = some bs := by
  induction l with
  | nil => exact ⟨[], rfl⟩
  | cons a l ih =>
      obtain ⟨b, hb⟩ := h a List.mem_cons_self
      obtain ⟨bs, hbs⟩ := ih fun a' ha' => h a' (List.mem_cons_of_mem _ ha')
      exact ⟨b :: bs, by simp [List.mapM_cons, hb, hbs]⟩

theorem mapM_some_mem {α β : Type} {f : α → Option β} {l : List α} {bs : List β}
    (h : l.mapM f = some bs) {a : α} (ha : a ∈ l) : ∃ b, f a = some b := by
  induction l generalizing bs with
  | nil => exact absurd ha List.not_mem_nil
  | cons a' l ih =>
      rw [List.mapM_cons] at h
      obtain ⟨b, hb, h⟩ := Option.bind_eq_some_iff.mp h
      obtain ⟨bs', hbs', -⟩ := Option.bind_eq_some_iff.mp h
      rcases List.mem_cons.mp ha with rfl | ha
      · exact ⟨b, hb⟩
      · exact ih hbs' ha

/-- Enough fuel for each element is enough for all. -/
theorem mapM_fuel {α β : Type} {f : ℕ → α → Option β} {Q : α → β → Prop} {l : List α}
    (h : ∀ a ∈ l, ∃ N, ∀ fuel ≥ N, ∃ b, f fuel a = some b ∧ Q a b) :
    ∃ N, ∀ fuel ≥ N, ∃ bs, l.mapM (f fuel) = some bs ∧ List.Forall₂ Q l bs := by
  induction l with
  | nil => exact ⟨0, fun _ _ => ⟨[], rfl, .nil⟩⟩
  | cons a l ih =>
      obtain ⟨ha, hl⟩ := List.forall_mem_cons.mp h
      obtain ⟨N₁, h₁⟩ := ha
      obtain ⟨N₂, h₂⟩ := ih hl
      refine ⟨max N₁ N₂, fun fuel hfuel => ?_⟩
      obtain ⟨b, hb, hab⟩ := h₁ fuel ((le_max_left ..).trans hfuel)
      obtain ⟨bs, hbs, hall⟩ := h₂ fuel ((le_max_right ..).trans hfuel)
      exact ⟨b :: bs, by simp [List.mapM_cons, hb, hbs], .cons hab hall⟩

theorem mapM_eq_map {α β : Type} {f : α → Option β} {g : α → β} {l : List α}
    (h : ∀ a ∈ l, f a = some (g a)) : l.mapM f = some (l.map g) := by
  induction l with
  | nil => rfl
  | cons a l ih =>
      rw [List.mapM_cons, h a List.mem_cons_self, ih fun a' ha' =>
        h a' (List.mem_cons_of_mem _ ha')]
      rfl

/-- What a `mapM` that succeeds returns. -/
theorem eq_map_of_mapM {α β : Type} {f : α → Option β} {g : α → β} {l : List α} {bs : List β}
    (h : l.mapM f = some bs) (hg : ∀ a ∈ l, ∀ b, f a = some b → b = g a) : bs = l.map g := by
  have hmap : l.mapM f = some (l.map g) := mapM_eq_map fun a ha => by
    obtain ⟨b, hb⟩ := mapM_some_mem h ha
    rw [hb, hg a ha b hb]
  exact Option.some.inj (h.symm.trans hmap)

/-- Reading entries one after another. -/
theorem mapM_range_some {α : Type} {f : ℕ → Option α} {n : ℕ} (h : ∀ k < n, ∃ a, f k = some a) :
    ∃ as, (List.range n).mapM f = some as ∧ as.length = n ∧ ∀ k < n, as[k]? = f k := by
  induction n with
  | zero => exact ⟨[], rfl, rfl, fun k hk => absurd hk (Nat.not_lt_zero k)⟩
  | succ n ih =>
      obtain ⟨as, has, hlen, hget⟩ := ih fun k hk => h k (Nat.lt_succ_of_lt hk)
      obtain ⟨a, ha⟩ := h n (Nat.lt_succ_self n)
      refine ⟨as ++ [a], by simp [List.range_succ, has, ha], by simp [hlen], fun k hk => ?_⟩
      rcases Nat.lt_succ_iff_lt_or_eq.mp hk with hlt | rfl
      · rw [List.getElem?_append_left (hlen.symm ▸ hlt), hget k hlt]
      · subst hlen
        rw [List.getElem?_concat_length, ha]

theorem foldl_inv {α β : Type} {f : β → α → β} (I : List α → β → Prop) {l : List α}
    (step : ∀ pre a post b, pre ++ a :: post = l → I pre b → I (pre ++ [a]) (f b a))
    {b : β} (h : I [] b) : I l (l.foldl f b) := by
  have key : ∀ post pre b, pre ++ post = l → I pre b → I l (post.foldl f b) := by
    intro post
    induction post with
    | nil =>
        intro pre b hl hI
        rw [List.append_nil] at hl
        exact hl ▸ hI
    | cons a post ih =>
        intro pre b hl hI
        exact ih (pre ++ [a]) (f b a) (by simpa using hl) (step pre a post b hl hI)
  exact key l [] b rfl h

/-- Where a loop with a counter stands. -/
theorem zipIdx_split {α : Type} {l : List α} {pre post : List (α × ℕ)} {a : α} {n : ℕ}
    (h : pre ++ (a, n) :: post = l.zipIdx) :
    l[n]? = some a ∧ ∀ b m, (b, m) ∈ pre → m < n ∧ l[m]? = some b := by
  have hat : ∀ (k : ℕ) (b : α) (m : ℕ), (pre ++ (a, n) :: post)[k]? = some (b, m) → m = k ∧
    l[k]? = some b := by
    intro k b m hk
    rw [h, List.getElem?_zipIdx, Option.map_eq_some_iff] at hk
    obtain ⟨b', hb', heq⟩ := hk
    cases heq
    exact ⟨Nat.zero_add k, hb'⟩
  have hn := hat pre.length a n (by simp)
  refine ⟨hn.1 ▸ hn.2, fun b m hm => ?_⟩
  obtain ⟨k, hk⟩ := List.mem_iff_getElem?.mp hm
  have hlt := (List.getElem?_eq_some_iff.mp hk).1
  have hkm := hat k b m (by rw [List.getElem?_append_left hlt, hk])
  exact ⟨by omega, hkm.1 ▸ hkm.2⟩

theorem lt_length_of_zipIdx {α : Type} {l : List α} {p : α × ℕ} (h : p ∈ l.zipIdx) :
    p.2 < l.length := by
  obtain ⟨a, i⟩ := p
  exact (List.getElem?_eq_some_iff.mp (List.mk_mem_zipIdx_iff_getElem?.mp h)).1

theorem map_range_eq {α : Type} {f : ℕ → α} {w : ℕ} {l : List α} (hl : l.length = w)
    (h : ∀ k a, l[k]? = some a → f k = a) : (List.range w).map f = l := by
  refine List.ext_getElem (by simpa using hl.symm) fun k h₁ h₂ => ?_
  rw [List.getElem_map, List.getElem_range]
  exact h k _ (List.getElem?_eq_getElem h₂)

/-- What a loop has appended. -/
theorem eq_append_flatMap {α : Type} {f g : ℕ → List α} {n : ℕ}
    (h : ∀ k < n, f (k + 1) = f k ++ g k) : f n = f 0 ++ (List.range n).flatMap g := by
  induction n with
  | zero => simp
  | succ n ih =>
      rw [h n (Nat.lt_succ_self n), ih fun k hk => h k (Nat.lt_succ_of_lt hk), List.range_succ,
        List.flatMap_append, List.flatMap_singleton, List.append_assoc]

/-- What a loop that counts down has appended. -/
theorem eq_append_flatMap_reverse {α : Type} {f g : ℕ → List α} {n : ℕ}
    (h : ∀ k < n, f k = f (k + 1) ++ g k) : f 0 = f n ++ (List.range n).reverse.flatMap g := by
  induction n with
  | zero => simp
  | succ n ih =>
      rw [ih fun k hk => h k (Nat.lt_succ_of_lt hk), h n (Nat.lt_succ_self n), List.range_succ,
        List.reverse_append, List.flatMap_append, List.append_assoc, List.reverse_singleton,
        List.flatMap_singleton]

/-- Two nested counters are one. -/
theorem foldl_range_mul {β : Type} (f : β → ℕ → β) (m n : ℕ) (b : β) :
    (List.range n).foldl (fun b i => (List.range m).foldl (fun b j => f b (i * m + j)) b) b =
      (List.range (n * m)).foldl f b := by
  induction n with
  | zero => simp
  | succ n ih =>
      rw [List.range_succ, List.foldl_append, ih, Nat.add_mul, Nat.one_mul, List.range_add,
        List.foldl_append, List.foldl_map]
      rfl

/-- A flat index is below the number of slots. -/
theorem slot_lt {w n t i : ℕ} (ht : t < n) (hi : i < w) : t * w + i < w * n := by
  calc t * w + i < (t + 1) * w := by rw [Nat.add_mul, Nat.one_mul]; exact Nat.add_lt_add_left hi _
    _ ≤ w * n := by rw [Nat.mul_comm]; exact Nat.mul_le_mul_left _ ht

/-- A flat index names one frame and one pin. -/
theorem frame_pin_inj {w t i t' i' : ℕ} (hi : i < w) (hi' : i' < w)
    (h : t * w + i = t' * w + i') : t = t' ∧ i = i' := by
  have hw : 0 < w := Nat.zero_lt_of_lt hi
  have ht := congrArg (· / w) h
  have hp := congrArg (· % w) h
  simpa [Nat.mul_add_div, Nat.mul_comm _ w, Nat.div_eq_of_lt hi, Nat.div_eq_of_lt hi', hw,
    Nat.mod_eq_of_lt hi, Nat.mod_eq_of_lt hi'] using And.intro ht hp

end ExtFolding
