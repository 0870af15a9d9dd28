import Mathlib.Logic.Function.Basic
import Mathlib.Order.Defs.Unbundled
import Mathlib.Tactic

/-!
# Binary heaps

The order of a binary heap, and of one with a hole: an element that belongs into the hole goes up or
down as long as its neighbour is on the wrong side. The comparison need not be total; elements of
which none is below the other may stand in any order.
-/

namespace ExtFolding.BinaryHeap

variable {α : Type} {lt : α → α → Prop} [IsOrderConnected α lt] {n k i c : ℕ} {f : ℕ → α} {x : α}

def parent (i : ℕ) : ℕ := (i - 1) / 2

theorem parent_lt (hi : i ≠ 0) : parent i < i := by
  unfold parent
  omega

/-- `c` is a child of `i`; the top is no child. -/
def IsChild (c i : ℕ) : Prop := c ≠ 0 ∧ parent c = i

theorem IsChild.gt (h : IsChild c i) : i < c := h.2 ▸ parent_lt h.1

theorem isChild_iff : IsChild c i ↔ c = 2 * i + 1 ∨ c = 2 * i + 2 := by
  unfold IsChild parent
  omega

/-- No child is below its parent, where the parent is at `k` or behind. -/
def OrderedFrom (lt : α → α → Prop) (k n : ℕ) (f : ℕ → α) : Prop :=
  ∀ c i, IsChild c i → c < n → k ≤ i → ¬ lt (f c) (f i)

/-- Nothing is below the top. -/
theorem OrderedFrom.top [Std.Asymm lt] (h : OrderedFrom lt 0 n f) (hi : i < n) : ¬ lt (f i)
    (f 0) := by
  induction i using Nat.strong_induction_on with
  | _ i ih =>
      rcases Nat.eq_zero_or_pos i with rfl | hpos
      · exact irrefl_of lt (f 0)
      · have hlt := parent_lt hpos.ne'
        exact IsOrderConnected.neg_trans (h i (parent i) ⟨hpos.ne', rfl⟩ hi (Nat.zero_le _))
          (ih (parent i) hlt (hlt.trans hi))

/-! ## Upwards -/

/-- The element `x` belongs into the hole or above it. -/
structure UpHole (lt : α → α → Prop) (n : ℕ) (f : ℕ → α) (i : ℕ) (x : α) : Prop where
  except : ∀ c j, IsChild c j → c < n → c ≠ i → j ≠ i → ¬ lt (f c) (f j)
  grand : i ≠ 0 → ∀ c, IsChild c i → c < n → ¬ lt (f c) (f (parent i))
  below : ∀ c, IsChild c i → c < n → ¬ lt (f c) x

theorem UpHole.move [Std.Asymm lt] (h : UpHole lt n f i x) (hi : i ≠ 0) (hn : i < n)
    (hlt : lt x (f (parent i))) : UpHole lt n (Function.update f i (f (parent i)))
      (parent i) x := by
  have hpi := parent_lt hi
  have hup : ∀ g, IsChild (parent i) g → ¬ lt (f (parent i)) (f g) := fun g hg =>
    h.except _ g hg (hpi.trans hn) hpi.ne (hg.gt.trans hpi).ne
  refine ⟨fun c j hc hcn hci hji => ?_, fun hp c hc hcn => ?_, fun c hc hcn => ?_⟩
  · by_cases hci' : c = i
    · subst hci'
      exact absurd hc.2 hji.symm
    · rw [Function.update_of_ne hci']
      by_cases hji' : j = i
      · subst hji'
        rw [Function.update_self]
        exact h.grand hi c hc hcn
      · rw [Function.update_of_ne hji']
        exact h.except c j hc hcn hci' hji'
  · have hg : IsChild (parent i) (parent (parent i)) := ⟨hp, rfl⟩
    rw [Function.update_of_ne (hg.gt.trans hpi).ne]
    by_cases hci : c = i
    · rw [hci, Function.update_self]
      exact hup _ hg
    · rw [Function.update_of_ne hci]
      exact IsOrderConnected.neg_trans (h.except c _ hc hcn hci hpi.ne) (hup _ hg)
  · by_cases hci : c = i
    · rw [hci, Function.update_self]
      exact asymm_of lt hlt
    · rw [Function.update_of_ne hci]
      exact IsOrderConnected.neg_trans (h.except c _ hc hcn hci hpi.ne) (asymm_of lt hlt)

omit [IsOrderConnected α lt] in
theorem UpHole.fill (h : UpHole lt n f i x) (hstop : i = 0 ∨ ¬ lt x (f (parent i))) :
    OrderedFrom lt 0 n (Function.update f i x) := by
  intro c j hc hcn _
  by_cases hci : c = i
  · subst hci
    have hj : j ≠ c := hc.gt.ne
    rw [Function.update_self, Function.update_of_ne hj, ← hc.2]
    exact hstop.resolve_left hc.1
  · rw [Function.update_of_ne hci]
    by_cases hji : j = i
    · subst hji
      rw [Function.update_self]
      exact h.below c hc hcn
    · rw [Function.update_of_ne hji]
      exact h.except c j hc hcn hci hji

/-! ## Downwards -/

/-- The element `x` belongs into the hole or below it. -/
structure DownHole (lt : α → α → Prop) (k n : ℕ) (f : ℕ → α) (i : ℕ) (x : α) : Prop where
  except : ∀ c j, IsChild c j → c < n → k ≤ j → c ≠ i → j ≠ i → ¬ lt (f c) (f j)
  above : i ≠ 0 → k ≤ parent i → ¬ lt x (f (parent i))
  grand : i ≠ 0 → k ≤ parent i → ∀ c, IsChild c i → c < n → ¬ lt (f c) (f (parent i))

omit [IsOrderConnected α lt] in
/-- The least child moves up. -/
theorem DownHole.move [Std.Asymm lt] (h : DownHole lt k n f i x) (hk : k ≤ i) (hc : IsChild c i)
    (hcn : c < n) (hlt : lt (f c) x) (hleast : ∀ c', IsChild c' i → c' < n → ¬ lt (f c') (f c)) :
    DownHole lt k n (Function.update f i (f c)) c x := by
  have hic := hc.gt
  refine ⟨fun c' j hc' hcn' hkj hcc hjc => ?_, fun _ _ => ?_, fun _ _ c' hc' hcn' => ?_⟩
  · by_cases hci : c' = i
    · subst hci
      rw [Function.update_self, Function.update_of_ne hc'.gt.ne, ← hc'.2]
      exact h.grand hc'.1 (hc'.2.symm ▸ hkj) c hc hcn
    · rw [Function.update_of_ne hci]
      by_cases hji : j = i
      · subst hji
        rw [Function.update_self]
        exact hleast c' hc' hcn'
      · rw [Function.update_of_ne hji]
        exact h.except c' j hc' hcn' hkj hci hji
  · rw [hc.2, Function.update_self]
    exact asymm_of lt hlt
  · rw [hc.2, Function.update_self, Function.update_of_ne (hic.trans hc'.gt).ne']
    exact h.except c' c hc' hcn' (hk.trans hic.le) (hic.trans hc'.gt).ne' hic.ne'

omit [IsOrderConnected α lt] in
theorem DownHole.fill (h : DownHole lt k n f i x)
    (hstop : ∀ c, IsChild c i → c < n → ¬ lt (f c) x) :
    OrderedFrom lt k n (Function.update f i x) := by
  intro c j hc hcn hkj
  by_cases hci : c = i
  · subst hci
    rw [Function.update_self, Function.update_of_ne hc.gt.ne, ← hc.2]
    exact h.above hc.1 (hc.2.symm ▸ hkj)
  · rw [Function.update_of_ne hci]
    by_cases hji : j = i
    · subst hji
      rw [Function.update_self]
      exact hstop c hc hcn
    · rw [Function.update_of_ne hji]
      exact h.except c j hc hcn hkj hci hji

/-! ## Where holes come from -/

omit [IsOrderConnected α lt] in
/-- An element is put behind the others. -/
theorem OrderedFrom.push {g : ℕ → α} (h : OrderedFrom lt 0 n f) (hg : ∀ c < n, g c = f c) (x : α) :
    UpHole lt (n + 1) g n x := by
  refine ⟨fun c j hc hcn hci hji => ?_, fun _ c hc hcn => ?_, fun c hc hcn => ?_⟩
  · have hcn' : c < n := Nat.lt_of_le_of_ne (Nat.le_of_lt_succ hcn) hci
    rw [hg c hcn', hg j (hc.gt.trans hcn')]
    exact h c j hc hcn' (Nat.zero_le _)
  · exact absurd hc.gt (Nat.not_lt_of_le (Nat.le_of_lt_succ hcn))
  · exact absurd hc.gt (Nat.not_lt_of_le (Nat.le_of_lt_succ hcn))

/-- An element has become smaller, and nothing else has changed. -/
theorem OrderedFrom.decrease {lt' : α → α → Prop} (h : OrderedFrom lt 0 n f) (hi : i < n)
    (hless : ∀ c j, c < n → j < n → c ≠ i → lt' (f c) (f j) → lt (f c) (f j)) :
    UpHole lt' n f i (f i) := by
  refine ⟨fun c j hc hcn hci _ hlt => ?_, fun hi0 c hc hcn hlt => ?_, fun c hc hcn hlt => ?_⟩
  · exact h c j hc hcn (Nat.zero_le _) (hless c j hcn (hc.gt.trans hcn) hci hlt)
  · have hp : IsChild i (parent i) := ⟨hi0, rfl⟩
    exact IsOrderConnected.neg_trans (h c i hc hcn (Nat.zero_le _)) (h i _ hp hi (Nat.zero_le _))
      (hless c _ hcn (hp.gt.trans hi) hc.gt.ne' hlt)
  · exact h c i hc hcn (Nat.zero_le _) (hless c i hcn hi hc.gt.ne' hlt)

omit [IsOrderConnected α lt] in
/-- Whatever stands at the top may have to go down. -/
theorem OrderedFrom.replaceTop {m : ℕ} {g : ℕ → α} (h : OrderedFrom lt 0 m f) (hnm : n ≤ m)
    (hg : ∀ c < n, c ≠ 0 → g c = f c) (x : α) : DownHole lt 0 n g 0 x := by
  refine ⟨fun c j hc hcn _ _ hj => ?_, fun h0 => absurd rfl h0, fun h0 => absurd rfl h0⟩
  rw [hg c hcn hc.1, hg j (hc.gt.trans hcn) hj]
  exact h c j hc (hcn.trans_le hnm) (Nat.zero_le _)

omit [IsOrderConnected α lt] in
/-- One more parent: nothing above it is in order yet. -/
theorem OrderedFrom.extend (h : OrderedFrom lt (k + 1) n f) : DownHole lt k n f k (f k) :=
  ⟨fun c j hc hcn hkj _ hjk => h c j hc hcn (by omega), fun hk hle => absurd (parent_lt hk)
    (by omega),
    fun hk hle => absurd (parent_lt hk) (by omega)⟩

end ExtFolding.BinaryHeap
