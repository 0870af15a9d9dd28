import Mathlib.Data.Set.Card
import Mathlib.Order.CompletePartialOrder
import Mathlib.Tactic

/-!
# Refining families of sets

A list of names for sets is finer than another one when every set of the other is made up of sets
of the finer one. Splitting sets makes a family finer; a family whose sets are pairwise disjoint
stays so.
-/

namespace ExtFolding

variable {ι α : Type} {W : ι → Set α} {new mid old : List ι}

/-- Each point of an old set is in a new set inside it. -/
def Finer (W : ι → Set α) (new old : List ι) : Prop :=
  ∀ c ∈ old, ∀ x ∈ W c, ∃ d ∈ new, x ∈ W d ∧ W d ⊆ W c

/-- No two sets of the list meet. -/
def Apart (W : ι → Set α) (l : List ι) : Prop := l.Pairwise fun c d => Disjoint (W c) (W d)

theorem Finer.trans (h : Finer W new mid) (h' : Finer W mid old) : Finer W new old := by
  intro c hc x hx
  obtain ⟨d, hd, hxd, hdc⟩ := h' c hc x hx
  obtain ⟨e, he, hxe, hed⟩ := h d hd x hxd
  exact ⟨e, he, hxe, hed.trans hdc⟩

theorem Finer.of_mem (h : ∀ c ∈ old, ∃ d ∈ new, W d = W c) : Finer W new old := by
  intro c hc x hx
  obtain ⟨d, hd, heq⟩ := h c hc
  exact ⟨d, hd, heq ▸ hx, heq.le⟩

theorem Apart.sublist {l l' : List ι} (h : Apart W l) (hs : l'.Sublist l) : Apart W l' :=
  List.Pairwise.sublist hs h

theorem Apart.disjoint {l : List ι} {c d : ι} (h : Apart W l) (hc : c ∈ l) (hd : d ∈ l)
    (hne : W c ≠ W d) : Disjoint (W c) (W d) := by
  have : Std.Symm fun c d => Disjoint (W c) (W d) := ⟨fun _ _ h => h.symm⟩
  exact List.Pairwise.forall h hc hd fun heq => hne (heq ▸ rfl)

/-- One set is replaced by disjoint sets inside it. -/
theorem Apart.replace [DecidableEq ι] {l pieces : List ι} {d : ι} (h : Apart W l) (hd : d ∈ l)
    (hp : Apart W pieces) (hin : ∀ p ∈ pieces, W p ⊆ W d) : Apart W (l.erase d ++ pieces) := by
  have hperm : (l.Perm (d :: l.erase d)) := List.perm_cons_erase hd
  have hcons := (hperm.pairwise_iff fun {a b} hab => Disjoint.symm hab).mp h
  obtain ⟨hfar, hrest⟩ := List.pairwise_cons.mp hcons
  refine List.pairwise_append.mpr ⟨hrest, hp, fun a ha p hpm => ?_⟩
  exact ((hfar a ha).mono_left (hin p hpm)).symm

/-- Disjoint sets inside a finite one have no more points than it. -/
theorem Apart.sum_ncard_le [Finite α] {l : List ι} (h : Apart W l) {t : Set α}
    (ht : ∀ c ∈ l, W c ⊆ t) : (l.map fun c => (W c).ncard).sum ≤ t.ncard := by
  induction l generalizing t with
  | nil => exact Nat.zero_le _
  | cons c l ih =>
      obtain ⟨hfar, hrest⟩ := List.pairwise_cons.mp h
      have hrest' := ih hrest (t := t \ W c) fun d hd => Set.subset_sdiff.mpr
        ⟨ht d (List.mem_cons_of_mem _ hd), (hfar d hd).symm⟩
      have hc := ht c List.mem_cons_self
      have hsplit := Set.ncard_sdiff_add_ncard_of_subset hc (Set.toFinite t)
      rw [List.map_cons, List.sum_cons]
      omega

end ExtFolding
