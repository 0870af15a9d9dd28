import ExtFolding.Lib.Loop
import Mathlib.Data.List.Nodup

/-!
# Closed covers

States `0..n-1` of a system with partial transitions, grouped into classes `0..k-1` that may
overlap. A cover is closed when the successors of a class under a letter lie in one class again.
-/

namespace ExtFolding

/-- Every state is in a class, no class has two states that must be kept apart, and classes lead
into classes. -/
structure ClosedCover (n k : ℕ) {A : Type} (next : ℕ → A → Option ℕ) (apart : ℕ → ℕ → Prop)
    (mem : ℕ → ℕ → Prop) : Prop where
  cover : ∀ s < n, ∃ i < k, mem s i
  compat : ∀ i < k, ∀ s < n, ∀ t < n, s ≠ t → mem s i → mem t i → ¬ apart s t
  closed : ∀ i < k, ∀ a, ∃ j < k, ∀ s < n, mem s i → ∀ t, next s a = some t → mem t j

/-- The states of a list are in classes of their own. -/
def Fixed (n : ℕ) (apart : ℕ → ℕ → Prop) (mem : ℕ → ℕ → Prop) (l : List ℕ) : Prop :=
  ∀ i p, l[i]? = some p → mem p i ∧ ∀ s < n, apart s p → ¬ mem s i

variable {n k : ℕ} {A : Type} {next : ℕ → A → Option ℕ} {apart mem : ℕ → ℕ → Prop} {l : List ℕ}

/-- Fewer states to keep apart. -/
theorem ClosedCover.mono {apart' : ℕ → ℕ → Prop} (h : ClosedCover n k next apart mem)
    (hle : ∀ s < n, ∀ t < n, apart' s t → apart s t) : ClosedCover n k next apart' mem :=
  ⟨h.cover, fun i hi s hs t ht hne hsi hti hst =>
    h.compat i hi s hs t ht hne hsi hti (hle s hs t ht hst), h.closed⟩

theorem Fixed.mono {apart' : ℕ → ℕ → Prop} (h : Fixed n apart mem l) (hl : ∀ s ∈ l, s < n)
    (hle : ∀ s < n, ∀ t < n, apart' s t → apart s t) : Fixed n apart' mem l := fun i p hp =>
  ⟨(h i p hp).1, fun s hs hst =>
    (h i p hp).2 s hs (hle s hs p (hl p (List.mem_of_getElem? hp)) hst)⟩

/-- The states in an order that begins with the list. -/
def beginning (n : ℕ) (l : List ℕ) : List ℕ := l ++ (List.range n).filter fun s => s ∉ l

theorem mem_beginning (hl : ∀ s ∈ l, s < n) {s : ℕ} : s ∈ beginning n l ↔ s < n := by
  rw [beginning, List.mem_append, List.mem_filter, List.mem_range]
  by_cases hs : s ∈ l <;> simp [hs, hl]

theorem nodup_beginning (h : l.Nodup) : (beginning n l).Nodup := by
  refine List.nodup_append.mpr ⟨h, List.nodup_range.filter _, fun s hs t ht hst => ?_⟩
  rw [← hst, List.mem_filter, decide_eq_true_eq] at ht
  exact ht.2 hs

theorem length_beginning (hl : ∀ s ∈ l, s < n) (h : l.Nodup) : (beginning n l).length = n := by
  have hperm : (beginning n l).Perm (List.range n) :=
    (List.perm_ext_iff_of_nodup (nodup_beginning h) List.nodup_range).mpr fun s => by
      rw [mem_beginning hl, List.mem_range]
  rw [hperm.length_eq, List.length_range]

/-- Classes of one state each, those of the list first. -/
theorem ClosedCover.exists_singletons (hnext : ∀ {s a t}, next s a = some t → t < n)
    (hl : ∀ s ∈ l, s < n) (hnodup : l.Nodup) (hself : ∀ s ∈ l, ¬ apart s s) :
    ∃ mem, ClosedCover n n next apart mem ∧ Fixed n apart mem l := by
  set order := beginning n l with horder
  have hmem : ∀ {s}, s < n → s ∈ order := fun hs => (mem_beginning hl).mpr hs
  have hlen : order.length = n := length_beginning hl hnodup
  have hlt : ∀ {s}, s < n → order.idxOf s < n := fun hs =>
    hlen ▸ List.idxOf_lt_length_of_mem (hmem hs)
  have hinj : ∀ {s t}, s < n → order.idxOf s = order.idxOf t → s = t := fun hs =>
    (List.idxOf_inj (hmem hs)).mp
  refine ⟨fun s i => order.idxOf s = i, ⟨fun s hs => ⟨_, hlt hs, rfl⟩, ?_, fun i hi a => ?_⟩, ?_⟩
  · rintro i - s hs t - hne rfl hti -
    exact hne (hinj hs hti.symm)
  · -- the class of the successor, if there is one
    have hi' : i < order.length := hlen ▸ hi
    have hat : ∀ s < n, order.idxOf s = i → s = order[i] := by
      rintro s hs rfl
      exact (List.getElem_idxOf hi').symm
    cases hstep : next order[i] a with
    | none =>
        refine ⟨i, hi, fun s hs hsi t ht => ?_⟩
        rw [hat s hs hsi, hstep] at ht
        exact absurd ht (by simp)
    | some u =>
        refine ⟨order.idxOf u, hlt (hnext hstep), fun s hs hsi t ht => ?_⟩
        rw [hat s hs hsi, hstep] at ht
        rw [Option.some.inj ht]
  · intro i p hp
    have hpl := List.mem_of_getElem? hp
    have hpi : order.idxOf p = i := by
      obtain ⟨hi, rfl⟩ := List.getElem?_eq_some_iff.mp hp
      rw [horder, beginning, List.idxOf_append_of_mem (List.getElem_mem hi)]
      exact hnodup.idxOf_getElem i hi
    refine ⟨hpi, fun s hs hsp hsi => ?_⟩
    rw [← hinj (hl p hpl) (hpi.trans hsi.symm)] at hsp
    exact hself p hpl hsp

/-- The classes of the members of the list are moved to the front; a closed cover has at least as
many classes as the list has members. -/
theorem ClosedCover.exists_fixed (h : ClosedCover n k next apart mem) (hl : ∀ s ∈ l, s < n)
    (hnodup : l.Nodup) (hpair : l.Pairwise fun s t => apart t s) (hself : ∀ s ∈ l, ¬ apart s s) :
    l.length ≤ k ∧ ∃ mem', ClosedCover n k next apart mem' ∧ Fixed n apart mem' l := by
  have hclass : ∀ s, ∃ c, s < n → c < k ∧ mem s c := by
    intro s
    by_cases hs : s < n
    · obtain ⟨c, hc⟩ := h.cover s hs
      exact ⟨c, fun _ => hc⟩
    · exact ⟨0, fun hlt => absurd hlt hs⟩
  choose cls hcls using hclass
  set cs := l.map cls with hcs
  have hlt : ∀ c ∈ cs, c < k := fun c hc => by
    obtain ⟨s, hs, rfl⟩ := List.mem_map.mp hc
    exact (hcls s (hl s hs)).1
  have hdistinct : cs.Nodup := by
    refine List.pairwise_map.mpr ((hnodup.and hpair).imp_of_mem fun hs ht hst heq => ?_)
    obtain ⟨hi, hmi⟩ := hcls _ (hl _ hs)
    exact h.compat _ hi _ (hl _ ht) _ (hl _ hs) (Ne.symm hst.1)
      (heq ▸ (hcls _ (hl _ ht)).2) hmi hst.2
  have hmem : ∀ {c}, c ∈ beginning k cs ↔ c < k := mem_beginning hlt
  have hlen : (beginning k cs).length = k := length_beginning hlt hdistinct
  have hplace : ∀ {c}, c < k → ∃ i < k, (beginning k cs)[i]? = some c := fun hc => by
    obtain ⟨i, hi⟩ := List.mem_iff_getElem?.mp (hmem.mpr hc)
    exact ⟨i, hlen ▸ (List.getElem?_eq_some_iff.mp hi).1, hi⟩
  refine ⟨?_, fun s i => ∃ c, (beginning k cs)[i]? = some c ∧ mem s c, ⟨fun s hs => ?_, ?_,
    fun i hi a => ?_⟩, fun i p hp => ?_⟩
  · have hsub : cs ⊆ List.range k := fun c hc => List.mem_range.mpr (hlt c hc)
    simpa [hcs] using (hdistinct.subperm hsub).length_le
  · obtain ⟨c, hc, hm⟩ := h.cover s hs
    obtain ⟨i, hi, hic⟩ := hplace hc
    exact ⟨i, hi, c, hic, hm⟩
  · rintro i - s hs t ht hne ⟨c, hc, hsc⟩ ⟨c', hc', htc⟩
    obtain rfl : c = c' := Option.some.inj (hc.symm.trans hc')
    exact h.compat c (hmem.mp (List.mem_of_getElem? hc)) s hs t ht hne hsc htc
  · have hi' : i < (beginning k cs).length := hlen.symm ▸ hi
    obtain ⟨c', hc', hclosed⟩ := h.closed _ (hmem.mp (List.getElem_mem hi')) a
    obtain ⟨j, hj, hjc⟩ := hplace hc'
    refine ⟨j, hj, ?_⟩
    rintro s hs ⟨c, hc, hsc⟩ t ht
    obtain ⟨_, rfl⟩ := List.getElem?_eq_some_iff.mp hc
    exact ⟨c', hjc, hclosed s hs hsc t ht⟩
  · have hpl := List.mem_of_getElem? hp
    obtain ⟨hpk, hpc⟩ := hcls p (hl p hpl)
    have hip : (beginning k cs)[i]? = some (cls p) := by
      rw [beginning, List.getElem?_append_left (by
        rw [hcs, List.length_map]
        exact (List.getElem?_eq_some_iff.mp hp).1), hcs, List.getElem?_map, hp]
      rfl
    refine ⟨⟨_, hip, hpc⟩, ?_⟩
    rintro s hs hsp ⟨c, hc, hsc⟩
    obtain rfl : cls p = c := Option.some.inj (hip.symm.trans hc)
    have hne : s ≠ p := by
      rintro rfl
      exact hself s hpl hsp
    exact h.compat _ hpk s hs p (hl p hpl) hne hsc hpc hsp

end ExtFolding
