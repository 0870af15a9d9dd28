import ExtFolding.MeMin.Incomp
import Mathlib.Data.List.Sort

/-!
# `memin/minimizer.cpp`: `findPairwiseIncStates`

Pairwise incompatible states are collected greedily, those with the most incompatible states first.
States with equal counts may come in any order. What can be collected is told by the counts alone:
a set of pairwise incompatible states in which every other state has a compatible one with at least
its count.
-/

namespace ExtFolding.MeMin

/-! ## The code -/

/-- `sort` with a comparison by descending keys, which need not be stable. -/
structure SortDesc where
  sort : (ℕ → ℕ) → List ℕ → List ℕ
  perm : ∀ key l, (sort key l).Perm l
  sorted : ∀ key l, (sort key l).Pairwise fun i j => key j ≤ key i

/-- `nIncomp[i]` -/
def nIncomp (nStates : ℕ) (incompMatrix : List Bool) (i : ℕ) : ℕ :=
  (List.range nStates).countP fun j => incompMatrix.getD (ai i j nStates) false

/-- `s1` is added unless it is compatible with a state that is there. -/
def cliqueStep (nStates : ℕ) (incompMatrix : List Bool) (pairwiseIncStates : List ℕ) (s1 : ℕ) :
    List ℕ :=
  if pairwiseIncStates.any fun s2 => !incompMatrix.getD (ai s1 s2 nStates) false then
    pairwiseIncStates
  else pairwiseIncStates ++ [s1]

def findPairwiseIncStates (sd : SortDesc) (nStates : ℕ) (incompMatrix : List Bool) : List ℕ :=
  (sd.sort (nIncomp nStates incompMatrix) (List.range nStates)).foldl
    (cliqueStep nStates incompMatrix) []

/-! ## The clique -/

variable {n : ℕ} {incompMatrix : List Bool}

/-- Different states; each is incompatible with those before it. -/
structure Clique (n : ℕ) (incompMatrix : List Bool) (l : List ℕ) : Prop where
  lt : ∀ s ∈ l, s < n
  nodup : l.Nodup
  pairwise : l.Pairwise fun s t => incompMatrix.getD (ai t s n) false = true

theorem Clique.length_le {l : List ℕ} (h : Clique n incompMatrix l) : l.length ≤ n := by
  have hsub : l ⊆ List.range n := fun s hs => List.mem_range.mpr (h.lt s hs)
  simpa using (h.nodup.subperm hsub).length_le

theorem Clique.nil : Clique n incompMatrix [] := ⟨by simp, List.nodup_nil, List.Pairwise.nil⟩

theorem findPairwiseIncStates_clique (sd : SortDesc) :
    Clique n incompMatrix (findPairwiseIncStates sd n incompMatrix) := by
  set order := sd.sort (nIncomp n incompMatrix) (List.range n)
  have hperm : order.Perm (List.range n) := sd.perm _ _
  have hnodup : order.Nodup := hperm.nodup_iff.mpr List.nodup_range
  have hinv : Clique n incompMatrix (order.foldl (cliqueStep n incompMatrix) []) ∧
      (order.foldl (cliqueStep n incompMatrix) []) ⊆ order := by
    refine foldl_inv (fun pre l => Clique n incompMatrix l ∧ l ⊆ pre)
      (fun pre s post l hsplit ⟨hl, hsub⟩ => ?_) ⟨Clique.nil, List.Subset.refl _⟩
    unfold cliqueStep
    split
    · exact ⟨hl, fun t ht => List.mem_append_left _ (hsub ht)⟩
    · next hno =>
        have hs : s ∈ order := hsplit ▸ by simp
        have hfresh : s ∉ l := fun hin => by
          rw [← hsplit] at hnodup
          exact (List.nodup_append.mp hnodup).2.2 s (hsub hin) s (by simp) rfl
        refine ⟨⟨fun t ht => ?_, ?_, ?_⟩, fun t ht => ?_⟩
        · rcases List.mem_append.mp ht with ht | ht
          · exact hl.lt t ht
          · exact List.mem_singleton.mp ht ▸ List.mem_range.mp (hperm.mem_iff.mp hs)
        · exact List.nodup_append.mpr ⟨hl.nodup, List.nodup_singleton s, fun a ha b hb hab =>
            hfresh (List.mem_singleton.mp hb ▸ hab ▸ ha)⟩
        · refine List.pairwise_append.mpr ⟨hl.pairwise, List.pairwise_singleton _ _,
            fun t ht u hu => ?_⟩
          rw [List.mem_singleton.mp hu]
          by_contra hcompat
          exact hno (List.any_eq_true.mpr ⟨t, ht, by simpa using hcompat⟩)
        · rcases List.mem_append.mp ht with ht | ht
          · exact List.mem_append_left _ (hsub ht)
          · exact List.mem_append_right _ ht
  exact hinv.1

/-- A state is left out for one that is compatible with it and not behind it in the order. -/
theorem findPairwiseIncStates_left_out (sd : SortDesc) {s : ℕ} (hs : s < n)
    (hout : s ∉ findPairwiseIncStates sd n incompMatrix) :
    ∃ t ∈ findPairwiseIncStates sd n incompMatrix,
      incompMatrix.getD (ai s t n) false = false ∧
        nIncomp n incompMatrix s ≤ nIncomp n incompMatrix t := by
  unfold findPairwiseIncStates at hout ⊢
  set order := sd.sort (nIncomp n incompMatrix) (List.range n)
  have hsorted := sd.sorted (nIncomp n incompMatrix) (List.range n)
  have hinv : order.foldl (cliqueStep n incompMatrix) [] ⊆ order ∧
      ∀ s ∈ order, s ∉ order.foldl (cliqueStep n incompMatrix) [] →
        ∃ t ∈ order.foldl (cliqueStep n incompMatrix) [],
          incompMatrix.getD (ai s t n) false = false ∧
            nIncomp n incompMatrix s ≤ nIncomp n incompMatrix t := by
    refine foldl_inv (fun pre l => l ⊆ pre ∧ ∀ s ∈ pre, s ∉ l → ∃ t ∈ l,
        incompMatrix.getD (ai s t n) false = false ∧
          nIncomp n incompMatrix s ≤ nIncomp n incompMatrix t)
      (fun pre s post l hsplit ⟨hsub, hleft⟩ => ?_) ⟨List.Subset.refl _, by simp⟩
    unfold cliqueStep
    split
    · next hcompat =>
        refine ⟨fun t ht => List.mem_append_left _ (hsub ht), fun t ht hnot => ?_⟩
        rcases List.mem_append.mp ht with ht | ht
        · exact hleft t ht hnot
        · obtain ⟨u, hu, hsu⟩ := List.any_eq_true.mp hcompat
          rw [List.mem_singleton.mp ht]
          change order.Pairwise _ at hsorted
          rw [← hsplit, List.pairwise_append] at hsorted
          exact ⟨u, hu, by simpa using hsu, hsorted.2.2 u (hsub hu) s List.mem_cons_self⟩
    · refine ⟨fun t ht => ?_, fun t ht hnot => ?_⟩
      · rcases List.mem_append.mp ht with ht | ht
        · exact List.mem_append_left _ (hsub ht)
        · exact List.mem_append_right _ ht
      · rw [List.mem_append, not_or] at hnot
        rcases List.mem_append.mp ht with ht | ht
        · obtain ⟨u, hu, hsu⟩ := hleft t ht hnot.1
          exact ⟨u, List.mem_append_left _ hu, hsu⟩
        · exact absurd ht hnot.2
  exact hinv.2 s ((sd.perm _ _).mem_iff.mpr (List.mem_range.mpr hs)) hout

/-- Insertion of equal keys behind each other. -/
def insertionDesc : SortDesc where
  sort key l := l.insertionSort fun i j => key j ≤ key i
  perm _ _ := List.perm_insertionSort ..
  sorted key l := by
    have : Std.Total fun i j : ℕ => key j ≤ key i := ⟨fun i j => Nat.le_total ..⟩
    have : IsTrans ℕ fun i j => key j ≤ key i := ⟨fun i j k h₁ h₂ => h₂.trans h₁⟩
    exact List.pairwise_insertionSort ..

/-! ## What the choice can end with -/

/-- Before `j` in an order by descending keys in which the states of `K` come first among equals. -/
def Earlier (K : Finset ℕ) (key : ℕ → ℕ) (i j : ℕ) : Prop :=
  key j < key i ∨ (key i = key j ∧ (j ∈ K → i ∈ K))

instance (K : Finset ℕ) (key : ℕ → ℕ) : DecidableRel (Earlier K key) := fun _ _ =>
  inferInstanceAs (Decidable (_ ∨ _))

theorem pairwise_earlier (K : Finset ℕ) (key : ℕ → ℕ) (l : List ℕ) :
    (l.insertionSort (Earlier K key)).Pairwise (Earlier K key) := by
  have : Std.Total (Earlier K key) := ⟨fun i j => by
    unfold Earlier
    rcases Nat.lt_trichotomy (key i) (key j) with h | h | h
    · exact Or.inr (Or.inl h)
    · rw [h]
      tauto
    · exact Or.inl (Or.inl h)⟩
  have : IsTrans ℕ (Earlier K key) := ⟨fun i j k hij hjk => by
    rcases hij with h₁ | ⟨h₁, hi⟩ <;> rcases hjk with h₂ | ⟨h₂, hj⟩
    · exact Or.inl (h₂.trans h₁)
    · exact Or.inl (h₂ ▸ h₁)
    · exact Or.inl (h₁ ▸ h₂)
    · exact Or.inr ⟨h₁.trans h₂, fun hk => hi (hj hk)⟩⟩
  exact List.pairwise_insertionSort ..

def firstOf (K : Finset ℕ) : SortDesc where
  sort key l := l.insertionSort (Earlier K key)
  perm _ _ := List.perm_insertionSort ..
  sorted key l := (pairwise_earlier K key l).imp fun h => by
    rcases h with h | h
    · exact h.le
    · exact h.1.ge

/-- A set like that is what some order leads to. -/
theorem mem_findPairwiseIncStates_firstOf {K : Finset ℕ} (hlt : ∀ s ∈ K, s < n)
    (hclique : ∀ s ∈ K, ∀ t ∈ K, s ≠ t → incompMatrix.getD (ai s t n) false = true)
    (hout : ∀ s < n, s ∉ K → ∃ t ∈ K, incompMatrix.getD (ai s t n) false = false ∧
      nIncomp n incompMatrix s ≤ nIncomp n incompMatrix t) {s : ℕ} (hs : s ∈ K) :
    s ∈ findPairwiseIncStates (firstOf K) n incompMatrix := by
  set order := (firstOf K).sort (nIncomp n incompMatrix) (List.range n) with horder
  have hperm : order.Perm (List.range n) := (firstOf K).perm _ _
  have hsorted : order.Pairwise (Earlier K (nIncomp n incompMatrix)) := pairwise_earlier ..
  have hnodup : order.Nodup := hperm.nodup_iff.mpr List.nodup_range
  have hinv : ∀ s, s ∈ order.foldl (cliqueStep n incompMatrix) [] ↔ s ∈ order ∧ s ∈ K := by
    refine foldl_inv (fun pre l => ∀ s, s ∈ l ↔ s ∈ pre ∧ s ∈ K)
      (fun pre s post l hsplit hl => ?_) (by simp)
    rw [← hsplit] at hsorted hnodup
    have hfresh : s ∉ pre := fun hin => (List.nodup_append.mp hnodup).2.2 s hin s (by simp) rfl
    unfold cliqueStep
    by_cases hsK : s ∈ K
    · have hno : ¬ (l.any fun s2 => !incompMatrix.getD (ai s s2 n) false) = true := by
        rw [List.any_eq_true]
        rintro ⟨t, ht, hst⟩
        obtain ⟨htpre, htK⟩ := (hl t).mp ht
        rw [hclique s hsK t htK fun h => hfresh (h ▸ htpre)] at hst
        exact absurd hst (by simp)
      intro t
      rw [if_neg hno, List.mem_append, List.mem_append, List.mem_singleton, hl, or_and_right]
      exact or_congr_right ⟨fun h => ⟨h, h ▸ hsK⟩, And.left⟩
    · have hslt : s < n := List.mem_range.mp (hperm.mem_iff.mp (hsplit ▸ by simp))
      obtain ⟨t, htK, hst, hle⟩ := hout s hslt hsK
      have hne : t ≠ s := fun h => hsK (h ▸ htK)
      -- a state of `K` with at least the count of `s` comes before `s`
      have htpre : t ∈ pre := by
        have ht : t ∈ pre ++ s :: post :=
          hsplit ▸ hperm.mem_iff.mpr (List.mem_range.mpr (hlt t htK))
        rcases List.mem_append.mp ht with ht | ht
        · exact ht
        · have hafter := (List.pairwise_cons.mp (List.pairwise_append.mp hsorted).2.1).1 t
            ((List.mem_cons.mp ht).resolve_left hne)
          rcases hafter with h | ⟨-, h⟩
          · omega
          · exact absurd (h htK) hsK
      have hyes : (l.any fun s2 => !incompMatrix.getD (ai s s2 n) false) = true :=
        List.any_eq_true.mpr ⟨t, (hl t).mpr ⟨htpre, htK⟩, by rw [hst]; rfl⟩
      intro u
      rw [if_pos hyes, hl, List.mem_append, List.mem_singleton, or_and_right]
      exact (or_iff_left fun h : u = s ∧ u ∈ K => hsK (h.1 ▸ h.2)).symm
  exact (hinv s).mpr ⟨hperm.mem_iff.mpr (List.mem_range.mpr (hlt s hs)), hs⟩

/-- The number of states that are incompatible with `s`. -/
noncomputable def incompCount (ni : ℕ) (states : List (List Trans)) (s : ℕ) : ℕ :=
  {t | t < states.length ∧ Incompatible ni states s t}.ncard

/-- Pairwise incompatible states; every other state is compatible with one of them that has at least
as many incompatible states. -/
structure GreedyClique (ni : ℕ) (states : List (List Trans)) (K : Finset ℕ) : Prop where
  lt : ∀ s ∈ K, s < states.length
  apart : ∀ s ∈ K, ∀ t ∈ K, s ≠ t → Incompatible ni states s t
  left_out : ∀ s < states.length, s ∉ K → ∃ t ∈ K, ¬ Incompatible ni states s t ∧
    incompCount ni states s ≤ incompCount ni states t

theorem nIncomp_eq {ni : ℕ} {states : List (List Trans)}
    (h : IncompMatrix ni states incompMatrix) {s : ℕ} (hs : s < states.length) :
    nIncomp states.length incompMatrix s = incompCount ni states s := by
  have hset : {t | t < states.length ∧ Incompatible ni states s t} =
      ↑((List.range states.length).filter fun t =>
        incompMatrix.getD (ai s t states.length) false).toFinset := by
    ext t
    simp only [Set.mem_ofPred_eq, List.coe_toFinset, List.mem_filter, List.mem_range]
    exact and_congr_right fun ht => (h s hs t ht).symm
  rw [incompCount, hset, Set.ncard_coe_finset,
    List.toFinset_card_of_nodup (List.nodup_range.filter _), nIncomp, List.countP_eq_length_filter]

theorem findPairwiseIncStates_greedy {ni : ℕ} {states : List (List Trans)}
    (h : IncompMatrix ni states incompMatrix) (sd : SortDesc) :
    GreedyClique ni states (findPairwiseIncStates sd states.length incompMatrix).toFinset := by
  have hclique : Clique states.length incompMatrix _ := findPairwiseIncStates_clique sd
  refine ⟨fun s hs => hclique.lt s (List.mem_toFinset.mp hs), fun s hs t ht hst => ?_,
    fun s hs hnot => ?_⟩
  · rw [List.mem_toFinset] at hs ht
    have hinc : (findPairwiseIncStates sd states.length incompMatrix).Pairwise
        (Incompatible ni states) := hclique.pairwise.imp_of_mem fun hs ht hst =>
      ((h _ (hclique.lt _ ht) _ (hclique.lt _ hs)).mp hst).symm
    have : Std.Symm (Incompatible ni states) := ⟨fun _ _ => Incompatible.symm⟩
    exact hinc.forall hs ht hst
  · rw [List.mem_toFinset] at hnot
    obtain ⟨t, ht, hst, hle⟩ := findPairwiseIncStates_left_out sd hs hnot
    have hlt := hclique.lt t ht
    refine ⟨t, List.mem_toFinset.mpr ht, fun hinc => ?_, ?_⟩
    · rw [(h s hs t hlt).mpr hinc] at hst
      exact absurd hst (by simp)
    · rwa [← nIncomp_eq h hs, ← nIncomp_eq h hlt]

/-- Every such clique is found when its states come first among equals. -/
theorem GreedyClique.mem_firstOf {ni : ℕ} {states : List (List Trans)} {K : Finset ℕ}
    (hK : GreedyClique ni states K) (h : IncompMatrix ni states incompMatrix) {s : ℕ}
    (hs : s ∈ K) : s ∈ findPairwiseIncStates (firstOf K) states.length incompMatrix := by
  refine mem_findPairwiseIncStates_firstOf hK.lt (fun t ht u hu htu => ?_)
    (fun t ht hnot => ?_) hs
  · exact (h t (hK.lt t ht) u (hK.lt u hu)).mpr (hK.apart t ht u hu htu)
  · obtain ⟨u, hu, htu, hle⟩ := hK.left_out t ht hnot
    have hult := hK.lt u hu
    refine ⟨u, hu, ?_, by rwa [nIncomp_eq h ht, nIncomp_eq h hult]⟩
    rw [← Bool.not_eq_true, h t ht u hult]
    exact htu

end ExtFolding.MeMin
