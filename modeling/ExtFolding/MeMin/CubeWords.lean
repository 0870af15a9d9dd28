import ExtFolding.MeMin.IncSpecSeq
import Mathlib.Order.CompletePartialOrder

/-!
# The words of a sequence

A sequence of length `n` stands for the words of `n` bits that have its specified bits. What the
constructor from a string and the set operations build keeps the normal form, so the operations
are the ones of the sets of words.
-/

namespace ExtFolding.MeMin

namespace IncSpecSeq

/-- The words of `n` bits in `a`. -/
def words (n : ℕ) (a : IncSpecSeq) : Set (Fin n → Bool) :=
  {w | ∀ p : Fin n, wordBit a.specifiedBits p = true → wordBit a.seq p = w p}

/-- The sequences of length `n` that the constructor and the set operations build. -/
inductive Built (n : ℕ) : IncSpecSeq → Prop
  | ofString {s : List Char} (h : s.length = n) : Built n (ofString s)
  | intersect {a b : IncSpecSeq} (ha : Built n a) (hb : Built n b) : Built n (a.intersect b)
  | diff {a b d : IncSpecSeq} (ha : Built n a) (hb : Built n b) (hd : d ∈ a.diff b) : Built n d

/-- `std::hash<IncSpecSeq>`; the constant is added in 32 bits. -/
def hash (k : IncSpecSeq) : BitVec 64 :=
  k.seq.foldl (fun seed i =>
    seed ^^^ ((i + 0x9e3779b9#32).setWidth 64 + (seed <<< 6) + (seed >>> 2))) 0

variable {n : ℕ} {a b : IncSpecSeq}

theorem Built.wf (h : Built n a) : a.Wf n := by
  induction h with
  | ofString hs => exact hs ▸ ofString_wf _
  | intersect _ _ ha hb => exact intersect_wf ha hb
  | diff _ _ hd ha hb => exact (diff_peel ha hb).2 _ hd

/-- Every word is the start of an assignment. -/
theorem exists_assign (w : Fin n → Bool) : ∃ x : ℕ → Bool, (fun p : Fin n => x p) = w :=
  ⟨fun p => if h : p < n then w ⟨p, h⟩ else false, funext fun p => dif_pos p.isLt⟩

theorem mem_words (ha : a.Wf n) {x : ℕ → Bool} :
    (fun p : Fin n => x p) ∈ words n a ↔ a.cube.Holds x := by
  constructor
  · intro hw p v hv
    obtain ⟨hspec, rfl⟩ := cube_eq_some.mp hv
    exact (hw ⟨p, ha.bound p hspec⟩ hspec).symm
  · exact fun hx p hspec => (hx p _ (cube_eq_some.mpr ⟨hspec, rfl⟩)).symm

theorem words_nonempty (ha : a.Wf n) : (words n a).Nonempty :=
  ⟨_, (mem_words ha).mpr (Cube.holds_put a.cube fun _ => false)⟩

theorem words_subset_iff (ha : a.Wf n) (hb : b.Wf n) :
    words n a ⊆ words n b ↔ ∀ x, a.cube.Holds x → b.cube.Holds x := by
  constructor
  · exact fun h x hx => (mem_words hb).mp (h ((mem_words ha).mpr hx))
  · intro h w hw
    obtain ⟨x, rfl⟩ := exists_assign w
    exact (mem_words hb).mpr (h x ((mem_words ha).mp hw))

theorem words_inter_nonempty_iff (ha : a.Wf n) (hb : b.Wf n) :
    (words n a ∩ words n b).Nonempty ↔ Cube.Compat a.cube b.cube := by
  rw [Cube.compat_iff_exists]
  constructor
  · rintro ⟨w, hwa, hwb⟩
    obtain ⟨x, rfl⟩ := exists_assign w
    exact ⟨x, (mem_words ha).mp hwa, (mem_words hb).mp hwb⟩
  · rintro ⟨x, hxa, hxb⟩
    exact ⟨_, (mem_words ha).mpr hxa, (mem_words hb).mpr hxb⟩

theorem disjoint_words_iff (ha : a.Wf n) (hb : b.Wf n) :
    Disjoint (words n a) (words n b) ↔ ¬ Cube.Compat a.cube b.cube := by
  rw [← words_inter_nonempty_iff ha hb, Set.disjoint_iff_inter_eq_empty,
    Set.not_nonempty_iff_eq_empty]

theorem words_eq_iff (ha : a.Wf n) (hb : b.Wf n) : words n a = words n b ↔ a.cube = b.cube := by
  constructor
  · intro h
    refine Cube.holds_inj fun x => ?_
    rw [← mem_words ha, h, mem_words hb]
  · intro h
    ext w
    obtain ⟨x, rfl⟩ := exists_assign w
    rw [mem_words ha, h, mem_words hb]

theorem isSubset_iff_words (ha : a.Wf n) (hb : b.Wf n) :
    a.isSubset b = true ↔ words n a ⊆ words n b := by
  rw [isSubset_iff ha hb, words_subset_iff ha hb, Cube.sub_iff]

theorem isDisjoint_iff_words (ha : a.Wf n) (hb : b.Wf n) :
    a.isDisjoint b = true ↔ Disjoint (words n a) (words n b) := by
  rw [isDisjoint_iff ha, disjoint_words_iff ha hb]

theorem equals_iff_words (ha : a.Wf n) (hb : b.Wf n) :
    a.equals b = true ↔ words n a = words n b := by
  rw [equals_iff ha hb, words_eq_iff ha hb]

theorem words_intersect (ha : a.Wf n) (hb : b.Wf n) (h : Cube.Compat a.cube b.cube) :
    words n (a.intersect b) = words n a ∩ words n b := by
  ext w
  obtain ⟨x, rfl⟩ := exists_assign w
  rw [Set.mem_inter_iff, mem_words (intersect_wf ha hb), mem_words ha, mem_words hb,
    cube_intersect ha hb h, Cube.holds_meet h]

/-- The pieces of `a` outside `b`, and the normal form of what is produced. -/
structure Parts (n : ℕ) (a b : IncSpecSeq) : Prop where
  nonempty : ∀ d ∈ a.diff b, (words n d).Nonempty
  pairwise : (a.diff b).Pairwise fun d e => Disjoint (words n d) (words n e)
  disjoint : ∀ d ∈ a.diff b, Disjoint (words n d) (words n b)
  union : words n (a.intersect b) ∪ ⋃ d ∈ a.diff b, words n d = words n a

theorem parts_of_compat (ha : a.Wf n) (hb : b.Wf n) (h : Cube.Compat a.cube b.cube) :
    Parts n a b := by
  obtain ⟨hpeel, hwf⟩ := diff_peel ha hb
  have hcompat : ∀ p, b.cube p ≠ none → p ∈ List.range (vecLength n * 32) := by
    intro p hp
    obtain ⟨v, hv⟩ := Option.ne_none_iff_exists'.mp hp
    have hdiv := hb.div_lt (cube_eq_some.mp hv).1
    rw [List.mem_range]
    omega
  -- the pieces as cubes
  have hpiece : ∀ x, (∃ d ∈ a.diff b, d.cube.Holds x) ↔ a.cube.Holds x ∧ ¬ b.cube.Holds x := by
    intro x
    rw [← Cube.peel_spec h hcompat, ← hpeel]
    simp
  refine ⟨fun d hd => words_nonempty (hwf d hd), ?_, fun d hd => ?_, ?_⟩
  · have hpair := Cube.pairwise_peel b.cube (List.range (vecLength n * 32)) a.cube
    rw [← hpeel, List.pairwise_map] at hpair
    exact hpair.imp_of_mem fun hd he hne => (disjoint_words_iff (hwf _ hd) (hwf _ he)).mpr hne
  · rw [disjoint_words_iff (hwf d hd) hb, Cube.compat_iff_exists]
    rintro ⟨x, hxd, hxb⟩
    exact ((hpiece x).mp ⟨d, hd, hxd⟩).2 hxb
  · ext w
    obtain ⟨x, rfl⟩ := exists_assign w
    have hunion : (fun p : Fin n => x p) ∈ (⋃ d ∈ a.diff b, words n d) ↔
        ∃ d ∈ a.diff b, d.cube.Holds x := by
      simp only [Set.mem_iUnion, exists_prop]
      exact exists_congr fun d => and_congr_right fun hd => mem_words (hwf d hd)
    rw [Set.mem_union, words_intersect ha hb h, Set.mem_inter_iff, hunion, hpiece, mem_words ha,
      mem_words hb, ← and_or_left, and_iff_left (em _)]

/-- Values are 0 at unspecified positions and from position `n` on. -/
theorem Built.normal (h : Built n a) {p : ℕ} (hp : wordBit a.seq p = true) :
    wordBit a.specifiedBits p = true ∧ p < n :=
  ⟨h.wf.value p hp, h.wf.bound p (h.wf.value p hp)⟩

/-- The set operations at every width: `diff` and `intersect` partition a sequence, the tests decide
about sets of words, and equal sets have one normal form. -/
theorem set_operations (ha : Built n a) (hb : Built n b) :
    ((words n a ∩ words n b).Nonempty → Parts n a b) ∧
    (a.isSubset b = true ↔ words n a ⊆ words n b) ∧
    (a.isDisjoint b = false ↔ (words n a ∩ words n b).Nonempty) ∧
    (∀ d, d = a.intersect b ∨ d ∈ a.diff b → ∀ p, wordBit d.seq p = true →
      wordBit d.specifiedBits p = true ∧ p < n) ∧
    (a.equals b = true ↔ words n a = words n b) ∧
    (words n a = words n b → a.hash = b.hash) := by
  have hwa := ha.wf
  have hwb := hb.wf
  refine ⟨fun h => parts_of_compat hwa hwb ((words_inter_nonempty_iff hwa hwb).mp h), ?_, ?_,
    ?_, ?_, fun h => ?_⟩
  · exact isSubset_iff_words hwa hwb
  · rw [words_inter_nonempty_iff hwa hwb, ← Bool.not_eq_true, isDisjoint_iff hwa, not_not]
  · rintro d (rfl | hd) p hp
    · exact (Built.intersect ha hb).normal hp
    · exact (Built.diff ha hb hd).normal hp
  · exact equals_iff_words hwa hwb
  · rw [hash, hash, (hwa.cube_inj hwb ((words_eq_iff hwa hwb).mp h)).1]

/-- A sequence over two words of 33 bits, and its last position. -/
theorem set_operations_wide :
    Parts 33 (ofString (List.replicate 33 '-')) (ofString (List.replicate 32 '-' ++ ['1'])) := by
  have ha : Built 33 (ofString (List.replicate 33 '-')) := .ofString rfl
  have hb : Built 33 (ofString (List.replicate 32 '-' ++ ['1'])) := .ofString rfl
  exact (set_operations ha hb).1 ((words_inter_nonempty_iff ha.wf hb.wf).mpr
    ((isCompatible_iff ha.wf).mp (by decide)))

end IncSpecSeq

end ExtFolding.MeMin
