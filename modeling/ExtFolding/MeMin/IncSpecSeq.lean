import ExtFolding.Lib.CubeSet
import ExtFolding.Lib.Loop
import ExtFolding.Utils.Stg

/-!
# `memin/IncSpecSeq.h`: incompletely specified sequences

Input and output columns as two vectors of 32-bit words. Every operation is stated on the cube that
the words stand for; `Wf` is the invariant of the constructors that makes equal words and equal
cubes the same.
-/

namespace ExtFolding.MeMin

open ExtFolding.Utils

/-- Words with a bit for every position: its value, and whether it is specified. `seqLength` is the
length of a column, which the parser cuts out with positions of 32 bits: an `unsigned int` holds
it. -/
structure IncSpecSeq where
  seq : List (BitVec 32)
  specifiedBits : List (BitVec 32)
  seqLength : ℕ
  fullySpecified : Bool
deriving DecidableEq

/-! ## Words -/

/-- Word `i` of a vector. -/
def wordAt (l : List (BitVec 32)) (i : ℕ) : BitVec 32 := l.getD i 0

/-- Bit `p` of a vector. -/
def wordBit (l : List (BitVec 32)) (p : ℕ) : Bool := (wordAt l (p / 32)).getLsbD (p % 32)

/-- `l[p/32] |= (1<<(p%32))` -/
def setBit (l : List (BitVec 32)) (p : ℕ) : List (BitVec 32) :=
  l.modify (p / 32) (· ||| (1#32 <<< (p % 32)))

@[simp] theorem length_setBit (l : List (BitVec 32)) (p : ℕ) : (setBit l p).length = l.length :=
  List.length_modify ..

theorem wordBit_setBit {l : List (BitVec 32)} {p : ℕ} (hp : p / 32 < l.length) (i : ℕ) :
    wordBit (setBit l p) i = (wordBit l i || decide (i = p)) := by
  have hmod : ∀ j : ℕ, j % 32 < 32 := fun j => Nat.mod_lt j (by decide)
  unfold wordBit wordAt setBit
  rw [List.getD_eq_getElem?_getD, List.getD_eq_getElem?_getD, List.getElem?_modify]
  by_cases hw : p / 32 = i / 32
  · have hi : i / 32 < l.length := hw ▸ hp
    simp only [List.getElem?_eq_getElem hi, Option.map_eq_map, Option.map_some, Option.getD_some,
      if_pos hw, BitVec.getLsbD_or]
    have hshift : (1#32 <<< (p % 32)).getLsbD (i % 32) = decide (i = p) := by
      rw [← BitVec.twoPow_eq, BitVec.getLsbD_twoPow, decide_eq_true (hmod p), Bool.true_and]
      exact decide_eq_decide.mpr ⟨fun h => by omega, fun h => by rw [h]⟩
    rw [hshift]
  · rw [decide_eq_false (by rintro rfl; exact hw rfl), Bool.or_false]
    simp [hw]

/-- Vectors of one length with the same bits are equal. -/
theorem eq_of_wordBit {a b : List (BitVec 32)} (hlen : a.length = b.length)
    (h : ∀ p, wordBit a p = wordBit b p) : a = b := by
  refine List.ext_getElem hlen fun i h₁ h₂ => BitVec.eq_of_getLsbD_eq fun j hj => ?_
  have hp := h (32 * i + j)
  have hdiv : (32 * i + j) / 32 = i := by omega
  have hmod : (32 * i + j) % 32 = j := by omega
  simpa [wordBit, wordAt, hdiv, hmod, h₁, h₂] using hp

theorem wordAt_of_ge {l : List (BitVec 32)} {i : ℕ} (h : l.length ≤ i) : wordAt l i = 0 := by
  simp [wordAt, h]

theorem wordBit_of_ge {l : List (BitVec 32)} {p : ℕ} (h : l.length ≤ p / 32) :
    wordBit l p = false := by
  unfold wordBit
  rw [wordAt_of_ge h]
  simp

theorem wordBit_replicate (n p : ℕ) : wordBit (List.replicate n 0) p = false := by
  unfold wordBit wordAt
  rw [List.getD_eq_getElem?_getD, List.getElem?_replicate]
  split <;> simp

theorem wordBit_map {f : ℕ → BitVec 32} {n p : ℕ} (hp : p / 32 < n) :
    wordBit ((List.range n).map f) p = (f (p / 32)).getLsbD (p % 32) := by
  unfold wordBit wordAt
  rw [List.getD_eq_getElem?_getD, List.getElem?_map, List.getElem?_range hp]
  rfl

/-- A test of all words is a test of all bits. -/
theorem forall_words {f g : ℕ → BitVec 32} {n : ℕ} :
    (∀ i < n, f i = g i) ↔
      ∀ p, p / 32 < n → (f (p / 32)).getLsbD (p % 32) = (g (p / 32)).getLsbD (p % 32) := by
  constructor
  · exact fun h p hp => by rw [h _ hp]
  · intro h i hi
    refine BitVec.eq_of_getLsbD_eq fun j hj => ?_
    have hdiv : (32 * i + j) / 32 = i := by omega
    have hmod : (32 * i + j) % 32 = j := by omega
    have := h (32 * i + j) (by rwa [hdiv])
    rwa [hdiv, hmod] at this

namespace IncSpecSeq

/-! ## The operations -/

/-- `(seqLength-1)/(sizeof(int)*8) + 1`, where the difference wraps for an empty sequence. -/
def vecLength (n : ℕ) : ℕ := (if n = 0 then 2 ^ 32 - 1 else n - 1) / 32 + 1

/-- The constructor from a string. -/
def ofString (s : List Char) : IncSpecSeq :=
  s.zipIdx.foldl (fun q p =>
    if p.1 = '0' ∨ p.1 = '1' then
      { q with
        specifiedBits := setBit q.specifiedBits p.2
        seq := if p.1 = '1' then setBit q.seq p.2 else q.seq }
    else { q with fullySpecified := false })
    ⟨List.replicate (vecLength s.length) 0, List.replicate (vecLength s.length) 0, s.length, true⟩

/-- Bits that are specified in both are the same. -/
def isCompatible (a b : IncSpecSeq) : Bool :=
  (List.range a.specifiedBits.length).all fun i =>
    let mask := wordAt a.specifiedBits i &&& wordAt b.specifiedBits i
    wordAt a.seq i &&& mask = wordAt b.seq i &&& mask

def intersect (a b : IncSpecSeq) : IncSpecSeq where
  seq := (List.range a.seq.length).map fun i =>
    (wordAt a.seq i &&& wordAt a.specifiedBits i) ||| (wordAt b.seq i &&& wordAt b.specifiedBits i)
  specifiedBits := (List.range a.seq.length).map fun i =>
    wordAt a.specifiedBits i ||| wordAt b.specifiedBits i
  seqLength := a.seqLength
  fullySpecified := a.fullySpecified || b.fullySpecified

def isDisjoint (a b : IncSpecSeq) : Bool :=
  (List.range a.seq.length).any fun i =>
    let mask := wordAt a.specifiedBits i &&& wordAt b.specifiedBits i
    wordAt a.seq i &&& mask ≠ wordAt b.seq i &&& mask

/-- The body of the two loops of `diff`, for bit `p % 32` of word `p / 32`. -/
def diffStep (a b : IncSpecSeq) (st : IncSpecSeq × List IncSpecSeq) (p : ℕ) :
    IncSpecSeq × List IncSpecSeq :=
  if p ≥ a.seqLength then st
  else if !wordBit a.specifiedBits p && wordBit b.specifiedBits p then
    let last := { st.1 with specifiedBits := setBit st.1.specifiedBits p }
    if wordBit b.seq p then ({ last with seq := setBit last.seq p }, st.2 ++ [last])
    else (last, st.2 ++ [{ last with seq := setBit last.seq p }])
  else st

/-- Words of `a` that are not in `b`, as cubes. -/
def diff (a b : IncSpecSeq) : List IncSpecSeq :=
  ((List.range a.seq.length).foldl (fun st i =>
    (List.range 32).foldl (fun st j => diffStep a b st (i * 32 + j)) st) (a, [])).2

def isSubset (a b : IncSpecSeq) : Bool :=
  ((List.range a.seq.length).all fun i =>
    wordAt b.specifiedBits i &&& wordAt a.specifiedBits i = wordAt b.specifiedBits i) &&
  a.isCompatible b

def equals (a b : IncSpecSeq) : Bool := a.seq = b.seq && a.specifiedBits = b.specifiedBits

/-- `toCString`, the same characters as `toString`. -/
def toCString (a : IncSpecSeq) : List Char :=
  (List.range a.seqLength).map fun p =>
    if wordBit a.specifiedBits p then bitChar (wordBit a.seq p) else '-'

/-! ## Cubes -/

/-- The literals of the positions. -/
def cube (a : IncSpecSeq) : Cube := fun p =>
  if wordBit a.specifiedBits p then some (wordBit a.seq p) else none

/-- Values are 0 where nothing is specified, nothing is specified from position `n` on, and the flag
is raised for no other than full words. -/
structure Wf (n : ℕ) (a : IncSpecSeq) : Prop where
  seqLength : a.seqLength = n
  seq : a.seq.length = vecLength n
  specifiedBits : a.specifiedBits.length = vecLength n
  value : ∀ p, wordBit a.seq p = true → wordBit a.specifiedBits p = true
  bound : ∀ p, wordBit a.specifiedBits p = true → p < n
  full : a.fullySpecified = true → ∀ p < n, wordBit a.specifiedBits p = true

theorem div_lt_vecLength {n p : ℕ} (h : p < n) : p / 32 < vecLength n := by
  unfold vecLength
  rw [if_neg (by omega)]
  omega

variable {n : ℕ} {a b : IncSpecSeq}

theorem cube_eq_some {p : ℕ} {v : Bool} :
    a.cube p = some v ↔ wordBit a.specifiedBits p = true ∧ wordBit a.seq p = v := by
  unfold cube
  split <;> simp [*]

theorem Wf.div_lt (ha : a.Wf n) {p : ℕ} (h : wordBit a.specifiedBits p = true) :
    p / 32 < vecLength n := div_lt_vecLength (ha.bound p h)

/-- Equal words and equal cubes are the same. -/
theorem Wf.cube_inj (ha : a.Wf n) (hb : b.Wf n) (h : a.cube = b.cube) :
    a.seq = b.seq ∧ a.specifiedBits = b.specifiedBits := by
  have hspec : ∀ p, wordBit a.specifiedBits p = wordBit b.specifiedBits p := by
    intro p
    have := congrFun h p
    unfold cube at this
    cases ha : wordBit a.specifiedBits p <;> cases hb : wordBit b.specifiedBits p <;>
      simp_all
  refine ⟨eq_of_wordBit (ha.seq.trans hb.seq.symm) fun p => ?_,
    eq_of_wordBit (ha.specifiedBits.trans hb.specifiedBits.symm) hspec⟩
  cases hp : wordBit a.specifiedBits p with
  | true =>
      have := congrFun h p
      rw [cube, if_pos hp, cube, if_pos ((hspec p).symm.trans hp)] at this
      exact Option.some.inj this
  | false =>
      have h₁ : wordBit a.seq p = false := by
        by_contra hne
        rw [ha.value p (by simpa using hne)] at hp
        exact Bool.noConfusion hp
      have h₂ : wordBit b.seq p = false := by
        by_contra hne
        rw [hspec p, hb.value p (by simpa using hne)] at hp
        exact Bool.noConfusion hp
      rw [h₁, h₂]

theorem equals_iff (ha : a.Wf n) (hb : b.Wf n) : a.equals b = true ↔ a.cube = b.cube := by
  unfold equals
  rw [Bool.and_eq_true, decide_eq_true_eq, decide_eq_true_eq]
  constructor
  · rintro ⟨h₁, h₂⟩
    unfold cube
    rw [h₁, h₂]
  · exact ha.cube_inj hb

/-- Masked words agree exactly when no common literal differs. -/
theorem compat_iff_words (ha : a.Wf n) :
    Cube.Compat a.cube b.cube ↔ ∀ i < vecLength n,
      wordAt a.seq i &&& (wordAt a.specifiedBits i &&& wordAt b.specifiedBits i) =
        wordAt b.seq i &&& (wordAt a.specifiedBits i &&& wordAt b.specifiedBits i) := by
  rw [forall_words]
  simp only [BitVec.getLsbD_and]
  constructor
  · intro h p _
    have := h p
    simp only [cube_eq_some] at this
    change (wordBit a.seq p && (wordBit a.specifiedBits p && wordBit b.specifiedBits p)) =
      (wordBit b.seq p && (wordBit a.specifiedBits p && wordBit b.specifiedBits p))
    cases hsa : wordBit a.specifiedBits p <;> cases hsb : wordBit b.specifiedBits p <;> simp_all
  · intro h p u v hu hv
    obtain ⟨hsa, rfl⟩ := cube_eq_some.mp hu
    obtain ⟨hsb, rfl⟩ := cube_eq_some.mp hv
    have hp := h p (ha.div_lt hsa)
    change (wordBit a.seq p && (wordBit a.specifiedBits p && wordBit b.specifiedBits p)) =
      (wordBit b.seq p && (wordBit a.specifiedBits p && wordBit b.specifiedBits p)) at hp
    rwa [hsa, hsb, Bool.and_self, Bool.and_true, Bool.and_true] at hp

theorem isCompatible_iff (ha : a.Wf n) : a.isCompatible b = true ↔ Cube.Compat a.cube b.cube := by
  rw [compat_iff_words ha]
  simp [isCompatible, ha.specifiedBits]

theorem isDisjoint_iff (ha : a.Wf n) : a.isDisjoint b = true ↔ ¬ Cube.Compat a.cube b.cube := by
  rw [compat_iff_words ha]
  simp [isDisjoint, ha.seq]

theorem isSubset_iff (ha : a.Wf n) (hb : b.Wf n) :
    a.isSubset b = true ↔ Cube.Sub a.cube b.cube := by
  have hwords : ((List.range a.seq.length).all fun i =>
      wordAt b.specifiedBits i &&& wordAt a.specifiedBits i = wordAt b.specifiedBits i) = true ↔
      ∀ p, wordBit b.specifiedBits p = true → wordBit a.specifiedBits p = true := by
    rw [List.all_eq_true]
    simp only [List.mem_range, decide_eq_true_eq]
    rw [forall_words]
    simp only [BitVec.getLsbD_and]
    refine ⟨fun h p hp => ?_, fun h p _ => ?_⟩
    · have : (wordBit b.specifiedBits p && wordBit a.specifiedBits p) =
          wordBit b.specifiedBits p := h p (by rw [ha.seq]; exact hb.div_lt hp)
      rwa [hp, Bool.true_and] at this
    · show (wordBit b.specifiedBits p && wordBit a.specifiedBits p) = wordBit b.specifiedBits p
      cases hp : wordBit b.specifiedBits p with
      | false => rfl
      | true => rw [h p hp]; rfl
  unfold isSubset
  rw [Bool.and_eq_true, hwords, isCompatible_iff ha]
  constructor
  · rintro ⟨hspec, hcomp⟩ p v hv
    have hsa := hspec p (cube_eq_some.mp hv).1
    have hca : a.cube p = some (wordBit a.seq p) := cube_eq_some.mpr ⟨hsa, rfl⟩
    rw [hca, hcomp p _ v hca hv]
  · intro h
    refine ⟨fun p hp => ?_, fun p u v hu hv => ?_⟩
    · exact (cube_eq_some.mp (h p _ (cube_eq_some.mpr ⟨hp, rfl⟩))).1
    · exact Option.some.inj (hu.symm.trans (h p v hv))

/-! ## Reading and writing -/

/-- The literal of a character. -/
def charLit (c : Char) : Option Bool :=
  if c = '0' then some false else if c = '1' then some true else none

theorem any_zipIdx {s : List Char} {p : ℕ} {P : Char → Bool} :
    (s.zipIdx.any fun e => decide (e.2 = p) && P e.1) = s[p]?.any P := by
  rw [Bool.eq_iff_iff, List.any_eq_true, Option.any_eq_true]
  constructor
  · rintro ⟨⟨c, i⟩, hmem, h⟩
    rw [Bool.and_eq_true, decide_eq_true_eq] at h
    obtain ⟨rfl, hP⟩ := h
    exact ⟨c, List.mem_zipIdx_iff_getElem?.mp hmem, hP⟩
  · rintro ⟨c, hc, hP⟩
    exact ⟨(c, p), List.mem_zipIdx_iff_getElem?.mpr hc, by simp [hP]⟩

/-- What the loop of the constructor has set after the characters `pre`. -/
structure ReadInv (n : ℕ) (pre : List (Char × ℕ)) (q : IncSpecSeq) : Prop where
  seqLength : q.seqLength = n
  seq_length : q.seq.length = vecLength n
  spec_length : q.specifiedBits.length = vecLength n
  seq : ∀ p, wordBit q.seq p = pre.any fun e => decide (e.2 = p) && decide (e.1 = '1')
  spec : ∀ p, wordBit q.specifiedBits p =
    pre.any fun e => decide (e.2 = p) && decide (e.1 = '0' ∨ e.1 = '1')
  full : q.fullySpecified = pre.all fun e => decide (e.1 = '0' ∨ e.1 = '1')

theorem ofString_inv (s : List Char) : ReadInv s.length s.zipIdx (ofString s) := by
  refine foldl_inv (ReadInv s.length) (fun pre e post q hl hq => ?_)
    ⟨rfl, List.length_replicate, List.length_replicate, fun p => by
      rw [wordBit_replicate, List.any_nil], fun p => by rw [wordBit_replicate, List.any_nil], rfl⟩
  have hlt : e.2 < s.length := by
    have hmem : (e.1, e.2) ∈ s.zipIdx := hl ▸ by simp
    exact (List.getElem?_eq_some_iff.mp (List.mem_zipIdx_iff_getElem?.mp hmem)).1
  have hdiv := div_lt_vecLength hlt
  by_cases hc : e.1 = '0' ∨ e.1 = '1'
  · rw [if_pos hc]
    refine ⟨hq.seqLength, ?_, ?_, fun p => ?_, fun p => ?_, ?_⟩
    · split
      · rw [length_setBit, hq.seq_length]
      · exact hq.seq_length
    · rw [length_setBit, hq.spec_length]
    · rw [List.any_append, ← hq.seq p, List.any_cons, List.any_nil, Bool.or_false]
      split
      · next h1 => rw [wordBit_setBit (hq.seq_length ▸ hdiv), h1]; simp [eq_comm]
      · next h1 => simp [h1]
    · rw [List.any_append, ← hq.spec p, List.any_cons, List.any_nil, Bool.or_false,
        wordBit_setBit (hq.spec_length ▸ hdiv), decide_eq_true hc, Bool.and_true]
      simp only [eq_comm]
    · rw [List.all_append, ← hq.full, List.all_cons, List.all_nil, decide_eq_true hc]
      simp
  · rw [if_neg hc]
    refine ⟨hq.seqLength, hq.seq_length, hq.spec_length, fun p => ?_, fun p => ?_, ?_⟩
    · rw [List.any_append, ← hq.seq p, List.any_cons, List.any_nil,
        decide_eq_false fun h1 => hc (Or.inr h1), Bool.and_false, Bool.or_false, Bool.or_false]
    · rw [List.any_append, ← hq.spec p, List.any_cons, List.any_nil, decide_eq_false hc,
        Bool.and_false, Bool.or_false, Bool.or_false]
    · rw [List.all_append, List.all_cons, decide_eq_false hc]
      simp

theorem wordBit_ofString_seq (s : List Char) (p : ℕ) :
    wordBit (ofString s).seq p = s[p]?.any fun c => decide (c = '1') :=
  ((ofString_inv s).seq p).trans (any_zipIdx (P := fun c => decide (c = '1')))

theorem wordBit_ofString_spec (s : List Char) (p : ℕ) :
    wordBit (ofString s).specifiedBits p = s[p]?.any fun c => decide (c = '0' ∨ c = '1') :=
  ((ofString_inv s).spec p).trans (any_zipIdx (P := fun c => decide (c = '0' ∨ c = '1')))

theorem ofString_wf (s : List Char) : (ofString s).Wf s.length := by
  have hs := ofString_inv s
  refine ⟨hs.seqLength, hs.seq_length, hs.spec_length, fun p hp => ?_, fun p hp => ?_,
    fun hfull p hp => ?_⟩
  · rw [wordBit_ofString_seq] at hp
    rw [wordBit_ofString_spec]
    obtain ⟨c, hc, h1⟩ := Option.any_eq_true _ _ |>.mp hp
    rw [hc]
    exact decide_eq_true (Or.inr (of_decide_eq_true h1))
  · rw [wordBit_ofString_spec] at hp
    obtain ⟨c, hc, -⟩ := Option.any_eq_true _ _ |>.mp hp
    exact (List.getElem?_eq_some_iff.mp hc).1
  · rw [hs.full, List.all_eq_true] at hfull
    rw [wordBit_ofString_spec, List.getElem?_eq_getElem hp]
    exact hfull (s[p], p) (List.mem_zipIdx_iff_getElem?.mpr (List.getElem?_eq_getElem hp))

theorem cube_ofString (s : List Char) (p : ℕ) : (ofString s).cube p = s[p]?.bind charLit := by
  unfold cube
  rw [wordBit_ofString_spec, wordBit_ofString_seq]
  cases s[p]? with
  | none => rfl
  | some c =>
      show (if decide (c = '0' ∨ c = '1') = true then some (decide (c = '1')) else none) = charLit c
      unfold charLit
      by_cases h0 : c = '0'
      · subst h0
        rfl
      · by_cases h1 : c = '1'
        · subst h1
          rfl
        · simp [h0, h1]

theorem toCString_eq (ha : a.Wf n) :
    a.toCString = (List.range n).map fun p => ((a.cube p).map bitChar).getD '-' := by
  unfold toCString cube
  rw [ha.seqLength]
  refine List.map_congr_left fun p _ => ?_
  split <;> rfl

/-- A column is written as it was read. -/
theorem toCString_ofString {s : List Char} (hs : ∀ c ∈ s, c = '0' ∨ c = '1' ∨ c = '-') :
    (ofString s).toCString = s := by
  rw [toCString_eq (ofString_wf s)]
  refine map_range_eq rfl fun p c hc => ?_
  rw [cube_ofString, hc]
  rcases hs c (List.mem_of_getElem? hc) with rfl | rfl | rfl <;> rfl

/-! ## Intersection and difference -/

theorem wordBit_intersect_spec (ha : a.Wf n) (hb : b.Wf n) (p : ℕ) :
    wordBit (a.intersect b).specifiedBits p =
      (wordBit a.specifiedBits p || wordBit b.specifiedBits p) := by
  by_cases hp : p / 32 < a.seq.length
  · show wordBit ((List.range a.seq.length).map _) p = _
    rw [wordBit_map hp, BitVec.getLsbD_or]
    rfl
  · have hp' : vecLength n ≤ p / 32 := ha.seq ▸ Nat.le_of_not_lt hp
    rw [wordBit_of_ge (by simpa [intersect, ha.seq] using hp'),
      wordBit_of_ge (ha.specifiedBits.trans_le hp'), wordBit_of_ge (hb.specifiedBits.trans_le hp')]
    rfl

theorem wordBit_intersect_seq (ha : a.Wf n) (hb : b.Wf n) (p : ℕ) :
    wordBit (a.intersect b).seq p = (wordBit a.seq p || wordBit b.seq p) := by
  by_cases hp : p / 32 < a.seq.length
  · show wordBit ((List.range a.seq.length).map _) p = _
    rw [wordBit_map hp, BitVec.getLsbD_or, BitVec.getLsbD_and, BitVec.getLsbD_and]
    change ((wordBit a.seq p && wordBit a.specifiedBits p) ||
      (wordBit b.seq p && wordBit b.specifiedBits p)) = _
    have hva := ha.value p
    have hvb := hb.value p
    cases h₁ : wordBit a.seq p <;> cases h₂ : wordBit b.seq p <;> simp_all
  · have hp' : vecLength n ≤ p / 32 := ha.seq ▸ Nat.le_of_not_lt hp
    rw [wordBit_of_ge (by simpa [intersect, ha.seq] using hp'),
      wordBit_of_ge (ha.seq.trans_le hp'), wordBit_of_ge (hb.seq.trans_le hp')]
    rfl

theorem intersect_wf (ha : a.Wf n) (hb : b.Wf n) : (a.intersect b).Wf n := by
  refine ⟨ha.seqLength, by simp [intersect, ha.seq], by simp [intersect, ha.seq],
    fun p hp => ?_, fun p hp => ?_, fun hfull p hp => ?_⟩
  · rw [wordBit_intersect_seq ha hb, Bool.or_eq_true] at hp
    rw [wordBit_intersect_spec ha hb, Bool.or_eq_true]
    exact hp.imp (ha.value p) (hb.value p)
  · rw [wordBit_intersect_spec ha hb, Bool.or_eq_true] at hp
    exact hp.elim (ha.bound p) (hb.bound p)
  · rw [wordBit_intersect_spec ha hb, Bool.or_eq_true]
    exact (Bool.or_eq_true _ _ ▸ hfull : _ ∨ _).imp (fun h => ha.full h p hp)
      (fun h => hb.full h p hp)

theorem cube_intersect (ha : a.Wf n) (hb : b.Wf n) (h : Cube.Compat a.cube b.cube) :
    (a.intersect b).cube = Cube.meet a.cube b.cube := by
  ext p v
  rw [cube_eq_some, wordBit_intersect_spec ha hb, wordBit_intersect_seq ha hb]
  unfold Cube.meet
  have hcomp := h p
  have hva := ha.value p
  have hvb := hb.value p
  unfold cube at hcomp ⊢
  cases hsa : wordBit a.specifiedBits p <;> cases hsb : wordBit b.specifiedBits p <;>
    cases h₁ : wordBit a.seq p <;> cases h₂ : wordBit b.seq p <;> simp_all

/-- Specifying a free bit as 0. -/
theorem Wf.specify (ha : a.Wf n) {p : ℕ} (hp : p < n) (hfree : wordBit a.specifiedBits p = false) :
    ({ a with specifiedBits := setBit a.specifiedBits p } : IncSpecSeq).Wf n ∧
      ({ a with specifiedBits := setBit a.specifiedBits p } : IncSpecSeq).cube =
        Function.update a.cube p (some false) := by
  have hdiv : p / 32 < a.specifiedBits.length := ha.specifiedBits ▸ div_lt_vecLength hp
  refine ⟨⟨ha.seqLength, ha.seq, (length_setBit _ _).trans ha.specifiedBits, fun i hi => ?_,
    fun i hi => ?_, fun hfull i hi => ?_⟩, ?_⟩
  · rw [wordBit_setBit hdiv, ha.value i hi]
    rfl
  · rw [wordBit_setBit hdiv, Bool.or_eq_true, decide_eq_true_eq] at hi
    exact hi.elim (ha.bound i) fun h => h ▸ hp
  · rw [wordBit_setBit hdiv, ha.full hfull i hi]
    rfl
  · ext i v
    rw [cube_eq_some, wordBit_setBit hdiv]
    by_cases hi : i = p
    · subst hi
      have hval : wordBit a.seq i = false := by
        by_contra hne
        rw [ha.value i (by simpa using hne)] at hfree
        exact Bool.noConfusion hfree
      rw [Function.update_self, hval]
      simp
    · rw [Function.update_of_ne hi, decide_eq_false hi, Bool.or_false]
      exact cube_eq_some.symm

/-- Raising the value of a specified bit. -/
theorem Wf.raise (ha : a.Wf n) {p : ℕ} (hspec : wordBit a.specifiedBits p = true) :
    ({ a with seq := setBit a.seq p } : IncSpecSeq).Wf n ∧
      ({ a with seq := setBit a.seq p } : IncSpecSeq).cube =
        Function.update a.cube p (some true) := by
  have hdiv : p / 32 < a.seq.length := ha.seq ▸ ha.div_lt hspec
  refine ⟨⟨ha.seqLength, (length_setBit _ _).trans ha.seq, ha.specifiedBits, fun i hi => ?_,
    ha.bound, ha.full⟩, ?_⟩
  · rw [wordBit_setBit hdiv, Bool.or_eq_true, decide_eq_true_eq] at hi
    exact hi.elim (ha.value i) fun h => h ▸ hspec
  · ext i v
    rw [cube_eq_some, wordBit_setBit hdiv]
    by_cases hi : i = p
    · subst hi
      rw [Function.update_self, hspec]
      simp
    · rw [Function.update_of_ne hi, decide_eq_false hi, Bool.or_false]
      exact (cube_eq_some (a := a)).symm

/-- The loop over the positions `ps` peels the rest. -/
theorem diffSteps_spec (ha : a.Wf n) (hb : b.Wf n) {ps : List ℕ} (hps : ps.Nodup) :
    ∀ (last : IncSpecSeq) (ret : List IncSpecSeq), last.Wf n →
      (∀ p ∈ ps, wordBit last.specifiedBits p = wordBit a.specifiedBits p) →
      ∃ ds, (ps.foldl (diffStep a b) (last, ret)).2 = ret ++ ds ∧
        ds.map cube = Cube.peel b.cube ps last.cube ∧ ∀ d ∈ ds, d.Wf n := by
  induction ps with
  | nil => exact fun last ret _ _ => ⟨[], (List.append_nil ret).symm, rfl, by simp⟩
  | cons p ps ih =>
      intro last ret hlast hsame
      obtain ⟨hnot, hnd⟩ := List.nodup_cons.mp hps
      have hp := hsame p List.mem_cons_self
      have hps' : ∀ q ∈ ps, wordBit last.specifiedBits q = wordBit a.specifiedBits q := fun q hq =>
        hsame q (List.mem_cons_of_mem _ hq)
      rw [List.foldl_cons]
      by_cases hhit : wordBit a.specifiedBits p = false ∧ wordBit b.specifiedBits p = true
      · obtain ⟨hfree, hspec⟩ := hhit
        have hlt : p < n := hb.bound p hspec
        obtain ⟨hwf₀, hcube₀⟩ := hlast.specify hlt (hp.trans hfree)
        set last₀ : IncSpecSeq :=
          { last with specifiedBits := setBit last.specifiedBits p } with hl₀
        have hdiv : p / 32 < last.specifiedBits.length :=
          hlast.specifiedBits ▸ div_lt_vecLength hlt
        have hspec₀ : wordBit last₀.specifiedBits p = true := by
          rw [hl₀, wordBit_setBit hdiv]
          simp
        have hkeep : ∀ q ∈ ps, wordBit last₀.specifiedBits q = wordBit a.specifiedBits q := by
          intro q hq
          rw [hl₀, wordBit_setBit hdiv, decide_eq_false (by rintro rfl; exact hnot hq),
            Bool.or_false, hps' q hq]
        obtain ⟨hwf₁, hcube₁⟩ := hwf₀.raise hspec₀
        set last₁ : IncSpecSeq := { last₀ with seq := setBit last₀.seq p } with hl₁
        have hnone : last.cube p = none := by
          unfold cube
          rw [hp, hfree]
          rfl
        have hbp : b.cube p = some (wordBit b.seq p) := cube_eq_some.mpr ⟨hspec, rfl⟩
        have hraise : last₁.cube = Function.update last.cube p (some true) := by
          rw [hcube₁, hcube₀, Function.update_idem]
        -- the piece gets the other value, the rest the value of `b`
        cases hv : wordBit b.seq p with
        | true =>
            have hstep : diffStep a b (last, ret) p = (last₁, ret ++ [last₀]) := by
              simp only [diffStep, ha.seqLength, ge_iff_le, Nat.not_le_of_lt hlt, if_false, hfree,
                hspec, hv, Bool.not_false, Bool.and_self, if_true]
              rfl
            obtain ⟨ds, hret, hds, hwf⟩ := ih hnd last₁ (ret ++ [last₀]) hwf₁ hkeep
            refine ⟨last₀ :: ds, ?_, ?_, ?_⟩
            · rw [hstep, hret, List.append_assoc]
              rfl
            · rw [List.map_cons, hds, hcube₀, hraise, Cube.peel, hnone, hbp, hv]
              rfl
            · exact List.forall_mem_cons.mpr ⟨hwf₀, hwf⟩
        | false =>
            have hstep : diffStep a b (last, ret) p = (last₀, ret ++ [last₁]) := by
              simp only [diffStep, ha.seqLength, ge_iff_le, Nat.not_le_of_lt hlt, if_false, hfree,
                hspec, hv, Bool.not_false, Bool.and_self, if_true]
              rfl
            obtain ⟨ds, hret, hds, hwf⟩ := ih hnd last₀ (ret ++ [last₁]) hwf₀ hkeep
            refine ⟨last₁ :: ds, ?_, ?_, ?_⟩
            · rw [hstep, hret, List.append_assoc]
              rfl
            · rw [List.map_cons, hds, hcube₀, hraise, Cube.peel, hnone, hbp, hv]
              rfl
            · exact List.forall_mem_cons.mpr ⟨hwf₁, hwf⟩
      · have hstep : diffStep a b (last, ret) p = (last, ret) := by
          unfold diffStep
          split
          · rfl
          · rw [if_neg]
            intro h
            rw [Bool.and_eq_true, Bool.not_eq_true'] at h
            exact hhit h
        obtain ⟨ds, hret, hds, hwf⟩ := ih hnd last ret hlast hps'
        refine ⟨ds, by rw [hstep, hret], ?_, hwf⟩
        rw [hds, Cube.peel]
        split
        · next v hl hbv =>
            refine absurd ⟨?_, (cube_eq_some.mp hbv).1⟩ hhit
            unfold cube at hl
            rw [← hp]
            by_contra hne
            rw [if_pos (by simpa using hne)] at hl
            simp at hl
        · rfl

theorem diff_peel (ha : a.Wf n) (hb : b.Wf n) :
    (a.diff b).map cube = Cube.peel b.cube (List.range (vecLength n * 32)) a.cube ∧
      ∀ d ∈ a.diff b, d.Wf n := by
  obtain ⟨ds, hret, hds, hwf⟩ :=
    diffSteps_spec ha hb (List.nodup_range (n := vecLength n * 32)) a []
    ha fun _ _ => rfl
  have hdiff : a.diff b = ds := by
    unfold diff
    rw [ha.seq, foldl_range_mul (diffStep a b) 32, hret]
    rfl
  rw [hdiff]
  exact ⟨hds, hwf⟩

end IncSpecSeq

end ExtFolding.MeMin
