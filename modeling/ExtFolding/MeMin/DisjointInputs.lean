import ExtFolding.Lib.Loop
import ExtFolding.Lib.Refine
import ExtFolding.MeMin.CubeWords
import ExtFolding.MeMin.Machine

/-!
# `memin/minimizer.cpp`: `getDisjointInputSet`

The inputs of a class of states are split against each other with a queue. The sets are hashed by
address and compared by value: an equal sequence at another address is found only when it stands in
the bucket that is searched, so both the order of traversal and this are left open.
-/

namespace ExtFolding.MeMin

/-! ## The code -/

/-- A pointer to a sequence: to the one that the parser made for a string, or to a later one. -/
structure SeqPtr where
  shared : Bool
  seq : IncSpecSeq
deriving DecidableEq

/-- How the sets behave in each round: the order of traversal, and whether an equal sequence at
another address is found. -/
structure Hashing where
  order : ℕ → List SeqPtr → List SeqPtr
  near : ℕ → List SeqPtr → SeqPtr → Bool
  perm : ∀ k D, (order k D).Perm D

namespace SeqPtr

/-- `set.count(x)>0`; the parser has one address for a string. -/
def count (near : List SeqPtr → SeqPtr → Bool) (D : List SeqPtr) (x : SeqPtr) : Bool :=
  D.any fun d => d.seq.equals x.seq && ((d.shared && x.shared) || near D x)

/-- `set.insert(x)` -/
def insert (near : List SeqPtr → SeqPtr → Bool) (D : List SeqPtr) (x : SeqPtr) : List SeqPtr :=
  if count near D x then D else D ++ [x]

end SeqPtr

/-- `new IncSpecSeq(q)` -/
def newSeq (q : IncSpecSeq) : SeqPtr := ⟨false, q⟩

/-- The states of the class. -/
def classStates (states : List (List Trans)) (eqClass : List Bool) : List ℕ :=
  (List.range states.length).filter fun s => eqClass.getD s false

/-- The inputs of a state. -/
def inputsOf (states : List (List Trans)) (s : ℕ) : List SeqPtr :=
  (rowsOf states s).map fun t => ⟨true, t.1⟩

/-- `remainingInputs` and `alreadyInQueue` after one more input. -/
def enqueue (near : List SeqPtr → SeqPtr → Bool) (p : List SeqPtr × List SeqPtr) (x : SeqPtr) :
    List SeqPtr × List SeqPtr :=
  if SeqPtr.count near p.2 x then p else (p.1 ++ [x], SeqPtr.insert near p.2 x)

/-- One round of the loop, for the front `cur` of the queue: what remains of the queue, and
`disjointInputs`. -/
def splitStep (hs : Hashing) (k : ℕ) (cur : SeqPtr) (queue D : List SeqPtr) :
    List SeqPtr × List SeqPtr :=
  let near := hs.near k
  if SeqPtr.count near D cur then (queue, D)
  else match (hs.order k D).find? fun d => !d.seq.isDisjoint cur.seq with
    | none => (queue, SeqPtr.insert near D cur)
    | some d =>
        let pieces := (d.seq.intersect cur.seq :: d.seq.diff cur.seq).map newSeq
        if cur.seq.isSubset d.seq then
          (queue, pieces.foldl (SeqPtr.insert near) (D.erase d))
        else if d.seq.isSubset cur.seq then
          (queue ++ (cur.seq.diff d.seq).map newSeq, D)
        else
          (queue ++ (cur.seq.diff d.seq).map newSeq,
            (pieces.foldl (SeqPtr.insert near) D).erase d)

/-- The loop over the queue; `none` where it needs more rounds. -/
def splitLoop (hs : Hashing) : ℕ → ℕ → List SeqPtr → List SeqPtr → Option (List SeqPtr)
  | _, _, [], D => some D
  | 0, _, _ :: _, _ => none
  | fuel + 1, k, cur :: queue, D =>
      let p := splitStep hs k cur queue D
      splitLoop hs fuel (k + 1) p.1 p.2

/-- `ret.insert(**it)`, a set that is hashed by value. -/
def valueSet (D : List SeqPtr) : List IncSpecSeq :=
  D.foldl (fun ret d => if ret.any (·.equals d.seq) then ret else ret ++ [d.seq]) []

def getDisjointInputSet (hs : Hashing) (fuel : ℕ) (states : List (List Trans))
    (eqClass : List Bool) : Option (List IncSpecSeq) :=
  match classStates states eqClass with
  | [] => some []
  | curS :: rest => do
      let near := hs.near 0
      let disjointInputs := (inputsOf states curS).foldl (SeqPtr.insert near) []
      let inputs := (curS :: rest).flatMap (inputsOf states)
      let remainingInputs := (inputs.foldl (enqueue near) ([], [])).1
      if inputs.any (!·.seq.fullySpecified) then
        return valueSet (← splitLoop hs fuel 1 remainingInputs disjointInputs)
      else return valueSet (remainingInputs.foldl (SeqPtr.insert near) disjointInputs)

/-! ## Insertion -/

variable {n : ℕ} {near : List SeqPtr → SeqPtr → Bool} {D l queue : List SeqPtr} {x cur d : SeqPtr}

/-- The words of a pointer's sequence. -/
def ptrWords (n : ℕ) (p : SeqPtr) : Set (Fin n → Bool) := p.seq.words n

namespace SeqPtr

theorem exists_of_count (hD : ∀ p ∈ D, p.seq.Wf n) (hx : x.seq.Wf n) (h : count near D x = true) :
    ∃ p ∈ D, ptrWords n p = ptrWords n x := by
  obtain ⟨p, hp, heq⟩ := List.any_eq_true.mp h
  exact ⟨p, hp, (IncSpecSeq.equals_iff_words (hD p hp) hx).mp (Bool.and_eq_true_iff.mp heq).1⟩

theorem insert_sublist : (insert near D x).Sublist (D ++ [x]) := by
  unfold insert
  split
  · exact List.sublist_append_left ..
  · exact List.Sublist.refl _

theorem inserts_sublist (near : List SeqPtr → SeqPtr → Bool) :
    (l.foldl (insert near) D).Sublist (D ++ l) := by
  induction l generalizing D with
  | nil => simp
  | cons x l ih => simpa using ih.trans (insert_sublist.append_right l)

theorem subset_inserts : D ⊆ l.foldl (insert near) D := by
  induction l generalizing D with
  | nil => exact List.Subset.refl D
  | cons x l ih =>
      refine List.Subset.trans (fun p hp => ?_) (ih (D := insert near D x))
      unfold insert
      split
      · exact hp
      · exact List.mem_append_left _ hp

theorem wf_of_sublist {l' : List SeqPtr} (h : ∀ p ∈ l, p.seq.Wf n) (hs : l'.Sublist l) :
    ∀ p ∈ l', p.seq.Wf n := fun p hp => h p (hs.subset hp)

/-- What is inserted stands in the set, perhaps at another address. -/
theorem exists_inserts (near : List SeqPtr → SeqPtr → Bool) (hD : ∀ p ∈ D, p.seq.Wf n)
    (hl : ∀ p ∈ l, p.seq.Wf n) (hx : x ∈ l) :
    ∃ p ∈ l.foldl (insert near) D, ptrWords n p = ptrWords n x := by
  induction l generalizing D with
  | nil => exact absurd hx List.not_mem_nil
  | cons y l ih =>
      obtain ⟨hy, hl⟩ := List.forall_mem_cons.mp hl
      have hD' : ∀ p ∈ insert near D y, p.seq.Wf n := fun p hp => by
        rcases List.mem_append.mp (insert_sublist.subset hp) with hp | hp
        · exact hD p hp
        · exact List.mem_singleton.mp hp ▸ hy
      rcases List.mem_cons.mp hx with rfl | hx
      · obtain ⟨p, hp, heq⟩ : ∃ p ∈ insert near D x, ptrWords n p = ptrWords n x := by
          unfold insert
          split
          · next hc => exact exists_of_count hD hy hc
          · exact ⟨x, by simp, rfl⟩
        exact ⟨p, subset_inserts (D := insert near D x) hp, heq⟩
      · exact ih hD' hl hx

end SeqPtr

/-! ## Rounds -/

/-- The number of words that wait in the queue. -/
noncomputable def pending (n : ℕ) (queue : List SeqPtr) : ℕ :=
  (queue.map fun p => (ptrWords n p).ncard).sum

theorem pending_append (a b : List SeqPtr) : pending n (a ++ b) = pending n a + pending n b := by
  simp [pending]

theorem pending_cons (p : SeqPtr) (l : List SeqPtr) :
    pending n (p :: l) = (ptrWords n p).ncard + pending n l := by
  simp [pending]

theorem ncard_pos (hx : x.seq.Wf n) : 0 < (ptrWords n x).ncard :=
  (Set.ncard_pos (Set.toFinite _)).mpr (IncSpecSeq.words_nonempty hx)

/-- The common part of two sequences. -/
def commonOf (d cur : SeqPtr) : SeqPtr := newSeq (d.seq.intersect cur.seq)

/-- The rest of the first. -/
def restOf (d cur : SeqPtr) : List SeqPtr := (d.seq.diff cur.seq).map newSeq

/-- The common part and the rest make up the first sequence. -/
structure Pieces (n : ℕ) (d cur : SeqPtr) : Prop where
  wf : ∀ p ∈ commonOf d cur :: restOf d cur, p.seq.Wf n
  common : ptrWords n (commonOf d cur) = ptrWords n d ∩ ptrWords n cur
  apart : Apart (ptrWords n) (restOf d cur)
  sub : ∀ p ∈ restOf d cur, ptrWords n p ⊆ ptrWords n d \ ptrWords n cur
  cover : ∀ w ∈ ptrWords n d \ ptrWords n cur, ∃ p ∈ restOf d cur, w ∈ ptrWords n p

theorem pieces_spec (hd : d.seq.Wf n) (hc : cur.seq.Wf n)
    (h : ¬ Disjoint (ptrWords n d) (ptrWords n cur)) : Pieces n d cur := by
  have hcompat : Cube.Compat d.seq.cube cur.seq.cube :=
    not_not.mp fun hcon => h ((IncSpecSeq.disjoint_words_iff hd hc).mpr hcon)
  have hparts := IncSpecSeq.parts_of_compat hd hc hcompat
  have hinter := IncSpecSeq.words_intersect hd hc hcompat
  have hunion : (d.seq.intersect cur.seq).words n ∪ ⋃ q ∈ d.seq.diff cur.seq, q.words n =
      ptrWords n d := hparts.union
  refine ⟨fun p hp => ?_, hinter, List.pairwise_map.mpr hparts.pairwise, fun p hp => ?_,
    fun w ⟨hwd, hwc⟩ => ?_⟩
  · rcases List.mem_cons.mp hp with rfl | hp
    · exact IncSpecSeq.intersect_wf hd hc
    · obtain ⟨q, hq, rfl⟩ := List.mem_map.mp hp
      exact (IncSpecSeq.diff_peel hd hc).2 q hq
  · obtain ⟨q, hq, rfl⟩ := List.mem_map.mp hp
    refine Set.subset_sdiff.mpr ⟨?_, hparts.disjoint q hq⟩
    rw [← hunion]
    exact (Set.subset_biUnion_of_mem (u := IncSpecSeq.words n) hq).trans Set.subset_union_right
  · rw [← hunion] at hwd
    rcases hwd with hw | hw
    · exact absurd (hinter.subset hw).2 hwc
    · obtain ⟨q, hq, hw⟩ := Set.mem_iUnion₂.mp hw
      exact ⟨newSeq q, List.mem_map.mpr ⟨q, hq, rfl⟩, hw⟩

namespace Pieces

theorem sub_all (h : Pieces n d cur) :
    ∀ p ∈ commonOf d cur :: restOf d cur, ptrWords n p ⊆ ptrWords n d := by
  intro p hp
  rcases List.mem_cons.mp hp with rfl | hp
  · exact h.common.trans_subset Set.inter_subset_left
  · exact (h.sub p hp).trans Set.sdiff_subset

theorem cover_all (h : Pieces n d cur) {w : Fin n → Bool} (hw : w ∈ ptrWords n d) :
    ∃ p ∈ commonOf d cur :: restOf d cur, w ∈ ptrWords n p := by
  by_cases hwc : w ∈ ptrWords n cur
  · exact ⟨_, List.mem_cons_self, h.common.superset ⟨hw, hwc⟩⟩
  · obtain ⟨p, hp, hwp⟩ := h.cover w ⟨hw, hwc⟩
    exact ⟨p, List.mem_cons_of_mem _ hp, hwp⟩

theorem apart_all (h : Pieces n d cur) :
    Apart (ptrWords n) (commonOf d cur :: restOf d cur) := by
  refine List.pairwise_cons.mpr ⟨fun p hp => ?_, h.apart⟩
  rw [h.common]
  exact Set.disjoint_left.mpr fun w hw hwp => (h.sub p hp hwp).2 hw.2

/-- The rest has fewer words. -/
theorem pending_rest (h : Pieces n d cur) (hmeet : ¬ Disjoint (ptrWords n d) (ptrWords n cur)) :
    pending n (restOf d cur) < (ptrWords n d).ncard := by
  obtain ⟨w, hwd, hwc⟩ := Set.not_disjoint_iff.mp hmeet
  exact (h.apart.sum_ncard_le h.sub).trans_lt
    (Set.ncard_lt_ncard ⟨Set.sdiff_subset, fun hsub => (hsub hwd).2 hwc⟩ (Set.toFinite _))

end Pieces

/-- What one round leaves. -/
structure SplitOk (n : ℕ) (cur : SeqPtr) (queue D : List SeqPtr) (r : List SeqPtr × List SeqPtr) :
    Prop where
  wf : ∀ p ∈ r.2 ++ r.1, p.seq.Wf n
  fewer : pending n r.1 < pending n (cur :: queue)
  finer : Finer (ptrWords n) (r.2 ++ r.1) (D ++ cur :: queue)
  apart : Apart (ptrWords n) D → Apart (ptrWords n) r.2

/-- A round in which `cur` leaves the queue and only the set changes. -/
theorem SplitOk.of_set {D' : List SeqPtr} (hwf : ∀ p ∈ D ++ cur :: queue, p.seq.Wf n)
    (hwf' : ∀ p ∈ D', p.seq.Wf n) (hfine : Finer (ptrWords n) D' (cur :: D))
    (hapart : Apart (ptrWords n) D → Apart (ptrWords n) D') :
    SplitOk n cur queue D (queue, D') := by
  have hq : ∀ p ∈ queue, p.seq.Wf n := fun p hp => hwf p (by simp [hp])
  refine ⟨fun p hp => (List.mem_append.mp hp).elim (hwf' p) (hq p), ?_, fun c hc w hw => ?_, hapart⟩
  · rw [pending_cons]
    exact Nat.lt_add_of_pos_left (ncard_pos (hwf cur (by simp)))
  · rcases List.mem_append.mp hc with hc | hc
    · obtain ⟨p, hp, h⟩ := hfine c (List.mem_cons_of_mem _ hc) w hw
      exact ⟨p, List.mem_append_left _ hp, h⟩
    · rcases List.mem_cons.mp hc with rfl | hc
      · obtain ⟨p, hp, h⟩ := hfine c List.mem_cons_self w hw
        exact ⟨p, List.mem_append_left _ hp, h⟩
      · exact ⟨c, List.mem_append_right _ hc, hw, subset_rfl⟩

/-- A round in which the rest of `cur` goes to the end of the queue: what it shares with `d` is in
the set. -/
theorem SplitOk.of_rest {D' : List SeqPtr} (hwf : ∀ p ∈ D ++ cur :: queue, p.seq.Wf n)
    (hd : d ∈ D) (hmeet : ¬ Disjoint (ptrWords n d) (ptrWords n cur))
    (hwf' : ∀ p ∈ D', p.seq.Wf n) (hfine : Finer (ptrWords n) D' D)
    (hcommon : ∃ p ∈ D', ptrWords n p = ptrWords n d ∩ ptrWords n cur)
    (hapart : Apart (ptrWords n) D → Apart (ptrWords n) D') :
    SplitOk n cur queue D (queue ++ restOf cur d, D') := by
  have hmeet' : ¬ Disjoint (ptrWords n cur) (ptrWords n d) := fun h => hmeet h.symm
  have hpieces := pieces_spec (hwf cur (by simp)) (hwf d (by simp [hd])) hmeet'
  obtain ⟨q, hq, hqc⟩ := hcommon
  refine ⟨fun p hp => ?_, ?_, fun c hc w hw => ?_, hapart⟩
  · rcases List.mem_append.mp hp with hp | hp
    · exact hwf' p hp
    · rcases List.mem_append.mp hp with hp | hp
      · exact hwf p (by simp [hp])
      · exact hpieces.wf p (List.mem_cons_of_mem _ hp)
  · rw [pending_append, pending_cons, Nat.add_comm]
    exact Nat.add_lt_add_right (hpieces.pending_rest hmeet') _
  · rcases List.mem_append.mp hc with hc | hc
    · obtain ⟨p, hp, h⟩ := hfine c hc w hw
      exact ⟨p, List.mem_append_left _ hp, h⟩
    · rcases List.mem_cons.mp hc with rfl | hc
      · -- a word of `cur` is shared or in a piece of the rest
        by_cases hwd : w ∈ ptrWords n d
        · refine ⟨q, List.mem_append_left _ hq, hqc ▸ ⟨hwd, hw⟩, ?_⟩
          rw [hqc]
          exact Set.inter_subset_right
        · obtain ⟨p, hp, hwp⟩ := hpieces.cover w ⟨hw, hwd⟩
          exact ⟨p, by simp [hp], hwp, hpieces.sub_all p (List.mem_cons_of_mem _ hp)⟩
      · exact ⟨c, by simp [hc], hw, subset_rfl⟩

/-- Replacing `d` by its pieces. -/
theorem finer_of_pieces {D' : List SeqPtr} (hpieces : Pieces n d cur)
    (hkeep : ∀ p ∈ D, p ≠ d → p ∈ D')
    (hnew : ∀ p ∈ commonOf d cur :: restOf d cur, ∃ q ∈ D', ptrWords n q = ptrWords n p) :
    Finer (ptrWords n) D' D := by
  intro c hc w hw
  by_cases hcd : c = d
  · subst hcd
    obtain ⟨p, hp, hwp⟩ := hpieces.cover_all hw
    obtain ⟨q, hq, heq⟩ := hnew p hp
    exact ⟨q, hq, heq ▸ hwp, heq ▸ hpieces.sub_all p hp⟩
  · exact ⟨c, hkeep c hc hcd, hw, subset_rfl⟩

/-- Every round makes the set and the queue finer and leaves fewer words in the queue. -/
theorem splitStep_ok (hs : Hashing) (k : ℕ) (hwf : ∀ p ∈ D ++ cur :: queue, p.seq.Wf n) :
    SplitOk n cur queue D (splitStep hs k cur queue D) := by
  have hcur := hwf cur (by simp)
  have hDwf : ∀ p ∈ D, p.seq.Wf n := fun p hp => hwf p (by simp [hp])
  unfold splitStep
  by_cases hcount : SeqPtr.count (hs.near k) D cur = true
  · -- an equal sequence is there already
    rw [if_pos hcount]
    obtain ⟨p, hp, heq⟩ := SeqPtr.exists_of_count hDwf hcur hcount
    exact .of_set hwf hDwf (.of_mem (List.forall_mem_cons.mpr
      ⟨⟨p, hp, heq⟩, fun c hc => ⟨c, hc, rfl⟩⟩)) id
  · rw [if_neg hcount]
    cases hfind : (hs.order k D).find? fun d => !d.seq.isDisjoint cur.seq with
    | none =>
        -- nothing meets `cur`
        have hfar : ∀ p ∈ D, Disjoint (ptrWords n p) (ptrWords n cur) := by
          intro p hp
          have := List.find?_eq_none.mp hfind p ((hs.perm k D).mem_iff.mpr hp)
          exact (IncSpecSeq.isDisjoint_iff_words (hDwf p hp) hcur).mp (by simpa using this)
        have hwf₁ : ∀ p ∈ D ++ [cur], p.seq.Wf n := fun p hp => by
          rcases List.mem_append.mp hp with hp | hp
          · exact hDwf p hp
          · exact List.mem_singleton.mp hp ▸ hcur
        have hins : SeqPtr.insert (hs.near k) D cur = D ++ [cur] := if_neg hcount
        refine .of_set hwf (fun p hp => hwf₁ p (hins ▸ hp)) (.of_mem fun c hc => ?_) fun hD => ?_
        · exact ⟨c, by rw [hins]; simpa [or_comm] using hc, rfl⟩
        · rw [hins]
          exact List.pairwise_append.mpr ⟨hD, List.pairwise_singleton _ _, fun p hp q hq =>
            List.mem_singleton.mp hq ▸ hfar p hp⟩
    | some d =>
        have hd : d ∈ D := (hs.perm k D).mem_iff.mp (List.mem_of_find?_eq_some hfind)
        have hmeet : ¬ Disjoint (ptrWords n d) (ptrWords n cur) := by
          have := List.find?_some hfind
          intro hdis
          rw [(IncSpecSeq.isDisjoint_iff_words (hDwf d hd) hcur).mpr hdis] at this
          exact Bool.noConfusion this
        have hpieces := pieces_spec (hDwf d hd) hcur hmeet
        set ps := commonOf d cur :: restOf d cur with hps
        have hall : ∀ p ∈ D.erase d ++ ps, p.seq.Wf n := fun p hp =>
          (List.mem_append.mp hp).elim (fun hp => hDwf p (List.mem_of_mem_erase hp)) (hpieces.wf p)
        have hreplaced : Apart (ptrWords n) D → Apart (ptrWords n) (D.erase d ++ ps) := fun hD =>
          hD.replace hd hpieces.apart_all hpieces.sub_all
        by_cases hcd : cur.seq.isSubset d.seq = true
        · -- `cur` is inside `d`
          simp only [if_pos hcd]
          set D' := ps.foldl (SeqPtr.insert (hs.near k)) (D.erase d) with hD'
          have hnew : ∀ p ∈ ps, ∃ q ∈ D', ptrWords n q = ptrWords n p := fun p hp =>
            SeqPtr.exists_inserts (hs.near k) (fun p hp => hDwf p (List.mem_of_mem_erase hp))
              hpieces.wf hp
          have hfine := finer_of_pieces hpieces
            (fun p hp hne => SeqPtr.subset_inserts ((List.mem_erase_of_ne hne).mpr hp)) hnew
          have hcommon : ptrWords n (commonOf d cur) = ptrWords n cur := by
            rw [hpieces.common, Set.inter_eq_right]
            exact (IncSpecSeq.isSubset_iff_words hcur (hDwf d hd)).mp hcd
          refine .of_set hwf (SeqPtr.wf_of_sublist hall (SeqPtr.inserts_sublist _)) (fun c hc => ?_)
            fun hD => (hreplaced hD).sublist (SeqPtr.inserts_sublist _)
          rcases List.mem_cons.mp hc with rfl | hc
          · obtain ⟨q, hq, heq⟩ := hnew _ List.mem_cons_self
            exact fun w hw => ⟨q, hq, by rw [heq, hcommon]; exact hw, (heq.trans hcommon).le⟩
          · exact hfine c hc
        · simp only [if_neg hcd]
          by_cases hdc : d.seq.isSubset cur.seq = true
          · -- `d` is inside `cur`
            rw [if_pos hdc]
            refine .of_rest hwf hd hmeet hDwf (.of_mem fun c hc => ⟨c, hc, rfl⟩) ⟨d, hd, ?_⟩ id
            rw [eq_comm, Set.inter_eq_left]
            exact (IncSpecSeq.isSubset_iff_words (hDwf d hd) hcur).mp hdc
          · -- they overlap
            rw [if_neg hdc]
            have hin := SeqPtr.inserts_sublist (hs.near k) (D := D) (l := ps)
            have herase : ((ps.foldl (SeqPtr.insert (hs.near k)) D).erase d).Sublist
                (D.erase d ++ ps) := by
              rw [← List.erase_append_left _ hd]
              exact hin.erase d
            have hne : ∀ p ∈ ps, ptrWords n p ≠ ptrWords n d := by
              intro p hp heq
              rcases List.mem_cons.mp hp with rfl | hp
              · rw [hpieces.common, Set.inter_eq_left] at heq
                exact hdc ((IncSpecSeq.isSubset_iff_words (hDwf d hd) hcur).mpr heq)
              · have hsub := hpieces.sub p hp
                rw [heq] at hsub
                exact hmeet (Set.disjoint_left.mpr fun w hw => (hsub hw).2)
            have hnew : ∀ p ∈ ps, ∃ q ∈ (ps.foldl (SeqPtr.insert (hs.near k)) D).erase d,
                ptrWords n q = ptrWords n p := by
              intro p hp
              obtain ⟨q, hq, heq⟩ := SeqPtr.exists_inserts (hs.near k) hDwf hpieces.wf hp
              refine ⟨q, (List.mem_erase_of_ne ?_).mpr hq, heq⟩
              rintro rfl
              exact hne p hp heq.symm
            refine .of_rest hwf hd hmeet (SeqPtr.wf_of_sublist hall herase)
              (finer_of_pieces hpieces (fun p hp hne => (List.mem_erase_of_ne hne).mpr
                (SeqPtr.subset_inserts hp)) hnew) ?_ fun hD => (hreplaced hD).sublist herase
            obtain ⟨q, hq, heq⟩ := hnew _ List.mem_cons_self
            exact ⟨q, hq, heq.trans hpieces.common⟩

/-- The loop ends after at most as many rounds as there are words in the queue. -/
theorem splitLoop_spec (hs : Hashing) : ∀ (fuel k : ℕ) (queue D : List SeqPtr),
    (∀ p ∈ D ++ queue, p.seq.Wf n) → pending n queue ≤ fuel →
    ∃ D', splitLoop hs fuel k queue D = some D' ∧ (∀ p ∈ D', p.seq.Wf n) ∧
      Finer (ptrWords n) D' (D ++ queue) ∧ (Apart (ptrWords n) D → Apart (ptrWords n) D') := by
  intro fuel
  induction fuel with
  | zero =>
      intro k queue D hwf hfuel
      cases queue with
      | nil => exact ⟨D, rfl, by simpa using hwf, .of_mem fun c hc =>
          ⟨c, by simpa using hc, rfl⟩, id⟩
      | cons cur queue =>
          have hpos := ncard_pos (hwf cur (by simp))
          rw [pending_cons] at hfuel
          omega
  | succ fuel ih =>
      intro k queue D hwf hfuel
      cases queue with
      | nil => exact ⟨D, rfl, by simpa using hwf, .of_mem fun c hc =>
          ⟨c, by simpa using hc, rfl⟩, id⟩
      | cons cur queue =>
          have hstep := splitStep_ok hs k hwf
          obtain ⟨D', hrun, hwf', hfine, hapart⟩ := ih (k + 1) _ _ hstep.wf
            (Nat.lt_succ_iff.mp (hstep.fewer.trans_le hfuel))
          exact ⟨D', hrun, hwf', hfine.trans hstep.finer, fun hD => hapart (hstep.apart hD)⟩

/-! ## The sets before the loop -/

/-- Shared pointers to sequences of length `n`. -/
def SharedWf (n : ℕ) (l : List SeqPtr) : Prop := ∀ p ∈ l, p.shared = true ∧ p.seq.Wf n

/-- The parser's pointers are found, so a new one differs from all that are there. -/
theorem inserts_shared (near : List SeqPtr → SeqPtr → Bool) (hD : SharedWf n D)
    (hl : SharedWf n l) :
    ∃ new, l.foldl (SeqPtr.insert near) D = D ++ new ∧ new.Sublist l ∧
      (new.Pairwise fun c d => ptrWords n c ≠ ptrWords n d) ∧
      ∀ p ∈ new, ∀ d ∈ D, ptrWords n d ≠ ptrWords n p := by
  induction l generalizing D with
  | nil => exact ⟨[], by simp, List.Sublist.refl _, List.Pairwise.nil, by simp⟩
  | cons x l ih =>
      obtain ⟨hx, hl⟩ := List.forall_mem_cons.mp hl
      rw [List.foldl_cons]
      by_cases hcount : SeqPtr.count near D x = true
      · obtain ⟨new, heq, hsub, hne, hold⟩ := ih hD hl
        have hins : SeqPtr.insert near D x = D := if_pos hcount
        exact ⟨new, by rw [hins, heq], hsub.cons x, hne, hold⟩
      · have hins : SeqPtr.insert near D x = D ++ [x] := if_neg hcount
        have hfar : ∀ d ∈ D, ptrWords n d ≠ ptrWords n x := by
          intro d hd heq
          refine hcount (List.any_eq_true.mpr ⟨d, hd, ?_⟩)
          rw [(IncSpecSeq.equals_iff_words (hD d hd).2 hx.2).mpr heq, (hD d hd).1, hx.1]
          rfl
        have hD' : SharedWf n (D ++ [x]) := fun p hp => by
          rcases List.mem_append.mp hp with hp | hp
          · exact hD p hp
          · exact List.mem_singleton.mp hp ▸ hx
        obtain ⟨new, heq, hsub, hne, hold⟩ := ih hD' hl
        refine ⟨x :: new, by rw [hins, heq]; simp, hsub.cons_cons x,
          List.pairwise_cons.mpr ⟨fun p hp => hold p hp x (by simp), hne⟩, fun p hp d hd => ?_⟩
        rcases List.mem_cons.mp hp with rfl | hp
        · exact hfar d hd
        · exact hold p hp d (by simp [hd])

/-- The queue holds what the set of its entries holds. -/
theorem foldl_enqueue (l : List SeqPtr) (D : List SeqPtr) :
    l.foldl (enqueue near) (D, D) =
      (l.foldl (SeqPtr.insert near) D, l.foldl (SeqPtr.insert near) D) := by
  induction l generalizing D with
  | nil => rfl
  | cons x l ih =>
      have hstep : enqueue near (D, D) x = (SeqPtr.insert near D x, SeqPtr.insert near D x) := by
        unfold enqueue SeqPtr.insert
        by_cases hc : SeqPtr.count near D x = true
        · simp [hc]
        · simp [hc]
      rw [List.foldl_cons, hstep, ih]
      rfl

/-- Fully specified sequences are single words. -/
theorem disjoint_of_full {p q : SeqPtr} (hp : p.seq.Wf n) (hq : q.seq.Wf n)
    (hpf : p.seq.fullySpecified = true) (hqf : q.seq.fullySpecified = true)
    (hne : ptrWords n p ≠ ptrWords n q) : Disjoint (ptrWords n p) (ptrWords n q) := by
  have hword : ∀ {r : SeqPtr}, r.seq.Wf n → r.seq.fullySpecified = true →
      ∀ w ∈ ptrWords n r, ∀ v, v ∈ ptrWords n r ↔ v = w := by
    intro r hr hrf w hw v
    refine ⟨fun hv => funext fun i => ?_, fun h => h ▸ hw⟩
    have hspec := hr.full hrf i i.isLt
    rw [← hv i hspec, ← hw i hspec]
  refine Set.disjoint_left.mpr fun w hwp hwq => hne (Set.ext fun v => ?_)
  rw [hword hp hpf w hwp, hword hq hqf w hwq]

/-! ## The set of values -/

theorem valueSet_spec (hD : ∀ p ∈ D, p.seq.Wf n) :
    (valueSet D).Sublist (D.map (·.seq)) ∧
      ∀ p ∈ D, ∃ q ∈ valueSet D, q.words n = ptrWords n p := by
  refine foldl_inv (fun (pre : List SeqPtr) (ret : List IncSpecSeq) =>
    ret.Sublist (pre.map (·.seq)) ∧ ∀ p ∈ pre, ∃ q ∈ ret, q.words n = ptrWords n p) (b := [])
    (fun pre d post ret hl ⟨hsub, hmem⟩ => ?_) ⟨List.Sublist.refl _, by simp⟩
  have hd : d.seq.Wf n := hD d (hl ▸ by simp)
  have hret : ∀ q ∈ ret, q.Wf n := fun q hq => by
    obtain ⟨p, hp, rfl⟩ := List.mem_map.mp (hsub.subset hq)
    exact hD p (hl ▸ by simp [hp])
  by_cases hany : (ret.any fun q => q.equals d.seq) = true
  · rw [if_pos hany]
    refine ⟨hsub.trans (by simp), fun p hp => ?_⟩
    rcases List.mem_append.mp hp with hp | hp
    · exact hmem p hp
    · obtain ⟨q, hq, heq⟩ := List.any_eq_true.mp hany
      rw [List.mem_singleton.mp hp]
      exact ⟨q, hq, (IncSpecSeq.equals_iff_words (hret q hq) hd).mp heq⟩
  · rw [if_neg hany]
    refine ⟨by simpa using hsub, fun p hp => ?_⟩
    rcases List.mem_append.mp hp with hp | hp
    · obtain ⟨q, hq, heq⟩ := hmem p hp
      exact ⟨q, List.mem_append_left _ hq, heq⟩
    · rw [List.mem_singleton.mp hp]
      exact ⟨d.seq, by simp, rfl⟩

theorem valueSet_wf (hD : ∀ p ∈ D, p.seq.Wf n) : ∀ q ∈ valueSet D, q.Wf n := by
  intro q hq
  obtain ⟨p, hp, rfl⟩ := List.mem_map.mp ((valueSet_spec hD).1.subset hq)
  exact hD p hp

theorem valueSet_apart (hD : ∀ p ∈ D, p.seq.Wf n) (h : Apart (ptrWords n) D) :
    Apart (IncSpecSeq.words n) (valueSet D) :=
  Apart.sublist (List.pairwise_map.mpr h) (valueSet_spec hD).1

/-! ## What the loop does not touch -/

/-- The parser's pointers that are in the set are passed over. -/
theorem splitLoop_skip (hs : Hashing) {pre : List SeqPtr}
    (hpre : ∀ p ∈ pre, p.shared = true ∧ p ∈ D)
    (heq : ∀ p ∈ pre, p.seq.equals p.seq = true) (fuel k : ℕ) (queue : List SeqPtr) :
    splitLoop hs (pre.length + fuel) k (pre ++ queue) D =
      splitLoop hs fuel (k + pre.length) queue D := by
  induction pre generalizing k with
  | nil => simp
  | cons p pre ih =>
      have hcount : SeqPtr.count (hs.near k) D p = true := by
        refine List.any_eq_true.mpr ⟨p, (hpre p (by simp)).2, ?_⟩
        rw [heq p (by simp), (hpre p (by simp)).1]
        rfl
      have hstep : splitStep hs k p (pre ++ queue) D = (pre ++ queue, D) := if_pos hcount
      rw [List.length_cons, Nat.add_right_comm, List.cons_append, splitLoop, hstep,
        ih (fun q hq => hpre q (by simp [hq])) (fun q hq => heq q (by simp [hq])),
        Nat.add_assoc, Nat.add_comm 1]

/-- A round splits only what meets the front of the queue. -/
theorem splitStep_keep (hs : Hashing) (k : ℕ) (hwf : ∀ p ∈ D ++ cur :: queue, p.seq.Wf n)
    (hx : x ∈ D) (hfar : ∀ p ∈ cur :: queue, Disjoint (ptrWords n x) (ptrWords n p)) :
    x ∈ (splitStep hs k cur queue D).2 ∧
      ∀ p ∈ (splitStep hs k cur queue D).1, Disjoint (ptrWords n x) (ptrWords n p) := by
  have hcur := hwf cur (by simp)
  have hDwf : ∀ p ∈ D, p.seq.Wf n := fun p hp => hwf p (by simp [hp])
  obtain ⟨hxc, hxq⟩ := List.forall_mem_cons.mp hfar
  unfold splitStep
  by_cases hcount : SeqPtr.count (hs.near k) D cur = true
  · rw [if_pos hcount]
    exact ⟨hx, hxq⟩
  · rw [if_neg hcount]
    cases hfind : (hs.order k D).find? fun d => !d.seq.isDisjoint cur.seq with
    | none => exact ⟨SeqPtr.subset_inserts (l := [cur]) hx, hxq⟩
    | some d =>
        have hd : d ∈ D := (hs.perm k D).mem_iff.mp (List.mem_of_find?_eq_some hfind)
        have hmeet : ¬ Disjoint (ptrWords n d) (ptrWords n cur) := by
          have := List.find?_some hfind
          intro hdis
          rw [(IncSpecSeq.isDisjoint_iff_words (hDwf d hd) hcur).mpr hdis] at this
          exact Bool.noConfusion this
        have hne : x ≠ d := by
          rintro rfl
          exact hmeet hxc
        have hpieces := pieces_spec hcur (hDwf d hd) fun h => hmeet h.symm
        have hrest : ∀ p ∈ queue ++ restOf cur d, Disjoint (ptrWords n x) (ptrWords n p) := by
          intro p hp
          rcases List.mem_append.mp hp with hp | hp
          · exact hxq p hp
          · exact hxc.mono_right ((hpieces.sub p hp).trans Set.sdiff_subset)
        dsimp only
        split
        · exact ⟨SeqPtr.subset_inserts ((List.mem_erase_of_ne hne).mpr hx), hxq⟩
        · split
          · exact ⟨hx, hrest⟩
          · exact ⟨(List.mem_erase_of_ne hne).mpr (SeqPtr.subset_inserts hx), hrest⟩

theorem splitLoop_keep (hs : Hashing) : ∀ (fuel k : ℕ) (queue D D' : List SeqPtr),
    (∀ p ∈ D ++ queue, p.seq.Wf n) → splitLoop hs fuel k queue D = some D' → x ∈ D →
    (∀ p ∈ queue, Disjoint (ptrWords n x) (ptrWords n p)) → x ∈ D' := by
  intro fuel
  induction fuel with
  | zero =>
      intro k queue D D' _ hrun hx _
      cases queue with
      | nil => exact Option.some.inj hrun ▸ hx
      | cons cur queue => exact absurd hrun (by simp [splitLoop])
  | succ fuel ih =>
      intro k queue D D' hwf hrun hx hfar
      cases queue with
      | nil => exact Option.some.inj hrun ▸ hx
      | cons cur queue =>
          obtain ⟨hx', hfar'⟩ := splitStep_keep hs k hwf hx hfar
          exact ih (k + 1) _ _ D' (splitStep_ok hs k hwf).wf hrun hx' hfar'

/-! ## The result -/

/-- An input of a state of the class. -/
def ClassInput (states : List (List Trans)) (eqClass : List Bool) (q : IncSpecSeq) : Prop :=
  ∃ s ∈ classStates states eqClass, ∃ t ∈ rowsOf states s, t.1 = q

/-- An input of the first state of the class. -/
def FirstInput (states : List (List Trans)) (eqClass : List Bool) (q : IncSpecSeq) : Prop :=
  ∃ s, (classStates states eqClass).head? = some s ∧ ∃ t ∈ rowsOf states s, t.1 = q

/-- The inputs of the first state are disjoint or equal, or all inputs are single words. -/
def FirstApart (n : ℕ) (states : List (List Trans)) (eqClass : List Bool) : Prop :=
  (∀ q r, FirstInput states eqClass q → FirstInput states eqClass r →
    q.words n = r.words n ∨ Disjoint (q.words n) (r.words n)) ∨
  ∀ q, ClassInput states eqClass q → q.fullySpecified = true

/-- Two inputs of the first state overlap, and no other input of the class meets them. -/
def Uncut (n : ℕ) (states : List (List Trans)) (eqClass : List Bool) : Prop :=
  (∃ q, ClassInput states eqClass q ∧ q.fullySpecified = false) ∧
  ∃ q r, FirstInput states eqClass q ∧ FirstInput states eqClass r ∧ q.words n ≠ r.words n ∧
    ¬ Disjoint (q.words n) (r.words n) ∧
    ∀ o, ClassInput states eqClass o → (∃ f, FirstInput states eqClass f ∧ f.words n = o.words n) ∨
      (Disjoint (q.words n) (o.words n) ∧ Disjoint (r.words n) (o.words n))

/-- Every input of the class is the union of the returned sequences inside it. -/
def CoversInputs (n : ℕ) (states : List (List Trans)) (eqClass : List Bool)
    (D : List IncSpecSeq) : Prop :=
  ∀ q, ClassInput states eqClass q →
    q.words n = ⋃ d ∈ {d ∈ D | d.words n ⊆ q.words n}, d.words n

variable {states : List (List Trans)} {eqClass : List Bool}

theorem inputsOf_wf (hwf : ∀ trans ∈ states, ∀ t ∈ trans, t.1.Wf n) (s : ℕ) :
    SharedWf n (inputsOf states s) := by
  intro p hp
  obtain ⟨t, ht, rfl⟩ := List.mem_map.mp hp
  obtain ⟨trans, htrans, ht⟩ := rowsOf_mem ht
  exact ⟨rfl, hwf trans htrans t ht⟩

/-- The set and the queue before the loop: the inputs of the first state, and then the others. -/
structure Prepared (n : ℕ) (states : List (List Trans)) (eqClass : List Bool)
    (D new : List SeqPtr) : Prop where
  wf : SharedWf n (D ++ new)
  distinct : D.Pairwise fun c d => ptrWords n c ≠ ptrWords n d
  fresh : ∀ p ∈ new, ∀ d ∈ D, ptrWords n d ≠ ptrWords n p
  first : ∀ p ∈ D, FirstInput states eqClass p.seq
  of_first : ∀ q, FirstInput states eqClass q → ∃ p ∈ D, ptrWords n p = q.words n
  input : ∀ p ∈ D ++ new, ClassInput states eqClass p.seq
  of_input : ∀ q, ClassInput states eqClass q → ∃ p ∈ D ++ new, ptrWords n p = q.words n

theorem prepared (hwf : ∀ trans ∈ states, ∀ t ∈ trans, t.1.Wf n) {curS : ℕ} {rest : List ℕ}
    (hcls : classStates states eqClass = curS :: rest)
    (near : List SeqPtr → SeqPtr → Bool) :
    ∃ D new, (inputsOf states curS).foldl (SeqPtr.insert near) [] = D ∧
      (((curS :: rest).flatMap (inputsOf states)).foldl (enqueue near) ([], [])).1 = D ++ new ∧
      Prepared n states eqClass D new := by
  set first := inputsOf states curS with hfirst
  set others := rest.flatMap (inputsOf states) with hothers
  have hfwf : SharedWf n first := inputsOf_wf hwf curS
  have howf : SharedWf n others := fun p hp => by
    obtain ⟨s, -, hp⟩ := List.mem_flatMap.mp hp
    exact inputsOf_wf hwf s p hp
  have hfmem : ∀ p ∈ first, FirstInput states eqClass p.seq := fun p hp => by
    obtain ⟨t, ht, rfl⟩ := List.mem_map.mp hp
    exact ⟨curS, by rw [hcls]; rfl, t, ht, rfl⟩
  have hflat : (curS :: rest).flatMap (inputsOf states) = first ++ others := List.flatMap_cons
  have hmem : ∀ p ∈ first ++ others, ClassInput states eqClass p.seq := fun p hp => by
    rw [← hflat] at hp
    obtain ⟨s, hs, hp⟩ := List.mem_flatMap.mp hp
    obtain ⟨t, ht, rfl⟩ := List.mem_map.mp hp
    exact ⟨s, hcls ▸ hs, t, ht, rfl⟩
  obtain ⟨D, hD, hDsub, hDne, -⟩ := inserts_shared near (D := []) (by simp [SharedWf]) hfwf
  rw [List.nil_append] at hD
  have hDwf : SharedWf n D := fun p hp => hfwf p (hDsub.subset hp)
  obtain ⟨new, hnew, hnsub, -, hold⟩ := inserts_shared near hDwf howf
  have hqueue : (((curS :: rest).flatMap (inputsOf states)).foldl (enqueue near) ([], [])).1 =
      D ++ new := by
    rw [foldl_enqueue, hflat, List.foldl_append, hD, hnew]
  have hall : ∀ p ∈ D ++ new, p ∈ first ++ others := fun p hp => by
    rcases List.mem_append.mp hp with hp | hp
    · exact List.mem_append_left _ (hDsub.subset hp)
    · exact List.mem_append_right _ (hnsub.subset hp)
  have hwf' : SharedWf n (first ++ others) := fun p hp =>
    (List.mem_append.mp hp).elim (hfwf p) (howf p)
  refine ⟨D, new, hD, hqueue, fun p hp => hwf' p (hall p hp), hDne, hold,
    fun p hp => hfmem p (hDsub.subset hp), ?_, fun p hp => hmem p (hall p hp), ?_⟩
  · rintro q ⟨s, hs, t, ht, rfl⟩
    rw [hcls] at hs
    obtain rfl : curS = s := Option.some.inj hs
    obtain ⟨p, hp, heq⟩ := SeqPtr.exists_inserts near (D := []) (x := ⟨true, t.1⟩)
      (by simp) (fun p hp => (hfwf p hp).2) (List.mem_map.mpr ⟨t, ht, rfl⟩)
    exact ⟨p, hD ▸ hp, heq⟩
  · rintro q ⟨s, hs, t, ht, rfl⟩
    rw [hcls] at hs
    obtain ⟨p, hp, heq⟩ := SeqPtr.exists_inserts near (D := []) (l := first ++ others)
      (x := ⟨true, t.1⟩) (by simp) (fun p hp => (hwf' p hp).2)
      (hflat ▸ List.mem_flatMap.mpr ⟨s, hs, List.mem_map.mpr ⟨t, ht, rfl⟩⟩)
    rw [List.foldl_append, hD, hnew] at hp
    exact ⟨p, hp, heq⟩

theorem coversInputs_of_finer {D' : List SeqPtr} (hD' : ∀ p ∈ D', p.seq.Wf n)
    (h : ∀ q, ClassInput states eqClass q → ∀ w ∈ q.words n,
      ∃ d ∈ D', w ∈ ptrWords n d ∧ ptrWords n d ⊆ q.words n) :
    CoversInputs n states eqClass (valueSet D') := by
  intro q hq
  ext w
  simp only [Set.mem_iUnion, exists_prop, Set.mem_ofPred_eq]
  constructor
  · intro hw
    obtain ⟨d, hd, hwd, hsub⟩ := h q hq w hw
    obtain ⟨v, hv, heq⟩ := (valueSet_spec hD').2 d hd
    exact ⟨v, ⟨hv, heq ▸ hsub⟩, heq ▸ hwd⟩
  · rintro ⟨v, ⟨-, hsub⟩, hwv⟩
    exact hsub hwv

/-- What is true of the returned sequences. -/
structure Refined (n : ℕ) (states : List (List Trans)) (eqClass : List Bool)
    (D : List IncSpecSeq) : Prop where
  wf : ∀ d ∈ D, d.Wf n
  cover : CoversInputs n states eqClass D
  disjoint : FirstApart n states eqClass → D.Pairwise fun c d => Disjoint (c.words n) (d.words n)
  overlap : Uncut n states eqClass → ¬ D.Pairwise fun c d => Disjoint (c.words n) (d.words n)

/-- An input of the first state that meets no other input stays in the set. -/
theorem Prepared.stay {new : List SeqPtr} (hp : Prepared n states eqClass D new) (hs : Hashing)
    {fuel : ℕ} (hfuel : D.length ≤ fuel) {D' : List SeqPtr}
    (hrun : splitLoop hs fuel 1 (D ++ new) D = some D') (hD' : ∀ p ∈ D', p.seq.Wf n)
    {o : IncSpecSeq} (ho : FirstInput states eqClass o)
    (hfar : ∀ i, ClassInput states eqClass i →
      (∃ f, FirstInput states eqClass f ∧ f.words n = i.words n) ∨
        Disjoint (o.words n) (i.words n)) :
    ∃ v ∈ valueSet D', v.words n = o.words n := by
  have hDwf : ∀ p ∈ D, p.shared = true ∧ p.seq.Wf n := fun p hpD =>
    hp.wf p (List.mem_append_left _ hpD)
  obtain ⟨p, hpD, heq⟩ := hp.of_first o ho
  obtain ⟨fuel', rfl⟩ := Nat.exists_eq_add_of_le hfuel
  rw [splitLoop_skip hs (fun p hpD => ⟨(hDwf p hpD).1, hpD⟩) fun p hpD =>
    (IncSpecSeq.equals_iff_words (hDwf p hpD).2 (hDwf p hpD).2).mpr rfl] at hrun
  have hkeep := splitLoop_keep hs fuel' _ new D D' (fun p hpD => (hp.wf p hpD).2) hrun hpD
    fun i hi => by
      rcases hfar i.seq (hp.input i (List.mem_append_right _ hi)) with ⟨f, hf, hfi⟩ | hdis
      · obtain ⟨p', hp', heq'⟩ := hp.of_first f hf
        exact absurd (heq'.trans hfi) (hp.fresh i hi p' hp')
      · exact heq ▸ hdis
  obtain ⟨v, hv, hvp⟩ := (valueSet_spec hD').2 p hkeep
  exact ⟨v, hv, hvp.trans heq⟩

/-- The loop over the queue. -/
theorem Prepared.split {new : List SeqPtr} (hp : Prepared n states eqClass D new) (hs : Hashing)
    (hsome : ∃ q, ClassInput states eqClass q ∧ q.fullySpecified = false) {fuel : ℕ}
    (hfuel : D.length + pending n (D ++ new) ≤ fuel) :
    ∃ D', splitLoop hs fuel 1 (D ++ new) D = some D' ∧ Refined n states eqClass (valueSet D') := by
  have hwf : ∀ p ∈ D ++ (D ++ new), p.seq.Wf n := fun p hpD => by
    rcases List.mem_append.mp hpD with hpD | hpD
    · exact (hp.wf p (List.mem_append_left _ hpD)).2
    · exact (hp.wf p hpD).2
  obtain ⟨D', hrun, hwf', hfine, hapart⟩ := splitLoop_spec hs fuel 1 (D ++ new) D hwf (by omega)
  refine ⟨D', hrun, valueSet_wf hwf', coversInputs_of_finer hwf' fun q hq w hw => ?_,
    fun hfirst => valueSet_apart hwf' (hapart ?_), ?_⟩
  · obtain ⟨p, hpq, heq⟩ := hp.of_input q hq
    obtain ⟨d, hd, hwd, hsub⟩ := hfine p (List.mem_append_right _ hpq) w (heq ▸ hw)
    exact ⟨d, hd, hwd, heq ▸ hsub⟩
  · obtain ⟨q, hq, hqf⟩ := hsome
    have hfirst' := hfirst.resolve_right fun hfull => by
      rw [hfull q hq] at hqf
      exact Bool.noConfusion hqf
    exact hp.distinct.imp_of_mem fun hc hd hne =>
      (hfirst' _ _ (hp.first _ hc) (hp.first _ hd)).resolve_left hne
  · rintro ⟨-, q, r, hq, hr, hne, hmeet, hfar⟩ hpair
    obtain ⟨v, hv, hvq⟩ := hp.stay hs (by omega) hrun hwf' hq fun i hi =>
      (hfar i hi).imp_right And.left
    obtain ⟨u, hu, hur⟩ := hp.stay hs (by omega) hrun hwf' hr fun i hi =>
      (hfar i hi).imp_right And.right
    have hdis := Apart.disjoint hpair hv hu (by rw [hvq, hur]; exact hne)
    rw [hvq, hur] at hdis
    exact hmeet hdis

/-- The shortcut for single words. -/
theorem Prepared.full {new : List SeqPtr} (hp : Prepared n states eqClass D new)
    (near : List SeqPtr → SeqPtr → Bool)
    (hfull : ∀ q, ClassInput states eqClass q → q.fullySpecified = true) :
    Refined n states eqClass (valueSet ((D ++ new).foldl (SeqPtr.insert near) D)) := by
  obtain ⟨more, hmore, hmsub, hmne, hmold⟩ := inserts_shared near
    (fun p hpD => hp.wf p (List.mem_append_left _ hpD)) hp.wf
  have hin : ∀ p ∈ D ++ more, p ∈ D ++ new := fun p hpm => by
    rcases List.mem_append.mp hpm with hpm | hpm
    · exact List.mem_append_left _ hpm
    · exact hmsub.subset hpm
  have hmwf : ∀ p ∈ D ++ more, p.seq.Wf n := fun p hpm => (hp.wf p (hin p hpm)).2
  have hapart : Apart (ptrWords n) (D ++ more) := by
    have hdist : (D ++ more).Pairwise fun c d => ptrWords n c ≠ ptrWords n d :=
      List.pairwise_append.mpr ⟨hp.distinct, hmne, fun c hc d hd => hmold d hd c hc⟩
    exact hdist.imp_of_mem fun hc hd hne => disjoint_of_full (hmwf _ hc) (hmwf _ hd)
      (hfull _ (hp.input _ (hin _ hc))) (hfull _ (hp.input _ (hin _ hd))) hne
  rw [hmore]
  refine ⟨valueSet_wf hmwf, coversInputs_of_finer hmwf fun q hq w hw => ?_,
    fun _ => valueSet_apart hmwf hapart, ?_⟩
  · obtain ⟨p, hpq, heq⟩ := hp.of_input q hq
    obtain ⟨d, hd, hdp⟩ := SeqPtr.exists_inserts near
      (fun p hpD => (hp.wf p (List.mem_append_left _ hpD)).2) (fun p hpD => (hp.wf p hpD).2) hpq
    exact ⟨d, hmore ▸ hd, by rw [hdp, heq]; exact hw, (hdp.trans heq).le⟩
  · rintro ⟨⟨q, hq, hqf⟩, -⟩
    rw [hfull q hq] at hqf
    exact absurd hqf (by decide)

theorem refined_nil (hcls : classStates states eqClass = []) : Refined n states eqClass [] := by
  have hno : ∀ q, ¬ ClassInput states eqClass q := by
    rintro q ⟨s, hs, -⟩
    rw [hcls] at hs
    exact List.not_mem_nil hs
  exact ⟨by simp, fun q hq => absurd hq (hno q), fun _ => List.Pairwise.nil, fun ⟨⟨q, hq, _⟩, _⟩ =>
    absurd hq (hno q)⟩

theorem any_not_full {curS : ℕ} {rest : List ℕ} (hcls : classStates states eqClass = curS :: rest) :
    ((curS :: rest).flatMap (inputsOf states)).any (!·.seq.fullySpecified) = true ↔
      ∃ q, ClassInput states eqClass q ∧ q.fullySpecified = false := by
  simp only [ClassInput, hcls, List.any_eq_true, List.mem_flatMap, inputsOf, List.mem_map,
    Bool.not_eq_true']
  constructor
  · rintro ⟨-, ⟨s, hs, t, ht, rfl⟩, hfull⟩
    exact ⟨t.1, ⟨s, hs, t, ht, rfl⟩, hfull⟩
  · rintro ⟨-, ⟨s, hs, t, ht, rfl⟩, hfull⟩
    exact ⟨_, ⟨s, hs, t, ht, rfl⟩, hfull⟩

theorem exists_refined (hwf : ∀ trans ∈ states, ∀ t ∈ trans, t.1.Wf n) (eqClass : List Bool)
    (hs : Hashing) :
    ∃ N, ∀ fuel ≥ N, ∃ D, getDisjointInputSet hs fuel states eqClass = some D ∧
      Refined n states eqClass D := by
  cases hcls : classStates states eqClass with
  | nil => exact ⟨0, fun fuel _ => ⟨[], by rw [getDisjointInputSet, hcls], refined_nil hcls⟩⟩
  | cons curS rest =>
      obtain ⟨D, new, hD, hqueue, hp⟩ := prepared hwf hcls (hs.near 0)
      refine ⟨D.length + pending n (D ++ new), fun fuel hfuel => ?_⟩
      by_cases hany : (((curS :: rest).flatMap (inputsOf states)).any
          (!·.seq.fullySpecified)) = true
      · obtain ⟨D', hrun, h⟩ := hp.split hs ((any_not_full hcls).mp hany) hfuel
        refine ⟨valueSet D', ?_, h⟩
        rw [getDisjointInputSet, hcls]
        simp only [if_pos hany, hqueue, hD, hrun]
        rfl
      · refine ⟨_, ?_, hp.full (hs.near 0) fun q hq => by
          by_contra hqf
          exact hany ((any_not_full hcls).mpr ⟨q, hq, by simpa using hqf⟩)⟩
        rw [getDisjointInputSet, hcls]
        simp only [if_neg hany, hqueue, hD]
        rfl

/-- The loop ends in every order of traversal and the inputs are covered; the result is disjoint
when the inputs of the first state are, and is not when two of them overlap and are left alone. -/
theorem getDisjointInputSet_refines (hwf : ∀ trans ∈ states, ∀ t ∈ trans, t.1.Wf n)
    (eqClass : List Bool) (hs : Hashing) :
    ∃ N, ∀ fuel ≥ N, ∃ D, getDisjointInputSet hs fuel states eqClass = some D ∧
      CoversInputs n states eqClass D ∧
      (FirstApart n states eqClass → D.Pairwise fun c d => Disjoint (c.words n) (d.words n)) ∧
      (Uncut n states eqClass → ¬ D.Pairwise fun c d => Disjoint (c.words n) (d.words n)) := by
  obtain ⟨N, hN⟩ := exists_refined hwf eqClass hs
  refine ⟨N, fun fuel hfuel => ?_⟩
  obtain ⟨D, hD, h⟩ := hN fuel hfuel
  exact ⟨D, hD, h.cover, h.disjoint, h.overlap⟩

/-- The sets in the order of insertion, with all equal sequences found. -/
def inOrder : Hashing := ⟨fun _ D => D, fun _ _ _ => true, fun _ _ => List.Perm.refl _⟩

/-- Two states whose inputs are split against each other. -/
def splitMachine : List (List Trans) :=
  let off := IncSpecSeq.ofString ['0']
  [[(IncSpecSeq.ofString ['1', '-'], 1, off)], [(IncSpecSeq.ofString ['-', '1'], 0, off)]]

/-- The first state has one row. -/
theorem splitMachine_firstApart : FirstApart 2 splitMachine [true, true] := by
  have hone : ∀ q, FirstInput splitMachine [true, true] q → q = IncSpecSeq.ofString ['1', '-'] := by
    rintro q ⟨s, hs, t, ht, rfl⟩
    obtain rfl : 0 = s := Option.some.inj hs
    rw [List.mem_singleton.mp (show t ∈ [_] from ht)]
  refine Or.inl fun q r hq hr => Or.inl ?_
  rw [hone q hq, hone r hr]

theorem getDisjointInputSet_splitMachine :
    ∃ N, ∀ fuel ≥ N, ∃ D, getDisjointInputSet inOrder fuel splitMachine [true, true] = some D ∧
      CoversInputs 2 splitMachine [true, true] D ∧
      D.Pairwise fun c d => Disjoint (c.words 2) (d.words 2) := by
  have hwf : ∀ c d : Char, (IncSpecSeq.ofString [c, d]).Wf 2 := fun c d =>
    IncSpecSeq.ofString_wf [c, d]
  obtain ⟨N, hN⟩ := @getDisjointInputSet_refines 2 splitMachine
    (by simp [splitMachine, hwf, -Prod.forall]) [true, true] inOrder
  refine ⟨N, fun fuel hfuel => ?_⟩
  obtain ⟨D, hrun, hcover, hdis, -⟩ := hN fuel hfuel
  exact ⟨D, hrun, hcover, hdis splitMachine_firstApart⟩

/-- One state whose own rows overlap. -/
def overlapText : List Char := ['1', '-', ' ', 'A', ' ', 'A', ' ', '0', '\n',
  '-', '1', ' ', 'A', ' ', 'A', ' ', '0', '\n']

/-- Both rows are returned as they are. -/
theorem getDisjointInputSet_overlap :
    ∃ m D, parseKISSFile overlapText true = some m ∧
      (∀ trans ∈ m.states, ∀ t ∈ trans, t.1.Wf 2) ∧
      getDisjointInputSet inOrder 2 m.states [true] = some D ∧
      ¬ D.Pairwise fun c d => Disjoint (c.words 2) (d.words 2) := by
  have hwf : ∀ c d : Char, (IncSpecSeq.ofString [c, d]).Wf 2 := fun c d =>
    IncSpecSeq.ofString_wf [c, d]
  have hstates : (parseKISSFile overlapText true).map (·.states) =
      some [[(IncSpecSeq.ofString ['1', '-'], 0, IncSpecSeq.ofString ['0']),
        (IncSpecSeq.ofString ['-', '1'], 0, IncSpecSeq.ofString ['0'])]] := by decide
  obtain ⟨m, hm, hms⟩ := Option.map_eq_some_iff.mp hstates
  refine ⟨m, [IncSpecSeq.ofString ['1', '-'], IncSpecSeq.ofString ['-', '1']], hm, ?_, ?_,
    fun hpair => ?_⟩
  · rw [hms]
    simp [hwf, -Prod.forall]
  · rw [hms]
    decide
  · have hdis := (List.pairwise_cons.mp hpair).1 _ (List.mem_singleton_self _)
    rw [← IncSpecSeq.isDisjoint_iff_words (hwf '1' '-') (hwf '-' '1')] at hdis
    exact absurd hdis (by decide)

end ExtFolding.MeMin
