import ExtFolding.Lib.Loop
import ExtFolding.Lib.Rounding
import ExtFolding.TimeMux2.Perm
import Mathlib.Data.Finset.Card
import Mathlib.Data.List.GetD

/-!
# `schedulePO`: placing the outputs (`timeMux2/reord.cpp`)

The outputs are taken by increasing support size and placed slot after slot; an
output whose accumulated support does not fit into the inputs read so far makes
the cursor skip to a later frame. When the skipped slots exceed the slack, the
number of pins is increased and the placement starts again.

A bit vector is the set of its ones, an array of slots a list of options. The
counters are unsigned; the slot of an output is stored in an `int`.
-/

namespace ExtFolding.TimeMux2

open ExtFolding.Rounding ExtFolding.Uint

/-- `SupVec`: the support of an output. -/
abbrev SupVec := Finset ℕ

/-- The union of the supports of the listed outputs. -/
def unionSup (sVecs : List SupVec) (idxs : List ℕ) : SupVec :=
  idxs.foldl (fun sv idx => sv ∪ sVecs.getD idx ∅) ∅

theorem unionSup_concat (sVecs : List SupVec) (idxs : List ℕ) (idx : ℕ) :
    unionSup sVecs (idxs ++ [idx]) = unionSup sVecs idxs ∪ sVecs.getD idx ∅ := by
  simp [unionSup]

/-- `sort(sIdx, sIdx+nCo, SupVecCompFunc(sVecs))` may order equal counts in any way. -/
structure CountSort where
  run : List SupVec → List ℕ
  perm : ∀ s, (run s).Perm (List.range s.length)
  sorted : ∀ s, (run s).Pairwise fun i j => (s.getD i ∅).card ≤ (s.getD j ∅).card

/-- A stable sort by support size. -/
def countSort : CountSort where
  run s := (List.range s.length).mergeSort fun i j => (s.getD i ∅).card ≤ (s.getD j ∅).card
  perm s := List.mergeSort_perm _ _
  sorted s := by
    have h := @List.pairwise_mergeSort ℕ
      (fun i j => decide ((s.getD i ∅).card ≤ (s.getD j ∅).card))
      (fun a b c hab hbc => decide_eq_true
        ((of_decide_eq_true hab).trans (of_decide_eq_true hbc)))
      (fun a b => by
        rw [Bool.or_eq_true, decide_eq_true_eq, decide_eq_true_eq]
        exact le_total _ _) (List.range s.length)
    exact h.imp fun h => of_decide_eq_true h

/-- The state of the placement loop: the slots, the accumulated support, the number of
skipped slots and the cursor (`ct1`, `ct2`). -/
structure Cursor where
  slots : List (Option ℕ)
  sv : SupVec
  cnt : ℕ
  ct1 : ℕ
  ct2 : ℕ

/-- `t = (uint)ceil(float(sv.count()) / float(nPi)); if(t) --t;` -/
def frameFor (nPi : ℕ) (sv : SupVec) : ℕ := ceilQuot 24 sv.card nPi - 1

section Placement

variable (sVecs : List SupVec) (nTimeFrame nPi nPo : ℕ)

/-- The loop over the sorted outputs; `none` is the `break`. -/
def placeAll (cap : ℕ) : List ℕ → Cursor → Except Fault (Option (List (Option ℕ)))
  | [], s => return some s.slots
  | idx :: rest, s => do
      check (s.ct1 < nTimeFrame ∧ s.ct2 < nPo)
      let sv := s.sv ∪ sVecs.getD idx ∅
      let t := frameFor nPi sv
      if t ≤ s.ct1 then
        let slots ← store s.slots (← add (← mul s.ct1 nPo) s.ct2) (some idx)
        let ct2 ← add s.ct2 1
        if ct2 = nPo then placeAll cap rest ⟨slots, sv, s.cnt, ← add s.ct1 1, 0⟩
        else placeAll cap rest ⟨slots, sv, s.cnt, s.ct1, ct2⟩
      else
        let cnt ← add s.cnt (← mul nPo (← sub t s.ct1))
        let cnt ← sub cnt s.ct2
        if cap < cnt then return none
        else
          let slots ← store s.slots (← mul t nPo) (some idx)
          if 1 = nPo then placeAll cap rest ⟨slots, sv, cnt, ← add t 1, 0⟩
          else placeAll cap rest ⟨slots, sv, cnt, t, 1⟩

/-- One round of the `do` loop; without outputs `legal` is never set. -/
def tryPlace (nCo : ℕ) (sIdx : List ℕ) : Except Fault (Option (List (Option ℕ))) := do
  let nSlot ← mul nPo nTimeFrame
  let cap ← sub nSlot nCo
  if sIdx = [] then return none
  else placeAll sVecs nTimeFrame nPi nPo cap sIdx ⟨List.replicate nSlot none, ∅, 0, 0, 0⟩

end Placement

/-- `do { .. } while(!legal && ++nPo);` with a bound on the number of rounds. -/
def placeLoop (sVecs : List SupVec) (nTimeFrame nPi nCo : ℕ) (sIdx : List ℕ) :
    ℕ → ℕ → Except Fault (ℕ × List (Option ℕ))
  | 0, _ => .error .unfinished
  | fuel + 1, nPo => do
      match ← tryPlace sVecs nTimeFrame nPi nPo nCo sIdx with
      | some slots => return (nPo, slots)
      | none => placeLoop sVecs nTimeFrame nPi nCo sIdx fuel (← add nPo 1)

/-- `for(uint i..) if(slots[i] != -1) oPerm[slots[i]] = i;` -/
def readSlots (slots : List (Option ℕ)) (oPerm : List ℤ) : List ℤ :=
  slots.zipIdx.foldl (fun p x => match x.1 with
    | some o => p.set o (toInt x.2)
    | none => p) oPerm

/-- `schedulePO`: the number of pins, the slots and `oPerm`. -/
def schedulePO (sort : CountSort) (sVecs : List SupVec) (nTimeFrame nPi nPo : ℕ)
    (oPerm : List ℤ) : Except Fault (ℕ × List (Option ℕ) × List ℤ) := do
  let nCo := sVecs.length
  let (nPo, slots) ← placeLoop sVecs nTimeFrame nPi nCo (sort.run sVecs) (nCo + 1) nPo
  let oPerm := readSlots slots oPerm
  check (checkPerm oPerm (← mul nPo nTimeFrame))
  return (nPo, slots, oPerm)

/-! ## What a placement guarantees -/

/-- `o` sits in slot `p`. -/
def At (slots : List (Option ℕ)) (p o : ℕ) : Prop := slots[p]? = some (some o)

/-- All supports placed up to frame `t` fit together into `(t + 1) * nPi` inputs. -/
def Causal (sVecs : List SupVec) (nPi nPo : ℕ) (slots : List (Option ℕ)) : Prop :=
  ∀ t, ∃ S : SupVec, S.card ≤ (t + 1) * nPi ∧
    ∀ p o, p < (t + 1) * nPo → At slots p o → sVecs.getD o ∅ ⊆ S

/-- Every output of `placed` has exactly one slot, and nothing else has one. -/
structure Placed (slots : List (Option ℕ)) (placed : List ℕ) : Prop where
  mem : ∀ {p o}, At slots p o → o ∈ placed
  exists_at : ∀ o ∈ placed, ∃ p, At slots p o
  inj : ∀ {p q o}, At slots p o → At slots q o → p = q

theorem At.lt {slots : List (Option ℕ)} {p o : ℕ} (h : At slots p o) : p < slots.length :=
  (List.getElem?_eq_some_iff.mp h).1

theorem at_set {slots : List (Option ℕ)} {q idx p o : ℕ} (hq : q < slots.length) :
    At (slots.set q (some idx)) p o ↔ (p = q ∧ o = idx) ∨ (p ≠ q ∧ At slots p o) := by
  unfold At
  by_cases hpq : p = q
  · subst hpq
    rw [List.getElem?_set_self hq]
    simp [eq_comm]
  · rw [List.getElem?_set_ne (Ne.symm hpq)]
    simp [hpq]

theorem Placed.set {slots : List (Option ℕ)} {placed : List ℕ} (h : Placed slots placed)
    {q idx : ℕ} (hq : q < slots.length) (hfree : ∀ o, ¬ At slots q o) (hidx : idx ∉ placed) :
    Placed (slots.set q (some idx)) (placed ++ [idx]) := by
  refine ⟨?_, ?_, ?_⟩
  · intro p o hp
    rcases (at_set hq).mp hp with ⟨-, rfl⟩ | ⟨-, hp⟩
    · simp
    · exact List.mem_append_left _ (h.mem hp)
  · intro o ho
    rcases List.mem_append.mp ho with ho | ho
    · obtain ⟨p, hp⟩ := h.exists_at o ho
      refine ⟨p, (at_set hq).mpr (Or.inr ⟨?_, hp⟩)⟩
      rintro rfl
      exact hfree o hp
    · obtain rfl : o = idx := by simpa using ho
      exact ⟨q, (at_set hq).mpr (Or.inl ⟨rfl, rfl⟩)⟩
  · intro p p' o hp hp'
    rw [at_set hq] at hp hp'
    rcases hp with ⟨rfl, rfl⟩ | ⟨-, hp⟩ <;> rcases hp' with ⟨rfl, h'⟩ | ⟨-, hp'⟩
    · rfl
    · exact absurd (h.mem hp') hidx
    · exact absurd (h' ▸ h.mem hp) hidx
    · exact h.inj hp hp'

/-- The ceilings of the rounded quotients are those of the quotients. -/
structure CeilExact (nPi T nCo : ℕ) : Prop where
  frame : ∀ n ≤ nPi * T, ceilQuot 24 n nPi = (n + nPi - 1) / nPi
  pins : ceilQuot 24 nCo T = (nCo + T - 1) / T

theorem CeilExact.of_lt {nPi T nCo : ℕ} (hT : 1 ≤ T) (hnPi : 1 ≤ nPi) (hci : nPi * T < 2 ^ 24)
    (hco : nCo < 2 ^ 24) : CeilExact nPi T nCo where
  frame _ hn := ceilQuot_eq (hn.trans_lt hci) hnPi ((Nat.le_mul_of_pos_right nPi hT).trans_lt hci)
  pins := ceilQuot_eq hco hT ((Nat.le_mul_of_pos_left T hnPi).trans_lt hci)

section Frame

variable {nPi T nCo : ℕ} (hex : CeilExact nPi T nCo) {sv : SupVec}
include hex

theorem frameFor_eq (hsv : sv ⊆ Finset.range (nPi * T)) :
    frameFor nPi sv = (sv.card + nPi - 1) / nPi - 1 := by
  rw [frameFor, hex.frame _ ((Finset.card_le_card hsv).trans (Finset.card_range _).le)]

variable (hnPi : 1 ≤ nPi) (hsv : sv ⊆ Finset.range (nPi * T))
include hnPi hsv

/-- The accumulated support fits into the inputs read up to its frame. -/
theorem card_le_frameFor : sv.card ≤ (frameFor nPi sv + 1) * nPi := by
  rw [frameFor_eq hex hsv]
  have h := Nat.lt_mul_div_succ (sv.card + nPi - 1) (show 0 < nPi from hnPi)
  set d := (sv.card + nPi - 1) / nPi with hd
  have hle : sv.card ≤ d * nPi := by
    rw [Nat.mul_comm] at h
    have : (d + 1) * nPi = d * nPi + nPi := by ring
    omega
  calc sv.card ≤ d * nPi := hle
    _ ≤ (d - 1 + 1) * nPi := Nat.mul_le_mul_right _ (by omega)

/-- `frameFor` is the first frame behind enough inputs. -/
theorem frameFor_le {t : ℕ} (h : sv.card ≤ nPi * (t + 1)) : frameFor nPi sv ≤ t := by
  rw [frameFor_eq hex hsv]
  have hdiv : (sv.card + nPi - 1) / nPi < t + 2 := by
    rw [Nat.div_lt_iff_lt_mul hnPi]
    have : (t + 2) * nPi = nPi * (t + 1) + nPi := by ring
    omega
  omega

theorem frameFor_lt (hT : 1 ≤ T) : frameFor nPi sv < T := by
  have hcard : sv.card ≤ nPi * (T - 1 + 1) := by
    rw [Nat.sub_add_cancel hT]
    exact (Finset.card_le_card hsv).trans (Finset.card_range _).le
  have hle := frameFor_le hex hnPi hsv hcard
  omega

end Frame

/-- The invariant of the loop, after the outputs in `pre`. -/
structure CursorInv (sVecs : List SupVec) (T nPi nPo nCo : ℕ) (pre : List ℕ) (s : Cursor) :
    Prop where
  length : s.slots.length = nPo * T
  pos : s.ct1 * nPo + s.ct2 = pre.length + s.cnt
  slack : s.cnt ≤ nPo * T - nCo
  pin : s.ct2 < nPo
  before : ∀ {p o}, At s.slots p o → p < s.ct1 * nPo + s.ct2
  placed : Placed s.slots pre
  sup : ∀ o ∈ pre, sVecs.getD o ∅ ⊆ s.sv
  causal : Causal sVecs nPi nPo s.slots
  inputs : s.sv ⊆ Finset.range (nPi * T)

/-- Placing one more output at or behind the cursor, in a frame that is late enough. -/
theorem CursorInv.place {sVecs : List SupVec} {T nPi nPo nCo : ℕ} {pre : List ℕ} {s : Cursor}
    (h : CursorInv sVecs T nPi nPo nCo pre s) (hex : CeilExact nPi T nCo) (hnPi : 1 ≤ nPi)
    {idx q cnt ct1 ct2 : ℕ} (hnew : sVecs.getD idx ∅ ⊆ Finset.range (nPi * T)) (hidx : idx ∉ pre)
      (hq : q < nPo * T) (hle : s.ct1 * nPo + s.ct2 ≤ q)
    (hframe : (frameFor nPi (s.sv ∪ sVecs.getD idx ∅)) * nPo ≤ q)
    (hcnt : q = pre.length + cnt) (hslack : cnt ≤ nPo * T - nCo)
    (hnext : ct1 * nPo + ct2 = q + 1) (hpin : ct2 < nPo) :
    CursorInv sVecs T nPi nPo nCo (pre ++ [idx])
      ⟨s.slots.set q (some idx), s.sv ∪ sVecs.getD idx ∅, cnt, ct1, ct2⟩ := by
  have hq' : q < s.slots.length := by rw [h.length]; exact hq
  have hsv : s.sv ∪ sVecs.getD idx ∅ ⊆ Finset.range (nPi * T) := Finset.union_subset h.inputs hnew
  refine ⟨by simp [h.length], by simp; omega, hslack, hpin, fun {p o} hp => ?_,
    h.placed.set hq' (fun o ho => absurd (h.before ho) (by omega)) hidx, fun o ho => ?_,
    fun t => ?_, hsv⟩
  · show p < ct1 * nPo + ct2
    rcases (at_set hq').mp hp with ⟨rfl, -⟩ | ⟨-, hp⟩
    · omega
    · have := h.before hp
      omega
  · rcases List.mem_append.mp ho with ho | ho
    · exact (h.sup o ho).trans Finset.subset_union_left
    · obtain rfl : o = idx := by simpa using ho
      exact Finset.subset_union_right
  · by_cases hlt : q < (t + 1) * nPo
    · -- the new output is among those counted: its accumulated support covers them all
      refine ⟨s.sv ∪ sVecs.getD idx ∅, ?_, fun p o _ hp => ?_⟩
      · have hft : frameFor nPi (s.sv ∪ sVecs.getD idx ∅) ≤ t :=
          Nat.lt_succ_iff.mp (Nat.lt_of_mul_lt_mul_right (hframe.trans_lt hlt))
        calc (s.sv ∪ sVecs.getD idx ∅).card
            ≤ (frameFor nPi (s.sv ∪ sVecs.getD idx ∅) + 1) * nPi := card_le_frameFor hex hnPi hsv
          _ ≤ (t + 1) * nPi := Nat.mul_le_mul_right _ (by omega)
      · rcases (at_set hq').mp hp with ⟨-, rfl⟩ | ⟨-, hp⟩
        · exact Finset.subset_union_right
        · exact (h.sup o (h.placed.mem hp)).trans Finset.subset_union_left
    · obtain ⟨S, hS, hsub⟩ := h.causal t
      refine ⟨S, hS, fun p o hpt hp => ?_⟩
      rcases (at_set hq').mp hp with ⟨rfl, -⟩ | ⟨-, hp⟩
      · exact absurd hpt hlt
      · exact hsub p o hpt hp

/-! ## One output -/

/-- The cursor after an output has been put where it stands. -/
def Cursor.here (sVecs : List SupVec) (nPo idx : ℕ) (s : Cursor) : Cursor :=
  if s.ct2 + 1 = nPo then
    ⟨s.slots.set (s.ct1 * nPo + s.ct2) (some idx), s.sv ∪ sVecs.getD idx ∅, s.cnt, s.ct1 + 1, 0⟩
  else
    ⟨s.slots.set (s.ct1 * nPo + s.ct2) (some idx), s.sv ∪ sVecs.getD idx ∅, s.cnt, s.ct1,
      s.ct2 + 1⟩

/-- The number of skipped slots when an output goes to frame `t`. -/
def Cursor.skipped (nPo t : ℕ) (s : Cursor) : ℕ := s.cnt + nPo * (t - s.ct1) - s.ct2

/-- The cursor after an output has been put into frame `t`. -/
def Cursor.skip (sVecs : List SupVec) (nPo idx t : ℕ) (s : Cursor) : Cursor :=
  if 1 = nPo then
    ⟨s.slots.set (t * nPo) (some idx), s.sv ∪ sVecs.getD idx ∅, s.skipped nPo t, t + 1, 0⟩
  else ⟨s.slots.set (t * nPo) (some idx), s.sv ∪ sVecs.getD idx ∅, s.skipped nPo t, t, 1⟩

section Loop

variable {sVecs : List SupVec} {T nPi nPo nCo : ℕ}

theorem Cursor.here_slots (s : Cursor) (idx : ℕ) : (s.here sVecs nPo idx).slots =
    s.slots.set (s.ct1 * nPo + s.ct2) (some idx) := by
  unfold Cursor.here
  split <;> rfl

theorem Cursor.here_sv (s : Cursor) (idx : ℕ) :
    (s.here sVecs nPo idx).sv = s.sv ∪ sVecs.getD idx ∅ := by
  unfold Cursor.here
  split <;> rfl

theorem Cursor.skip_slots (s : Cursor) (idx t : ℕ) :
    (s.skip sVecs nPo idx t).slots = s.slots.set (t * nPo) (some idx) := by
  unfold Cursor.skip
  split <;> rfl

theorem Cursor.skip_sv (s : Cursor) (idx t : ℕ) :
    (s.skip sVecs nPo idx t).sv = s.sv ∪ sVecs.getD idx ∅ := by
  unfold Cursor.skip
  split <;> rfl

/-- The cursor is inside the slots while outputs are left. -/
theorem CursorInv.inside {pre : List ℕ} {s : Cursor} (h : CursorInv sVecs T nPi nPo nCo pre s)
    (hcap : nCo ≤ nPo * T) (hlen : pre.length < nCo) :
    s.ct1 < T ∧ s.ct1 * nPo + s.ct2 < nPo * T := by
  have hpos := h.pos
  have hslack := h.slack
  have hlt : s.ct1 * nPo + s.ct2 < nPo * T := by omega
  refine ⟨?_, hlt⟩
  have : s.ct1 * nPo < T * nPo := by
    rw [Nat.mul_comm T]
    exact (Nat.le_add_right _ _).trans_lt hlt
  exact Nat.lt_of_mul_lt_mul_right this

theorem CursorInv.here {pre : List ℕ} {s : Cursor} (h : CursorInv sVecs T nPi nPo nCo pre s)
    (hex : CeilExact nPi T nCo) (hnPi : 1 ≤ nPi) (hcap : nCo ≤ nPo * T) (hlen : pre.length < nCo)
    {idx : ℕ} (hnew : sVecs.getD idx ∅ ⊆ Finset.range (nPi * T)) (hidx : idx ∉ pre)
    (hle : frameFor nPi (s.sv ∪ sVecs.getD idx ∅) ≤ s.ct1) :
    CursorInv sVecs T nPi nPo nCo (pre ++ [idx]) (s.here sVecs nPo idx) := by
  have hframe : frameFor nPi (s.sv ∪ sVecs.getD idx ∅) * nPo ≤ s.ct1 * nPo + s.ct2 :=
    (Nat.mul_le_mul_right _ hle).trans (Nat.le_add_right _ _)
  have hpin := h.pin
  have hq := (h.inside hcap hlen).2
  unfold Cursor.here
  split
  · next hfull =>
      have hmul : (s.ct1 + 1) * nPo + 0 = s.ct1 * nPo + s.ct2 + 1 := by
        rw [Nat.add_mul, Nat.one_mul, ← hfull]
        rfl
      exact h.place hex hnPi hnew hidx hq le_rfl hframe h.pos h.slack hmul
        (Nat.zero_lt_of_lt hpin)
  · exact h.place hex hnPi hnew hidx hq le_rfl hframe h.pos h.slack rfl (by omega)

/-- The slots in front of frame `t` that are not taken. -/
theorem CursorInv.skipped_eq {pre : List ℕ} {s : Cursor} (h : CursorInv sVecs T nPi nPo nCo pre s)
    {t : ℕ} (ht : s.ct1 < t) : t * nPo = pre.length + s.skipped nPo t ∧
      s.ct2 ≤ s.cnt + nPo * (t - s.ct1) ∧ s.ct1 * nPo + s.ct2 ≤ t * nPo := by
  have hpos := h.pos
  have hpin := h.pin
  have hskip : nPo * (t - s.ct1) + s.ct1 * nPo = t * nPo := by
    rw [Nat.mul_comm nPo, ← Nat.add_mul, Nat.sub_add_cancel ht.le]
  have hge : s.ct1 * nPo + nPo ≤ t * nPo := by
    rw [← Nat.succ_mul]
    exact Nat.mul_le_mul_right _ ht
  unfold Cursor.skipped
  omega

theorem CursorInv.skip {pre : List ℕ} {s : Cursor} (h : CursorInv sVecs T nPi nPo nCo pre s)
    (hex : CeilExact nPi T nCo) (hnPi : 1 ≤ nPi) {idx : ℕ}
    (hnew : sVecs.getD idx ∅ ⊆ Finset.range (nPi * T)) (hidx : idx ∉ pre)
    (hgt : s.ct1 < frameFor nPi (s.sv ∪ sVecs.getD idx ∅))
    (hT : frameFor nPi (s.sv ∪ sVecs.getD idx ∅) < T)
    (hcnt : s.skipped nPo (frameFor nPi (s.sv ∪ sVecs.getD idx ∅)) ≤ nPo * T - nCo) :
    CursorInv sVecs T nPi nPo nCo (pre ++ [idx])
      (s.skip sVecs nPo idx (frameFor nPi (s.sv ∪ sVecs.getD idx ∅))) := by
  obtain ⟨hq, -, hle⟩ := h.skipped_eq hgt
  have hlt : frameFor nPi (s.sv ∪ sVecs.getD idx ∅) * nPo < nPo * T := by
    rw [Nat.mul_comm nPo]
    exact Nat.mul_lt_mul_of_pos_right hT (Nat.zero_lt_of_lt h.pin)
  unfold Cursor.skip
  split
  · next hone =>
      refine h.place hex hnPi hnew hidx hlt hle le_rfl hq hcnt ?_ (Nat.zero_lt_of_lt h.pin)
      rw [← hone, Nat.mul_one, Nat.mul_one, Nat.add_zero]
  · next hone =>
      have hpin := h.pin
      exact h.place hex hnPi hnew hidx hlt hle le_rfl hq hcnt rfl (by omega)

/-- A filled placement: what the rest of the program uses of the slots. -/
structure Slots (sVecs : List SupVec) (T nPi nPo : ℕ) (slots : List (Option ℕ)) : Prop where
  length : slots.length = nPo * T
  placed : Placed slots (List.range sVecs.length)
  causal : Causal sVecs nPi nPo slots

theorem not_at_replicate {n p o : ℕ} : ¬ At (List.replicate n none) p o := by
  intro h
  simp [At, List.getElem?_replicate] at h

/-- The empty slots, with the cursor in front. -/
theorem CursorInv.start (sVecs : List SupVec) (T nPi nCo : ℕ) {nPo : ℕ} (hnPo : 0 < nPo) :
    CursorInv sVecs T nPi nPo nCo [] ⟨List.replicate (nPo * T) none, ∅, 0, 0, 0⟩ :=
  ⟨by simp, by simp, Nat.zero_le _, hnPo, fun h => absurd h not_at_replicate,
    ⟨fun h => absurd h not_at_replicate, by simp, fun h => absurd h not_at_replicate⟩, by simp,
    fun t => ⟨∅, by simp, fun p o _ h => absurd h not_at_replicate⟩, Finset.empty_subset _⟩

theorem CountSort.run_ne_nil (sort : CountSort) (hne : sVecs ≠ []) : sort.run sVecs ≠ [] := by
  intro h
  have := (sort.perm sVecs).length_eq
  rw [h, List.length_range, List.length_nil] at this
  exact hne (List.length_eq_zero_iff.mp this.symm)

theorem nPo_pos (hne : sVecs ≠ []) (hcap : sVecs.length ≤ nPo * T) : 0 < nPo := by
  apply Nat.pos_of_ne_zero
  rintro rfl
  rw [Nat.zero_mul] at hcap
  exact hne (List.length_eq_zero_iff.mp (Nat.le_zero.mp hcap))

end Loop

/-! ## The first number of pins -/

/-- `ceil(nCo / T)` pins have a slot for every output. -/
theorem le_ceil_mul {nCo T : ℕ} (hT : 1 ≤ T) : nCo ≤ (nCo + T - 1) / T * T := by
  have h := Nat.lt_div_mul_add (a := nCo + T - 1) (show 0 < T from hT)
  omega

/-- Fewer pins have not. -/
theorem mul_lt_of_lt_ceil {nCo T k : ℕ} (hT : 1 ≤ T) (h : k < (nCo + T - 1) / T) : k * T < nCo := by
  have hle := (Nat.le_div_iff_mul_le (show 0 < T from hT)).mp h
  rw [Nat.succ_mul] at hle
  omega

/-! ## `oPerm` -/

theorem mem_zipIdx_at {slots : List (Option ℕ)} {p o : ℕ} :
    (some o, p) ∈ slots.zipIdx ↔ At slots p o :=
  List.mem_zipIdx_iff_getElem?

theorem length_readSlots (slots : List (Option ℕ)) (oPerm : List ℤ) :
    (readSlots slots oPerm).length = oPerm.length := by
  refine foldl_inv (l := slots.zipIdx) (b := oPerm)
    (f := fun p x => match x.1 with | some o => p.set o (toInt x.2) | none => p)
    (fun _ r => r.length = oPerm.length) (fun pre x post r _ hr => ?_) rfl
  rcases x with ⟨_ | o, q⟩
  · exact hr
  · simpa using hr

/-- The slot of every output is read into `oPerm`. -/
theorem readSlots_spec {slots : List (Option ℕ)} {nCo : ℕ} (h : Placed slots (List.range nCo))
    {oPerm : List ℤ} (hlen : oPerm.length = nCo) :
    (readSlots slots oPerm).length = nCo ∧
      ∀ p o, At slots p o → (readSlots slots oPerm)[o]? = some (toInt p) := by
  have hinv := foldl_inv (l := slots.zipIdx) (b := oPerm)
    (f := fun p x => match x.1 with | some o => p.set o (toInt x.2) | none => p)
    (fun pre r => r.length = nCo ∧ ∀ p o, (some o, p) ∈ pre → r[o]? = some (toInt p)) ?_
    ⟨hlen, by simp⟩
  · refine ⟨hinv.1, fun p o hp => hinv.2 p o ?_⟩
    exact mem_zipIdx_at.mpr hp
  · rintro pre ⟨x, q⟩ post r hl ⟨hr, hget⟩
    cases x with
    | none =>
        refine ⟨hr, fun p o hp => hget p o ?_⟩
        simpa using hp
    | some o' =>
        have hq : At slots q o' := mem_zipIdx_at.mp (by rw [← hl]; simp)
        have ho' : o' < nCo := List.mem_range.mp (h.mem hq)
        refine ⟨by simp [hr], fun p o hp => ?_⟩
        by_cases hoo : o = o'
        · subst hoo
          have hp' : At slots p o := by
            apply mem_zipIdx_at.mp
            rw [← hl]
            rcases List.mem_append.mp hp with hp | hp
            · exact List.mem_append_left _ hp
            · obtain rfl : p = q := by simpa using hp
              simp
          rw [h.inj hp' hq]
          exact List.getElem?_set_self (by rw [hr]; exact ho')
        · have hp' : (some o, p) ∈ pre := by simpa [hoo] using hp
          simp only
          rw [List.getElem?_set_ne (Ne.symm hoo)]
          exact hget p o hp'

/-- The slots of the outputs. -/
theorem readSlots_eq {slots : List (Option ℕ)} {nCo : ℕ} (h : Placed slots (List.range nCo))
    (hsize : slots.length ≤ 2 ^ 31) {oPerm : List ℤ} (hlen : oPerm.length = nCo) :
    ∃ l : List ℕ, readSlots slots oPerm = l.map Nat.cast ∧ l.length = nCo ∧
      ∀ p o, l[o]? = some p ↔ At slots p o := by
  obtain ⟨hr, hget⟩ := readSlots_spec h hlen
  have hat : ∀ p o, At slots p o → (readSlots slots oPerm)[o]? = some (p : ℤ) := fun p o hp => by
    rw [hget p o hp, toInt_eq (hp.lt.trans_le hsize)]
  have hex : ∀ o < nCo, ∃ p, At slots p o := fun o ho => h.exists_at o (List.mem_range.mpr ho)
  have hslot : ∀ {o : ℕ} {q : ℤ}, (readSlots slots oPerm)[o]? = some q → ∃ p : ℕ, q = p ∧
    At slots p o := by
    intro o q hq
    obtain ⟨p, hp⟩ := hex o (hr ▸ (List.getElem?_eq_some_iff.mp hq).1)
    rw [hat p o hp] at hq
    exact ⟨p, (Option.some.inj hq).symm, hp⟩
  refine ⟨(readSlots slots oPerm).map Int.toNat, ?_, by rw [List.length_map, hr], fun p o => ?_⟩
  · refine List.ext_getElem? fun o => ?_
    rw [List.map_map, List.getElem?_map]
    rcases ho : (readSlots slots oPerm)[o]? with _ | q
    · rfl
    · obtain ⟨p, rfl, -⟩ := hslot ho
      simp
  · rw [List.getElem?_map]
    constructor
    · intro hp
      obtain ⟨q, hq, hqp⟩ := Option.map_eq_some_iff.mp hp
      obtain ⟨p', rfl, hp'⟩ := hslot hq
      obtain rfl : p' = p := by simpa using hqp
      exact hp'
    · intro hp
      rw [hat p o hp]
      simp

/-- `oPerm` passes its check as long as no slot is out of the range of an `int`. -/
theorem checkPerm_readSlots {slots : List (Option ℕ)} {nCo : ℕ}
    (h : Placed slots (List.range nCo)) (hsize : slots.length ≤ 2 ^ 31) {oPerm : List ℤ}
    (hlen : oPerm.length = nCo) : checkPerm (readSlots slots oPerm) slots.length = true := by
  obtain ⟨l, heq, -, hat⟩ := readSlots_eq h hsize hlen
  rw [heq, checkPerm_natCast]
  constructor
  · rw [List.nodup_iff_injective_getElem]
    intro i j hij
    have hi := (hat _ _).mp (List.getElem?_eq_getElem i.isLt)
    have hj := (hat _ _).mp (List.getElem?_eq_getElem j.isLt)
    simp only at hij
    rw [hij] at hi
    unfold At at hi hj
    rw [hi] at hj
    exact Fin.ext (by simpa using hj)
  · intro p hp
    obtain ⟨i, hi⟩ := List.getElem?_of_mem hp
    exact ((hat _ _).mp hi).lt

/-- An output in a slot that is no `int` makes the check fail. -/
theorem checkPerm_readSlots_neg {slots : List (Option ℕ)} {nCo p o : ℕ}
    (h : Placed slots (List.range nCo)) {oPerm : List ℤ} (hlen : oPerm.length = nCo)
    (hp : At slots p o) (hge : 2 ^ 31 ≤ p) (hlt : p < 2 ^ 32) (cap : ℕ) :
    checkPerm (readSlots slots oPerm) cap = false :=
  checkPerm_neg (List.mem_of_getElem? ((readSlots_spec h hlen).2 p o hp)) (toInt_neg hge hlt)

end ExtFolding.TimeMux2
