import ExtFolding.Minisat.Types

/-!
# `memin/minisat/core/Solver.cpp`: the trail

The assignment stack with its levels: literals are put on it by `uncheckedEnqueue` and taken back by
`cancelUntil`. Read from the top, with the level of each literal, it is the trail of the search.
-/

namespace ExtFolding.Minisat

open Cdcl LBool

/-! ## The code -/

/-- The assignment stack and the values it gives. -/
structure Assignment where
  nVars : ℕ
  assigns : ℕ → LBool
  vardata : ℕ → VarData
  trail : List Lit
  trail_lim : List ℕ
  qhead : ℕ

namespace Assignment

variable (s : Assignment)

/-- `value(x)` -/
def valueVar (x : ℕ) : LBool := s.assigns x

/-- `value(p)` -/
def value (p : Lit) : LBool := (s.assigns p.var).xor p.sign

def reason (x : ℕ) : Option ℕ := (s.vardata x).reason

def level (x : ℕ) : ℕ := (s.vardata x).level

def decisionLevel : ℕ := s.trail_lim.length

def nAssigns : ℕ := s.trail.length

def newDecisionLevel : Assignment := { s with trail_lim := s.trail_lim ++ [s.trail.length] }

def uncheckedEnqueue (p : Lit) (source : Option ℕ) : Assignment :=
  { s with
    assigns := Function.update s.assigns p.var (ofBool (!p.sign))
    vardata := Function.update s.vardata p.var ⟨source, s.decisionLevel⟩
    trail := s.trail ++ [p] }

/-- The literals above a level, the last one first. -/
def undone (level : ℕ) : List Lit := (s.trail.drop (s.trail_lim.getD level 0)).reverse

/-- What `cancelUntil` does to the assignment. -/
def cancelUntil (level : ℕ) : Assignment :=
  if level < s.decisionLevel then
    { s with
      assigns := (s.undone level).foldl (fun f p => Function.update f p.var l_Undef) s.assigns
      qhead := s.trail_lim.getD level 0
      trail := s.trail.take (s.trail_lim.getD level 0)
      trail_lim := s.trail_lim.take level }
  else s

end Assignment

/-! ## The invariant -/

/-- The values are those of the literals on the trail, and the levels count the decisions below. -/
structure TrailOk (s : Assignment) : Prop where
  lt : ∀ p ∈ s.trail, p.var < s.nVars
  nodup : (s.trail.map Lit.var).Nodup
  value : ∀ p, s.value p = l_True ↔ p ∈ s.trail
  lim_sorted : s.trail_lim.Pairwise (· ≤ ·)
  lim_le : ∀ m ∈ s.trail_lim, m ≤ s.qhead
  qhead_le : s.qhead ≤ s.trail.length
  level : ∀ i p, s.trail[i]? = some p → s.level p.var = s.trail_lim.countP (· ≤ i)

namespace TrailOk

variable {s : Assignment} {p q : Lit} {i : ℕ}

theorem value_neg (p : Lit) : s.value (-p) = l_True ↔ s.value p = l_False := by
  unfold Assignment.value
  rw [Lit.var_neg, Lit.sign_neg]
  cases s.assigns p.var <;> cases p.sign <;> simp [LBool.xor]

theorem value_false (h : TrailOk s) (p : Lit) : s.value p = l_False ↔ -p ∈ s.trail := by
  rw [← h.value, value_neg]

theorem value_undef (h : TrailOk s) (p : Lit) :
    s.value p = l_Undef ↔ p ∉ s.trail ∧ -p ∉ s.trail := by
  rw [← h.value, ← h.value_false]
  cases s.value p <;> simp

theorem valueVar_undef (h : TrailOk s) (x : ℕ) :
    s.valueVar x = l_Undef ↔ ∀ p ∈ s.trail, p.var ≠ x := by
  have hx : s.valueVar x = l_Undef ↔ s.value (mkLit x false) = l_Undef := by
    unfold Assignment.valueVar Assignment.value
    rw [Lit.var_mkLit]
    cases s.assigns x <;> simp [LBool.xor]
  rw [hx, h.value_undef]
  constructor
  · rintro ⟨h₁, h₂⟩ p hp rfl
    rcases Lit.var_eq_iff.mp (Lit.var_mkLit p.var false) with heq | heq
    · exact h₁ (by rwa [heq])
    · exact h₂ (by rwa [heq, neg_neg])
  · exact fun hno => ⟨fun hp => hno _ hp (by simp), fun hp => hno _ hp (by simp)⟩

theorem not_both (h : TrailOk s) (hp : p ∈ s.trail) : -p ∉ s.trail := by
  intro hn
  have h₁ := (h.value p).mpr hp
  have h₂ := (h.value_false p).mpr hn
  rw [h₁] at h₂
  exact absurd h₂ (by decide)

/-- A variable has one literal on the trail. -/
theorem eq_of_var (h : TrailOk s) (hp : p ∈ s.trail) (hq : q ∈ s.trail) (hv : p.var = q.var) :
    p = q := by
  rcases Lit.var_eq_iff.mp hv with heq | heq
  · exact heq
  · exact absurd (heq ▸ hp) (h.not_both hq)

theorem length_le (h : TrailOk s) : s.trail.length ≤ s.nVars := by
  have hsub : s.trail.map Lit.var ⊆ List.range s.nVars := by
    intro x hx
    obtain ⟨p, hp, rfl⟩ := List.mem_map.mp hx
    exact List.mem_range.mpr (h.lt p hp)
  simpa using (h.nodup.subperm hsub).length_le

theorem level_le (h : TrailOk s) (hp : p ∈ s.trail) : s.level p.var ≤ s.decisionLevel := by
  obtain ⟨i, hi⟩ := List.mem_iff_getElem?.mp hp
  rw [h.level i p hi]
  exact List.countP_le_length

/-- Levels grow along the trail. -/
theorem level_mono (h : TrailOk s) {j : ℕ} (hi : s.trail[i]? = some p) (hj : s.trail[j]? = some q)
    (hij : i ≤ j) : s.level p.var ≤ s.level q.var := by
  rw [h.level i p hi, h.level j q hj]
  refine List.countP_mono_left fun m _ hm => ?_
  rw [decide_eq_true_eq] at hm ⊢
  exact hm.trans hij

/-- The literals that wait to be propagated are of the current level. -/
theorem level_of_qhead (h : TrailOk s) (hi : s.trail[i]? = some p) (hq : s.qhead ≤ i) :
    s.level p.var = s.decisionLevel := by
  rw [h.level i p hi]
  refine List.countP_eq_length.mpr fun m hm => ?_
  rw [decide_eq_true_eq]
  exact (h.lim_le m hm).trans hq

/-! ## Growing -/

theorem newDecisionLevel (h : TrailOk s) (hq : s.qhead = s.trail.length) :
    TrailOk s.newDecisionLevel := by
  refine ⟨h.lt, h.nodup, h.value, ?_, fun m hm => ?_, h.qhead_le, fun i p hi => ?_⟩
  · refine List.pairwise_append.mpr ⟨h.lim_sorted, List.pairwise_singleton _ _, fun a ha b hb => ?_⟩
    rw [List.mem_singleton.mp hb, ← hq]
    exact h.lim_le a ha
  · rcases List.mem_append.mp hm with hm | hm
    · exact h.lim_le m hm
    · exact (List.mem_singleton.mp hm).trans hq.symm |>.le
  · have hlt : i < s.trail.length := (List.getElem?_eq_some_iff.mp hi).1
    show s.level p.var = (s.trail_lim ++ [s.trail.length]).countP _
    rw [List.countP_append, ← h.level i p hi]
    simp [hlt]

variable {source : Option ℕ}

@[simp] theorem trail_enqueue : (s.uncheckedEnqueue p source).trail = s.trail ++ [p] := rfl

theorem level_enqueue_self : (s.uncheckedEnqueue p source).level p.var = s.decisionLevel := by
  simp [Assignment.level, Assignment.uncheckedEnqueue]

theorem level_enqueue_of_ne {x : ℕ} (hx : x ≠ p.var) :
    (s.uncheckedEnqueue p source).level x = s.level x := by
  simp [Assignment.level, Assignment.uncheckedEnqueue, hx]

theorem reason_enqueue_self : (s.uncheckedEnqueue p source).reason p.var = source := by
  simp [Assignment.reason, Assignment.uncheckedEnqueue]

theorem reason_enqueue_of_ne {x : ℕ} (hx : x ≠ p.var) :
    (s.uncheckedEnqueue p source).reason x = s.reason x := by
  simp [Assignment.reason, Assignment.uncheckedEnqueue, hx]

/-- The literals of the trail keep their levels. -/
theorem level_enqueue (h : TrailOk s) (hu : s.value p = l_Undef) (hq : q ∈ s.trail) :
    (s.uncheckedEnqueue p source).level q.var = s.level q.var := by
  obtain ⟨hp, hn⟩ := (h.value_undef p).mp hu
  refine level_enqueue_of_ne fun hv => ?_
  rcases Lit.var_eq_iff.mp hv with rfl | rfl
  · exact hp hq
  · exact hn hq

theorem enqueue (h : TrailOk s) (hu : s.value p = l_Undef) (hp : p.var < s.nVars) :
    TrailOk (s.uncheckedEnqueue p source) := by
  have hfresh : ∀ q ∈ s.trail, q.var ≠ p.var := by
    intro q hq hv
    obtain ⟨h₁, h₂⟩ := (h.value_undef p).mp hu
    rcases Lit.var_eq_iff.mp hv with rfl | rfl
    · exact h₁ hq
    · exact h₂ hq
  refine ⟨fun q hq => ?_, ?_, fun q => ?_, h.lim_sorted, h.lim_le, ?_, fun i q hi => ?_⟩
  · rcases List.mem_append.mp hq with hq | hq
    · exact h.lt q hq
    · exact List.mem_singleton.mp hq ▸ hp
  · rw [trail_enqueue, List.map_append, List.nodup_append]
    refine ⟨h.nodup, List.nodup_singleton _, fun x hx y hy => ?_⟩
    obtain ⟨q, hq, rfl⟩ := List.mem_map.mp hx
    rw [List.mem_singleton.mp hy]
    exact hfresh q hq
  · rw [trail_enqueue, List.mem_append, List.mem_singleton]
    by_cases hv : q.var = p.var
    · have hvalue : (s.uncheckedEnqueue p source).value q = (ofBool (!p.sign)).xor q.sign := by
        simp [Assignment.value, Assignment.uncheckedEnqueue, hv]
      have hnot : q ∉ s.trail := fun hq => hfresh q hq hv
      rw [hvalue]
      rcases Lit.var_eq_iff.mp hv with rfl | rfl
      · cases q.sign <;> simp [ofBool, LBool.xor]
      · have := (Lit.ne_neg p).symm
        cases hs : p.sign <;> simp [ofBool, LBool.xor, hnot, this, hs]
    · have hvalue : (s.uncheckedEnqueue p source).value q = s.value q := by
        simp [Assignment.value, Assignment.uncheckedEnqueue, hv]
      rw [hvalue, h.value]
      refine ⟨Or.inl, fun hq => hq.resolve_right ?_⟩
      rintro rfl
      exact hv rfl
  · rw [trail_enqueue, List.length_append]
    exact h.qhead_le.trans (Nat.le_add_right _ _)
  · rw [trail_enqueue] at hi
    rcases Nat.lt_or_ge i s.trail.length with hlt | hge
    · rw [List.getElem?_append_left hlt] at hi
      rw [h.level_enqueue hu (List.mem_of_getElem? hi)]
      exact h.level i q hi
    · rw [List.getElem?_append_right hge] at hi
      obtain rfl : q = p := List.mem_singleton.mp (List.mem_of_getElem? hi)
      rw [level_enqueue_self]
      refine (List.countP_eq_length.mpr fun m hm => ?_).symm
      rw [decide_eq_true_eq]
      exact (h.lim_le m hm).trans (h.qhead_le.trans hge)

/-! ## Taking back -/

variable {level : ℕ}

theorem lim_getElem (hlev : level < s.decisionLevel) :
    s.trail_lim[level]? = some (s.trail_lim.getD level 0) := by
  rw [List.getD_eq_getElem?_getD, List.getElem?_eq_getElem hlev, Option.getD_some]

theorem lim_getD_mem (hlev : level < s.decisionLevel) : s.trail_lim.getD level 0 ∈ s.trail_lim :=
  List.mem_of_getElem? (lim_getElem hlev)

/-- The limits up to a level come before it, the others after it. -/
theorem lim_split (h : TrailOk s) (hlev : level < s.decisionLevel) :
    (∀ m ∈ s.trail_lim.take level, m ≤ s.trail_lim.getD level 0) ∧
    ∀ m ∈ s.trail_lim.drop level, s.trail_lim.getD level 0 ≤ m := by
  have hsplit : s.trail_lim = s.trail_lim.take level ++ s.trail_lim.drop level :=
    (List.take_append_drop level _).symm
  have hdrop : s.trail_lim.drop level = s.trail_lim.getD level 0 :: s.trail_lim.drop
    (level + 1) := by
    rw [List.drop_eq_getElem_cons hlev, List.getD_eq_getElem?_getD, List.getElem?_eq_getElem hlev,
      Option.getD_some]
  have hsorted := h.lim_sorted
  rw [hsplit, List.pairwise_append] at hsorted
  obtain ⟨-, hd, hcross⟩ := hsorted
  rw [hdrop] at hd hcross ⊢
  refine ⟨fun m hm => hcross m hm _ List.mem_cons_self, fun m hm => ?_⟩
  rcases List.mem_cons.mp hm with rfl | hm
  · exact le_rfl
  · exact (List.pairwise_cons.mp hd).1 m hm

/-- A literal stands below the limit of a level exactly when its own level is not above it. -/
theorem lt_lim_iff (h : TrailOk s) (hlev : level < s.decisionLevel) (hi : s.trail[i]? = some p) :
    i < s.trail_lim.getD level 0 ↔ s.level p.var ≤ level := by
  obtain ⟨hlow, hhigh⟩ := h.lim_split hlev
  rw [h.level i p hi, ← List.take_append_drop level s.trail_lim, List.countP_append]
  rw [List.take_append_drop]
  constructor
  · intro hlt
    have h0 : (s.trail_lim.drop level).countP (· ≤ i) = 0 := by
      rw [List.countP_eq_zero]
      intro m hm
      rw [decide_eq_true_eq, not_le]
      exact hlt.trans_le (hhigh m hm)
    have hle : (s.trail_lim.take level).countP (· ≤ i) ≤ (s.trail_lim.take level).length :=
      List.countP_le_length
    rw [List.length_take] at hle
    omega
  · intro hle
    by_contra hge
    have hfull : (s.trail_lim.take level).countP (· ≤ i) = (s.trail_lim.take level).length := by
      rw [List.countP_eq_length]
      intro m hm
      rw [decide_eq_true_eq]
      exact (hlow m hm).trans (Nat.le_of_not_lt hge)
    have hpos : 0 < (s.trail_lim.drop level).countP (· ≤ i) := by
      rw [List.countP_pos_iff]
      refine ⟨_, List.mem_of_getElem? (i := 0) ?_, decide_eq_true (Nat.le_of_not_lt hge)⟩
      rw [List.getElem?_drop, Nat.add_zero, lim_getElem hlev]
    have hlev' : level < s.trail_lim.length := hlev
    rw [List.length_take] at hfull
    omega

theorem lim_getD_le (h : TrailOk s) (hlev : level < s.decisionLevel) :
    s.trail_lim.getD level 0 ≤ s.trail.length :=
  (h.lim_le _ (lim_getD_mem hlev)).trans h.qhead_le

theorem cancelUntil_of_lt (hlev : level < s.decisionLevel) : s.cancelUntil level =
    { s with
      assigns := (s.undone level).foldl (fun f p => Function.update f p.var l_Undef) s.assigns
      qhead := s.trail_lim.getD level 0
      trail := s.trail.take (s.trail_lim.getD level 0)
      trail_lim := s.trail_lim.take level } := by
  rw [Assignment.cancelUntil, if_pos hlev]

theorem cancelUntil_of_le (hlev : s.decisionLevel ≤ level) : s.cancelUntil level = s := by
  rw [Assignment.cancelUntil, if_neg (Nat.not_lt_of_le hlev)]

@[simp] theorem vardata_cancelUntil : (s.cancelUntil level).vardata = s.vardata := by
  unfold Assignment.cancelUntil
  split <;> rfl

@[simp] theorem nVars_cancelUntil : (s.cancelUntil level).nVars = s.nVars := by
  unfold Assignment.cancelUntil
  split <;> rfl

theorem level_cancelUntil (x : ℕ) : (s.cancelUntil level).level x = s.level x := by
  simp [Assignment.level]

theorem reason_cancelUntil (x : ℕ) : (s.cancelUntil level).reason x = s.reason x := by
  simp [Assignment.reason]

theorem decisionLevel_cancelUntil (hlev : level ≤ s.decisionLevel) :
    (s.cancelUntil level).decisionLevel = level := by
  rcases Nat.lt_or_ge level s.decisionLevel with hlt | hge
  · rw [cancelUntil_of_lt hlt]
    show (s.trail_lim.take level).length = level
    rw [List.length_take]
    exact min_eq_left hlev
  · rw [cancelUntil_of_le hge]
    exact Nat.le_antisymm hge hlev

/-- The trail that is left is a part of the old one, of the literals up to the level. -/
theorem trail_cancelUntil (h : TrailOk s) (level : ℕ) :
    (s.cancelUntil level).trail <+: s.trail ∧
    ∀ p, p ∈ (s.cancelUntil level).trail ↔ p ∈ s.trail ∧ s.level p.var ≤ level := by
  rcases Nat.lt_or_ge level s.decisionLevel with hlt | hge
  · rw [cancelUntil_of_lt hlt]
    refine ⟨List.take_prefix _ _, fun p => ?_⟩
    show p ∈ s.trail.take _ ↔ _
    constructor
    · intro hp
      obtain ⟨i, hi⟩ := List.mem_iff_getElem?.mp hp
      rw [List.getElem?_take] at hi
      split at hi
      · next hlim => exact ⟨List.mem_of_getElem? hi, (h.lt_lim_iff hlt hi).mp hlim⟩
      · exact absurd hi (Option.some_ne_none p).symm
    · rintro ⟨hp, hle⟩
      obtain ⟨i, hi⟩ := List.mem_iff_getElem?.mp hp
      refine List.mem_of_getElem? (i := i) ?_
      rw [List.getElem?_take, if_pos ((h.lt_lim_iff hlt hi).mpr hle), hi]
  · rw [cancelUntil_of_le hge]
    exact ⟨List.prefix_rfl, fun p => ⟨fun hp => ⟨hp, (h.level_le hp).trans hge⟩, And.left⟩⟩

theorem foldl_undef (l : List Lit) (f : ℕ → LBool) (x : ℕ) :
    l.foldl (fun f p => Function.update f p.var l_Undef) f x =
      if ∃ p ∈ l, p.var = x then l_Undef else f x := by
  induction l generalizing f with
  | nil => simp
  | cons p l ih =>
      rw [List.foldl_cons, ih, Function.update_apply]
      by_cases hl : ∃ q ∈ l, q.var = x
      · obtain ⟨q, hq, hv⟩ := hl
        rw [if_pos ⟨q, hq, hv⟩, if_pos ⟨q, List.mem_cons_of_mem p hq, hv⟩]
      · rw [if_neg hl]
        by_cases hp : x = p.var
        · rw [if_pos hp, if_pos ⟨p, List.mem_cons_self, hp.symm⟩]
        · rw [if_neg hp, if_neg]
          rintro ⟨q, hq, hv⟩
          rcases List.mem_cons.mp hq with rfl | hq
          · exact hp hv.symm
          · exact hl ⟨q, hq, hv⟩

theorem cancelUntil (h : TrailOk s) (level : ℕ) : TrailOk (s.cancelUntil level) := by
  rcases Nat.lt_or_ge level s.decisionLevel with hlt | hge
  · have hpre : (s.cancelUntil level).trail <+: s.trail := (h.trail_cancelUntil level).1
    have hmem := (h.trail_cancelUntil level).2
    have hsplit := h.lim_split hlt
    have hlen := h.lim_getD_le hlt
    rw [cancelUntil_of_lt hlt] at hpre hmem ⊢
    refine ⟨fun p hp => h.lt p (hpre.subset hp), h.nodup.sublist (hpre.sublist.map _),
      fun p => ?_, h.lim_sorted.sublist (List.take_sublist _ _), hsplit.1, ?_, fun i p hi => ?_⟩
    · -- a value is kept unless the variable was above the level
      show ((s.undone level).foldl (fun f p => Function.update f p.var l_Undef) s.assigns p.var).xor
        p.sign = l_True ↔ p ∈ s.trail.take _
      have hundone : ∀ q, q ∈ s.undone level ↔ q ∈ s.trail.drop (s.trail_lim.getD level 0) :=
        fun q => List.mem_reverse
      have hmem' := hmem p
      rw [foldl_undef, hmem']
      have hval := h.value p
      unfold Assignment.value at hval
      split
      · next hex =>
          obtain ⟨q, hq, hv⟩ := hex
          refine ⟨fun hno => by simp [LBool.xor] at hno, fun ⟨hp, hle⟩ => ?_⟩
          rw [hundone] at hq
          obtain ⟨j, hj⟩ := List.mem_iff_getElem?.mp hq
          rw [List.getElem?_drop] at hj
          have hqp := h.eq_of_var (List.mem_of_getElem? hj) hp hv
          rw [← hqp] at hle
          have := (h.lt_lim_iff hlt hj).mpr hle
          omega
      · next hno =>
          rw [hval]
          refine ⟨fun hp => ⟨hp, ?_⟩, And.left⟩
          obtain ⟨i, hi⟩ := List.mem_iff_getElem?.mp hp
          rw [← h.lt_lim_iff hlt hi]
          by_contra hge
          refine hno ⟨p,
            (hundone p).mpr (List.mem_of_getElem? (i := i - s.trail_lim.getD level 0) ?_), rfl⟩
          rw [List.getElem?_drop, Nat.add_sub_cancel' (Nat.le_of_not_lt hge), hi]
    · show _ ≤ (s.trail.take _).length
      rw [List.length_take]
      exact le_min le_rfl hlen
    · -- the limits that are gone are above all literals that are left
      show s.level p.var = (s.trail_lim.take level).countP _
      rw [List.getElem?_take] at hi
      split at hi
      · next hlim =>
          rw [h.level i p hi]
          conv_lhs => rw [← List.take_append_drop level s.trail_lim]
          have hzero : (s.trail_lim.drop level).countP (· ≤ i) = 0 := by
            rw [List.countP_eq_zero]
            intro m hm
            rw [decide_eq_true_eq, not_le]
            exact hlim.trans_le (hsplit.2 m hm)
          rw [List.countP_append, hzero, Nat.add_zero]
      · exact absurd hi (Option.some_ne_none p).symm
  · rw [cancelUntil_of_le hge]
    exact h

end TrailOk

/-! ## The trail of the search -/

/-- The state of the search that the assignment stands for. -/
def Assignment.abs (s : Assignment) : State Lit :=
  ⟨(s.trail.map fun p => (p, s.level p.var)).reverse, s.decisionLevel⟩

/-- More literals, on the same levels. -/
structure Extends (s s' : Assignment) : Prop where
  trail : s.trail <+: s'.trail
  trail_lim : s'.trail_lim = s.trail_lim
  level : ∀ p ∈ s.trail, s'.level p.var = s.level p.var

namespace Extends

variable {s s' s'' : Assignment}

theorem trans (h : Extends s s') (h' : Extends s' s'') : Extends s s'' :=
  ⟨h.trail.trans h'.trail, h'.trail_lim.trans h.trail_lim, fun p hp =>
    (h'.level p (h.trail.subset hp)).trans (h.level p hp)⟩

theorem decisionLevel (h : Extends s s') : s'.decisionLevel = s.decisionLevel :=
  congrArg List.length h.trail_lim

theorem weight_le (h : Extends s s') (n K : ℕ) :
    weight n K s.abs.trail ≤ weight n K s'.abs.trail := by
  obtain ⟨new, hnew⟩ := h.trail
  have hmap : (s.trail.map fun p => (p, s'.level p.var)) = s.trail.map fun p =>
    (p, s.level p.var) :=
    List.map_congr_left fun p hp => congrArg (Prod.mk p) (h.level p hp)
  have hsplit : s'.abs.trail = (new.map fun p => (p, s'.level p.var)).reverse ++ s.abs.trail := by
    unfold Assignment.abs
    rw [← hnew, List.map_append, hmap, List.reverse_append]
  unfold weight
  rw [hsplit, List.map_append, List.sum_append]
  exact Nat.le_add_left _ _

end Extends

theorem abs_congr {s s' : Assignment} (ht : s'.trail = s.trail) (hlim : s'.trail_lim = s.trail_lim)
    (hlevel : ∀ x, s'.level x = s.level x) : s'.abs = s.abs := by
  unfold Assignment.abs Assignment.decisionLevel
  rw [ht, hlim, List.map_congr_left fun p _ => congrArg (Prod.mk p) (hlevel p.var)]

namespace TrailOk

variable {s : Assignment} {p q : Lit} {source : Option ℕ} {level : ℕ}

theorem mem_abs {k : ℕ} : (p, k) ∈ s.abs.trail ↔ p ∈ s.trail ∧ s.level p.var = k := by
  simp only [Assignment.abs, List.mem_reverse, List.mem_map, Prod.mk.injEq]
  constructor
  · rintro ⟨q, hq, rfl, rfl⟩
    exact ⟨hq, rfl⟩
  · rintro ⟨hp, rfl⟩
    exact ⟨p, hp, rfl, rfl⟩

theorem isTrue_abs : s.abs.trail.IsTrue p ↔ p ∈ s.trail := by
  simp [Trail.IsTrue, mem_abs]

theorem undef_abs (h : TrailOk s) : s.abs.trail.Undef p ↔ s.value p = l_Undef := by
  rw [Trail.Undef, isTrue_abs, isTrue_abs, h.value_undef]

theorem abs_enqueue (h : TrailOk s) (hu : s.value p = l_Undef) :
    (s.uncheckedEnqueue p source).abs = ⟨(p, s.decisionLevel) :: s.abs.trail, s.decisionLevel⟩ := by
  have hmap : s.trail.map (fun q => (q, (s.uncheckedEnqueue p source).level q.var)) =
      s.trail.map fun q => (q, s.level q.var) :=
    List.map_congr_left fun q hq => by rw [h.level_enqueue hu hq]
  show State.mk ((s.trail ++ [p]).map fun q =>
    (q, (s.uncheckedEnqueue p source).level q.var)).reverse s.decisionLevel = _
  rw [List.map_append, hmap, List.map_singleton, level_enqueue_self, List.reverse_append]
  rfl

theorem abs_newDecisionLevel : s.newDecisionLevel.abs = ⟨s.abs.trail, s.decisionLevel + 1⟩ := by
  show State.mk s.abs.trail (s.trail_lim ++ [s.trail.length]).length = _
  rw [List.length_append]
  rfl

theorem abs_cancelUntil (h : TrailOk s) (hlev : level ≤ s.decisionLevel) :
    (s.cancelUntil level).abs = ⟨s.abs.trail.cut level, level⟩ := by
  obtain ⟨rest, hrest⟩ := (h.trail_cancelUntil level).1
  have hmem := (h.trail_cancelUntil level).2
  have hkeep : ((s.cancelUntil level).trail.map fun p => (p, s.level p.var)).filter
      (fun e => decide (e.2 ≤ level)) = (s.cancelUntil level).trail.map fun p =>
        (p, s.level p.var) := by
    rw [List.filter_eq_self]
    intro e he
    obtain ⟨p, hp, rfl⟩ := List.mem_map.mp he
    exact decide_eq_true ((hmem p).mp hp).2
  have hdrop : (rest.map fun p => (p, s.level p.var)).filter
    (fun e => decide (e.2 ≤ level)) = [] := by
    rw [List.filter_eq_nil_iff]
    intro e he
    obtain ⟨p, hp, rfl⟩ := List.mem_map.mp he
    rw [decide_eq_true_eq]
    intro hle
    have hp' : p ∈ s.trail := hrest ▸ List.mem_append_right _ hp
    have hleft := (hmem p).mpr ⟨hp', hle⟩
    have hnodup := h.nodup
    rw [← hrest, List.map_append, List.nodup_append] at hnodup
    exact hnodup.2.2 _ (List.mem_map_of_mem hleft) _ (List.mem_map_of_mem hp) rfl
  unfold Assignment.abs
  rw [decisionLevel_cancelUntil hlev]
  congr 1
  rw [Trail.cut, List.filter_reverse, ← hrest, List.map_append, List.filter_append, hdrop,
    List.append_nil, hkeep]
  exact congrArg List.reverse (List.map_congr_left fun p _ => by rw [level_cancelUntil])

end TrailOk

end ExtFolding.Minisat
