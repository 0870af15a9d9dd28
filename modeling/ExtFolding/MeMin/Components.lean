import ExtFolding.Lib.Marking
import ExtFolding.MeMin.Incomp
import Mathlib.Data.List.GetD

/-!
# `memin/minimizer.cpp`: `getTransitivelyCompatibleStates`

Each state that has not been processed starts a class; the states that are compatible with a member
are taken from a work list. The classes are those of the transitive closure.
-/

namespace ExtFolding.MeMin

/-! ## The code -/

/-- `processedStates` and `curSet` -/
def classFlags (nStates : ℕ) : Marking ℕ (List Bool × List Bool) where
  nodes := Finset.range nStates
  mirror a := a
  ok p := p.1.length = nStates
  marked p a := p.1.getD a false
  mark p a := (p.1.set a true, p.2.set a true)
  mirror_mem h := h
  mirror_mirror _ := rfl
  ok_mark hs _ := by rw [List.length_set, hs]
  marked_mark {p a b} hs ha _ := by
    rw [Marking.getD_set (hs ▸ Finset.mem_range.mp ha)]
    by_cases h : b = a <;> simp [h]

/-- The states from `s` on that are compatible with `curS`. -/
def compatibleFrom (nStates : ℕ) (incompMatrix : List Bool) (s curS : ℕ) : List ℕ :=
  (List.range' s (nStates - s)).filter fun i => !incompMatrix.getD (ai curS i nStates) false

/-- The body of the loop over the states, for `processedStates` and `ret`. -/
def classStep (nStates : ℕ) (incompMatrix : List Bool) (p : List Bool × List (List Bool)) (s : ℕ) :
    Option (List Bool × List (List Bool)) :=
  if p.1.getD s false then some p
  else do
    let q ← (classFlags nStates).drain (compatibleFrom nStates incompMatrix s) nStates [s]
      (p.1.set s true, (List.replicate nStates false).set s true)
    return (q.1, p.2 ++ [q.2])

def getTransitivelyCompatibleStates (nStates : ℕ) (incompMatrix : List Bool) :
    Option (List (List Bool)) := do
  let p ← (List.range nStates).foldlM (classStep nStates incompMatrix)
    (List.replicate nStates false, [])
  return p.2

/-! ## The classes -/

variable {n : ℕ} {incompMatrix : List Bool}

/-- The entry of the matrix is not set. -/
def Compatible (n : ℕ) (incompMatrix : List Bool) (s t : ℕ) : Prop :=
  incompMatrix.getD (ai s t n) false = false

/-- A class has no common member with another and no member compatible with another state. -/
structure CompatClasses (n : ℕ) (incompMatrix : List Bool) (tcs : List (List Bool)) : Prop where
  length : ∀ c ∈ tcs, c.length = n
  disjoint : tcs.Pairwise fun c d => ∀ s, c.getD s false = true → d.getD s false = false
  closed : ∀ c ∈ tcs, ∀ s < n, ∀ t < n, Compatible n incompMatrix s t →
    c.getD s false = true → c.getD t false = true

/-- The classes after the states `pre` have been looked at. -/
structure ClassInv (n : ℕ) (incompMatrix : List Bool) (pre : List ℕ)
    (p : List Bool × List (List Bool)) : Prop where
  length : p.1.length = n
  done : ∀ s ∈ pre, p.1.getD s false = true
  processed : ∀ s, p.1.getD s false = true ↔ ∃ c ∈ p.2, c.getD s false = true
  classes : CompatClasses n incompMatrix p.2

/-- The flags of the class that is built, over the flags before it. -/
structure CurSet (n : ℕ) (old : List Bool) (q : List Bool × List Bool) : Prop where
  length : q.1.length = n
  curLength : q.2.length = n
  processed : ∀ s, q.1.getD s false = true ↔ old.getD s false = true ∨ q.2.getD s false = true
  fresh : ∀ s, q.2.getD s false = true → old.getD s false = false

theorem CurSet.mark {old : List Bool} {q : List Bool × List Bool} (h : CurSet n old q) {s : ℕ}
    (hs : s < n) (hm : q.1.getD s false = false) :
    CurSet n old ((classFlags n).mark q s) := by
  have h₁ : ∀ t, (q.1.set s true).getD t false = if t = s then true else q.1.getD t false :=
    fun t => Marking.getD_set (h.length.symm ▸ hs)
  have h₂ : ∀ t, (q.2.set s true).getD t false = if t = s then true else q.2.getD t false :=
    fun t => Marking.getD_set (h.curLength.symm ▸ hs)
  refine ⟨by simp [classFlags, h.length], by simp [classFlags, h.curLength], fun t => ?_,
    fun t => ?_⟩
  · show (q.1.set s true).getD t false = true ↔ _ ∨ (q.2.set s true).getD t false = true
    rw [h₁, h₂]
    by_cases hts : t = s
    · simp [hts]
    · simpa [hts] using h.processed t
  · show (q.2.set s true).getD t false = true → _
    rw [h₂]
    by_cases hts : t = s
    · subst hts
      intro _
      by_contra hold
      rw [(h.processed t).mpr (Or.inl (by simpa using hold))] at hm
      exact Bool.noConfusion hm
    · simpa [hts] using h.fresh t

theorem mem_compatibleFrom {s t u : ℕ} : u ∈ compatibleFrom n incompMatrix s t ↔
    s ≤ u ∧ u < n ∧ Compatible n incompMatrix t u := by
  unfold compatibleFrom Compatible
  rw [List.mem_filter, List.mem_range'_1, Bool.not_eq_true', and_assoc]
  constructor
  · rintro ⟨hs, hu, h⟩
    exact ⟨hs, by omega, h⟩
  · rintro ⟨hs, hu, h⟩
    exact ⟨hs, by omega, h⟩

/-- The states that are compatible with a new member and come before `s` belong to earlier classes,
which have no new members. -/
theorem ClassInv.step
    (hsymm : ∀ s < n, ∀ t < n, Compatible n incompMatrix s t → Compatible n incompMatrix t s)
    {s : ℕ} {p : List Bool × List (List Bool)} (h : ClassInv n incompMatrix (List.range s) p)
    (hs : s < n) :
    ∃ p', classStep n incompMatrix p s = some p' ∧
      ClassInv n incompMatrix (List.range (s + 1)) p' := by
  unfold classStep
  by_cases hm : p.1.getD s false = true
  · refine ⟨p, if_pos hm, h.length, fun t ht => ?_, h.processed, h.classes⟩
    rw [List.range_succ] at ht
    rcases List.mem_append.mp ht with ht | ht
    · exact h.done t ht
    · rwa [List.mem_singleton.mp ht]
  · rw [if_neg hm]
    set M := classFlags n
    have hok : M.ok (p.1, List.replicate n false) := h.length
    have hgraph : M.Graph (compatibleFrom n incompMatrix s) :=
      ⟨fun _ hc => Finset.mem_range.mpr (mem_compatibleFrom.mp hc).2.1, fun _ hc => hc⟩
    have hstart : CurSet n p.1 (p.1, List.replicate n false) :=
      ⟨h.length, List.length_replicate, fun t => by simp, fun t ht => by simp at ht⟩
    have hstart' := hstart.mark hs (by simpa using hm)
    set q₀ := M.mark (p.1, List.replicate n false) s
    have hsn : s ∈ M.nodes := Finset.mem_range.mpr hs
    have hunmarked : M.marked (p.1, List.replicate n false) s = false := Bool.eq_false_iff.mpr hm
    have hcard : (M.unmarked q₀).card < n := by
      calc (M.unmarked q₀).card < (M.unmarked (p.1, List.replicate n false)).card :=
            Marking.unmarked_mark hok hsn hunmarked
        _ ≤ M.nodes.card := Finset.card_filter_le ..
        _ = n := Finset.card_range n
    have hqueue : ∀ a ∈ [s], a ∈ M.nodes := fun a ha => List.mem_singleton.mp ha ▸ hsn
    obtain ⟨q, hrun, hq⟩ := Marking.drain_spec hgraph n [s] q₀ (M.ok_mark hok hsn)
      (fun _ _ hm => hm) hqueue (by rw [List.length_singleton]; omega)
    have hcur : CurSet n p.1 q := Marking.drain_inv (I := CurSet n p.1) hgraph
      (fun hI ha hm => hI.mark (Finset.mem_range.mp ha) hm) n [s] q₀ hqueue hstart' hrun
    have hprev : ∀ t < n, p.1.getD t false = true → q.1.getD t false = true := fun t _ ht =>
      (hcur.processed t).mpr (Or.inl ht)
    have hself : q.1.getD s false = true :=
      hq.sub s hsn (Marking.marked_mark_self hok hsn)
    -- the neighbours of a new member have been processed
    have hnear : ∀ a < n, q.2.getD a false = true → ∀ b < n, Compatible n incompMatrix a b →
        q.1.getD b false = true := by
      intro a ha hqa b hb hab
      rcases Nat.lt_or_ge b s with hlt | hge
      · exact hprev b hb (h.done b (List.mem_range.mpr hlt))
      · have hclosed : M.Closed (compatibleFrom n incompMatrix s) q a := by
          rcases hq.closed a (Finset.mem_range.mpr ha)
            ((hcur.processed a).mpr (Or.inr hqa)) with hm₀ | hcl
          · rcases (M.marked_mark hok hsn (Finset.mem_range.mpr ha)).mp hm₀ with rfl | rfl | hold
            · exact hq.start a (List.mem_singleton_self a)
            · exact hq.start _ (List.mem_singleton_self _)
            · exact Bool.noConfusion ((hcur.fresh a hqa).symm.trans hold)
          · exact hcl
        exact hclosed b (mem_compatibleFrom.mpr ⟨hge, hb, hab⟩)
    refine ⟨(q.1, p.2 ++ [q.2]), Option.bind_eq_some_iff.mpr ⟨q, hrun, rfl⟩, hcur.length,
      fun t ht => ?_, fun t => ?_, fun c hc => ?_, ?_, fun c hc a ha b hb hab hca => ?_⟩
    · rw [List.range_succ] at ht
      rcases List.mem_append.mp ht with ht | ht
      · exact hprev t ((List.mem_range.mp ht).trans hs) (h.done t ht)
      · exact List.mem_singleton.mp ht ▸ hself
    · rw [hcur.processed t, h.processed t]
      simp only [List.mem_append, List.mem_singleton, or_and_right, exists_or, exists_eq_left]
    · rcases List.mem_append.mp hc with hc | hc
      · exact h.classes.length c hc
      · exact List.mem_singleton.mp hc ▸ hcur.curLength
    · refine List.pairwise_append.mpr ⟨h.classes.disjoint, List.pairwise_singleton _ _,
        fun c hc d hd t ht => ?_⟩
      rw [List.mem_singleton.mp hd, ← Bool.not_eq_true]
      intro hqt
      have hold := (h.processed t).mpr ⟨c, hc, ht⟩
      exact Bool.noConfusion ((hcur.fresh t hqt).symm.trans hold)
    · rcases List.mem_append.mp hc with hc | hc
      · exact h.classes.closed c hc a ha b hb hab hca
      · rw [List.mem_singleton.mp hc] at hca ⊢
        rcases (hcur.processed b).mp (hnear a ha hca b hb hab) with hold | hnew
        · obtain ⟨d, hd, hdb⟩ := (h.processed b).mp hold
          have hda := h.classes.closed d hd b hb a ha (hsymm a ha b hb hab) hdb
          have hold := (h.processed a).mpr ⟨d, hd, hda⟩
          exact Bool.noConfusion ((hcur.fresh a hca).symm.trans hold)
        · exact hnew

/-- The loops end and every state is in a class. -/
theorem exists_compatClasses
    (hsymm : ∀ s < n, ∀ t < n, Compatible n incompMatrix s t → Compatible n incompMatrix t s) :
    ∃ tcs, getTransitivelyCompatibleStates n incompMatrix = some tcs ∧
      CompatClasses n incompMatrix tcs ∧ ∀ s < n, ∃ c ∈ tcs, c.getD s false = true := by
  have hstart : ClassInv n incompMatrix (List.range 0) (List.replicate n false, []) :=
    ⟨List.length_replicate, by simp, fun s => by simp, by simp, List.Pairwise.nil, by simp⟩
  obtain ⟨st, -, hst, -, hrun⟩ := foldlM_range
    (fun k p => ClassInv n incompMatrix (List.range k) p) (f := classStep n incompMatrix)
    (fun s hs p hp => hp.step hsymm hs) hstart
  have hp := hst n le_rfl
  refine ⟨(st n).2, ?_, hp.classes, fun s hs =>
    (hp.processed s).mp (hp.done s (List.mem_range.mpr hs))⟩
  unfold getTransitivelyCompatibleStates
  rw [hrun]
  rfl

end ExtFolding.MeMin
