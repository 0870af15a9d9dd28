import ExtFolding.Minisat.Propagate

/-!
# `memin/minisat/core/Solver.cpp`: minimization of conflict clauses

A literal may be left out of a conflict clause when the reasons of its complement lead back to the
other literals. `litRedundant` follows them, marks what it meets, and takes its marks back when it
meets a decision. Which levels it looks at is a matter of speed only.
-/

namespace ExtFolding.Minisat

open Cdcl LBool

/-! ## The code -/

/-- `seen`, `analyze_stack` from its top, and `analyze_toclear`. -/
structure Marks where
  seen : ℕ → Bool
  stack : List Lit
  toclear : List Lit

def Assignment.abstractLevel (s : Assignment) (x : ℕ) : ℕ := 1 <<< (s.level x % 32)

/-- The literals of a reason behind the first; `false` when one of them is not redundant. -/
def Assignment.pushReason (s : Assignment) (abstract_levels : ℕ) : List Lit → Marks → Bool × Marks
  | [], m => (true, m)
  | p :: ps, m =>
      if m.seen p.var = false ∧ 0 < s.level p.var then
        if s.reason p.var ≠ none ∧ s.abstractLevel p.var &&& abstract_levels ≠ 0 then
          s.pushReason abstract_levels ps
            ⟨Function.update m.seen p.var true, p :: m.stack, m.toclear ++ [p]⟩
        else (false, m)
      else s.pushReason abstract_levels ps m

namespace Core

variable (s : Core)

/-- `while (analyze_stack.size() > 0)`; `none` when a literal on the stack has no reason. -/
def litRedundantLoop (abstract_levels : ℕ) : ℕ → Marks → Option (Bool × Marks)
  | 0, _ => none
  | fuel + 1, m =>
      match m.stack with
      | [] => some (true, m)
      | p :: stack => do
          let cr ← s.reason p.var
          let c ← s.ca cr
          let r := s.pushReason abstract_levels (c.lits.drop 1) { m with stack := stack }
          if r.1 then litRedundantLoop abstract_levels fuel r.2 else some (false, r.2)

def litRedundant (p : Lit) (abstract_levels : ℕ) (m : Marks) : Option (Bool × Marks) := do
  let top := m.toclear.length
  let r ← s.litRedundantLoop abstract_levels (s.nVars + 2) { m with stack := [p] }
  if r.1 then return r
  else return (false, { r.2 with
    seen := (r.2.toclear.drop top).foldl (fun f q => Function.update f q.var false) r.2.seen
    toclear := r.2.toclear.take top })

/-- `if (reason(var(out_learnt[i])) == CRef_Undef || !litRedundant(out_learnt[i],
abstract_level))` -/
def minimizeLoop (abstract_level : ℕ) : List Lit → Marks → Option (List Lit × Marks)
  | [], m => some ([], m)
  | q :: out, m =>
      match s.reason q.var with
      | none => (minimizeLoop abstract_level out m).map fun r => (q :: r.1, r.2)
      | some _ => do
          let b ← s.litRedundant q abstract_level m
          let r ← minimizeLoop abstract_level out b.2
          return (if b.1 then r.1 else q :: r.1, r.2)

end Core

/-! ## Marks -/

/-- The variables of `new` have been marked, which were not. -/
structure Grown (m m' : Marks) (new : List Lit) : Prop where
  toclear : m'.toclear = m.toclear ++ new
  fresh : ∀ q ∈ new, m.seen q.var = false
  nodup : (new.map Lit.var).Nodup
  seen : ∀ x, m'.seen x = true ↔ m.seen x = true ∨ ∃ q ∈ new, q.var = x

namespace Grown

variable {m m' m'' : Marks} {new new' : List Lit} {p : Lit}

theorem refl (m : Marks) : Grown m m [] := ⟨(List.append_nil _).symm, by simp, by simp, by simp⟩

theorem trans (h : Grown m m' new) (h' : Grown m' m'' new') : Grown m m'' (new ++ new') := by
  refine ⟨?_, fun q hq => ?_, ?_, fun x => ?_⟩
  · rw [h'.toclear, h.toclear, List.append_assoc]
  · rcases List.mem_append.mp hq with hq | hq
    · exact h.fresh q hq
    · have hno := h'.fresh q hq
      cases hs : m.seen q.var
      · rfl
      · exact hno.symm.trans ((h.seen q.var).mpr (Or.inl hs)) |>.symm
  · rw [List.map_append, List.nodup_append]
    refine ⟨h.nodup, h'.nodup, fun x hx y hy heq => ?_⟩
    obtain ⟨q, hq, rfl⟩ := List.mem_map.mp hx
    obtain ⟨q', hq', rfl⟩ := List.mem_map.mp hy
    have hno := h'.fresh q' hq'
    rw [← heq, (h.seen q.var).mpr (Or.inr ⟨q, hq, rfl⟩)] at hno
    cases hno
  · rw [h'.seen, h.seen]
    simp only [List.mem_append, or_and_right, exists_or, or_assoc]

theorem push (hp : m.seen p.var = false) (stack : List Lit) :
    Grown m ⟨Function.update m.seen p.var true, stack, m.toclear ++ [p]⟩ [p] := by
  refine ⟨rfl, fun q hq => ?_, List.nodup_singleton _, fun x => ?_⟩
  · rw [List.mem_singleton.mp hq]
    exact hp
  · show Function.update m.seen p.var true x = true ↔ _
    rw [Function.update_apply]
    by_cases hx : x = p.var
    · simp [hx]
    · simp [hx, Ne.symm hx]

theorem mono (h : Grown m m' new) {x : ℕ} (hx : m.seen x = true) : m'.seen x = true :=
  (h.seen x).mpr (Or.inl hx)

theorem foldl_unmark (l : List Lit) (f : ℕ → Bool) (x : ℕ) :
    l.foldl (fun f q => Function.update f q.var false) f x = true ↔
      f x = true ∧ ∀ q ∈ l, q.var ≠ x := by
  induction l generalizing f with
  | nil => simp
  | cons q l ih =>
      rw [List.foldl_cons, ih, Function.update_apply, List.forall_mem_cons]
      by_cases hx : x = q.var
      · simp [hx]
      · simp [hx, Ne.symm hx]

/-- Taking the marks back gives what was there before. -/
theorem unmark (h : Grown m m' new) :
    (m'.toclear.drop m.toclear.length).foldl (fun f q => Function.update f q.var false) m'.seen =
      m.seen ∧ m'.toclear.take m.toclear.length = m.toclear := by
  rw [h.toclear, List.drop_left, List.take_left]
  refine ⟨funext fun x => ?_, rfl⟩
  rw [Bool.eq_iff_iff, foldl_unmark, h.seen]
  constructor
  · rintro ⟨hx | ⟨q, hq, hv⟩, hno⟩
    · exact hx
    · exact absurd hv (hno q hq)
  · intro hx
    refine ⟨Or.inl hx, fun q hq hv => ?_⟩
    rw [← hv, h.fresh q hq] at hx
    cases hx

end Grown

/-! ## What is marked -/

/-- The other literals of the reason are of level 0 or marked. -/
def Expanded (s : Core) (seen : ℕ → Bool) (q : Lit) : Prop :=
  ∃ cr c, s.reason q.var = some cr ∧ s.ca cr = some c ∧
    ∀ r ∈ c.lits.drop 1, s.level r.var = 0 ∨ seen r.var = true

/-- Each mark stands for a false literal that is in `E` or whose reason has been followed. -/
def Closed (s : Core) (E : Set Lit) (seen : ℕ → Bool) : Prop :=
  ∀ x, seen x = true → ∃ q : Lit, q.var = x ∧ -q ∈ s.trail ∧ (q ∈ E ∨ Expanded s seen q)

section

variable {N : Set (List Lit)} {s : Core} {m m' : Marks} {E E' : Set Lit} {al : ℕ} {p q : Lit}

theorem Expanded.mono {seen seen' : ℕ → Bool} (h : Expanded s seen q)
    (hsub : ∀ x, seen x = true → seen' x = true) : Expanded s seen' q := by
  obtain ⟨cr, c, hr, hc, hrest⟩ := h
  exact ⟨cr, c, hr, hc, fun r hr => (hrest r hr).imp_right (hsub _)⟩

theorem Closed.mono {seen : ℕ → Bool} (h : Closed s E seen) (hsub : E ⊆ E') : Closed s E' seen := by
  intro x hx
  obtain ⟨q, hv, hq, hcase⟩ := h x hx
  exact ⟨q, hv, hq, hcase.imp_left fun hE => hsub hE⟩

/-- A literal that is false at level 0 may be left out. -/
theorem CoreOk.root (hs : CoreOk N s) (hq : -q ∈ s.trail) (h0 : s.level q.var = 0) :
    Follows N (insert (-q) E) := by
  have hroot := hs.search.root (-q, 0) (TrailOk.mem_abs.mpr ⟨hq, by rwa [Lit.var_neg]⟩) rfl
  intro v hv
  obtain ⟨p, hp, hvp⟩ := hroot v hv
  exact ⟨p, Or.inl (List.mem_singleton.mp hp), hvp⟩

/-- What is marked follows with `E`: by induction on the place of the literal on the trail. -/
theorem Closed.follows {seen : ℕ → Bool} (h : Closed s E seen) (hs : CoreOk N s) (i : ℕ) :
    ∀ q : Lit, s.trail[i]? = some (-q) → seen q.var = true → q ∈ E ∨ Follows N (insert (-q) E) := by
  induction i using Nat.strong_induction_on with
  | _ i ih =>
      intro q hi hq
      obtain ⟨q', hv, hq', hcase⟩ := h q.var hq
      have hqq : q' = q := by
        refine neg_injective (hs.trail.eq_of_var hq' (List.mem_of_getElem? hi) ?_)
        rw [Lit.var_neg, Lit.var_neg, hv]
      subst hqq
      refine hcase.imp_right fun ⟨cr, c, hr, hc, hrest⟩ => ?_
      obtain ⟨c', rest, hc', hlits, hfalse⟩ := hs.reason.clause hi (by rwa [Lit.var_neg])
      obtain rfl : c' = c := Option.some.inj (hc'.1.symm.trans hc)
      refine Follows.replace (follows_iff.mpr (hs.implied cr c' hc')) fun r hr => ?_
      change r ∈ c'.lits at hr
      rw [hlits] at hr
      rcases List.mem_cons.mp hr with rfl | hr
      · exact Or.inl (Set.mem_insert _ _)
      · have hdrop : r ∈ c'.lits.drop 1 := by
          rw [hlits]
          exact hr
        rcases hrest r hdrop with h0 | hseen
        · exact Or.inr (hs.root (List.mem_of_mem_take (hfalse r hr)) h0)
        · obtain ⟨j, hj⟩ := List.mem_iff_getElem?.mp (hfalse r hr)
          rw [List.getElem?_take] at hj
          split at hj
          · next hlt =>
              rcases ih j hlt r hj hseen with hE | hfol
              · exact Or.inl (Set.mem_insert_of_mem _ hE)
              · exact Or.inr (hfol.mono (Set.insert_subset_insert (Set.subset_insert _ _)))
          · cases hj

/-- What has been marked and left out was redundant. -/
theorem Closed.shrink {seen : ℕ → Bool} (h : Closed s E seen) (hs : CoreOk N s) {S : Set Lit}
    (hS : Follows N S) (hmem : ∀ q ∈ S, q ∈ E ∨ seen q.var = true ∧ -q ∈ s.trail) :
      Follows N E := by
  refine hS.replace fun q hq => ?_
  rcases hmem q hq with hE | ⟨hseen, htrail⟩
  · exact Or.inl hE
  · obtain ⟨i, hi⟩ := List.mem_iff_getElem?.mp htrail
    exact h.follows hs i q hi hseen

/-! ## The search for reasons -/

/-- Each mark is in `E`, on the stack, or has been followed; the literals on the stack have
reasons. -/
structure StackOk (s : Core) (E : Set Lit) (m : Marks) : Prop where
  closed : Closed s (E ∪ {q | q ∈ m.stack}) m.seen
  trail : ∀ q ∈ m.stack, -q ∈ s.trail
  reason : ∀ q ∈ m.stack, s.reason q.var ≠ none

theorem pushReason_spec (al : ℕ) (lits : List Lit) (hfalse : ∀ q ∈ lits, -q ∈ s.trail) :
    ∃ b new m', s.pushReason al lits m = (b, m') ∧ Grown m m' new ∧ new ⊆ lits ∧
      (b = true → m'.stack = new.reverse ++ m.stack ∧ (∀ q ∈ new, s.reason q.var ≠ none) ∧
        ∀ q ∈ lits, s.level q.var = 0 ∨ m'.seen q.var = true) := by
  induction lits generalizing m with
  | nil => exact ⟨true, [], m, rfl, .refl m, List.Subset.refl _, fun _ => ⟨rfl, by simp, by simp⟩⟩
  | cons p ps ih =>
      obtain ⟨hp, hps⟩ := List.forall_mem_cons.mp hfalse
      rw [Assignment.pushReason]
      by_cases hnew : m.seen p.var = false ∧ 0 < s.level p.var
      · rw [if_pos hnew]
        by_cases hr : s.reason p.var ≠ none ∧ s.abstractLevel p.var &&& al ≠ 0
        · rw [if_pos hr]
          obtain ⟨b, new, m', hrun, hg, hsub, hpost⟩ := ih (m := ⟨Function.update m.seen p.var true,
            p :: m.stack, m.toclear ++ [p]⟩) hps
          refine ⟨b, p :: new, m', hrun, (Grown.push hnew.1 _).trans hg,
            List.cons_subset_cons _ hsub, fun hb => ?_⟩
          obtain ⟨hstack, hreason, hall⟩ := hpost hb
          refine ⟨by rw [hstack]; simp, List.forall_mem_cons.mpr ⟨hr.1, hreason⟩,
            List.forall_mem_cons.mpr ⟨Or.inr ?_, hall⟩⟩
          exact hg.mono (Function.update_self _ _ _)
        · rw [if_neg hr]
          exact ⟨false, [], m, rfl, .refl m, List.nil_subset _, fun hb => absurd hb (by decide)⟩
      · rw [if_neg hnew]
        obtain ⟨b, new, m', hrun, hg, hsub, hpost⟩ := ih (m := m) hps
        refine ⟨b, new, m', hrun, hg, List.subset_cons_of_subset _ hsub, fun hb => ?_⟩
        obtain ⟨hstack, hreason, hall⟩ := hpost hb
        refine ⟨hstack, hreason, List.forall_mem_cons.mpr ⟨?_, hall⟩⟩
        rcases Nat.eq_zero_or_pos (s.level p.var) with h0 | hpos
        · exact Or.inl h0
        · refine Or.inr (hg.mono ?_)
          cases hseen : m.seen p.var
          · exact absurd ⟨hseen, hpos⟩ hnew
          · rfl

/-- The variables that may still be marked. -/
def unmarked (nVars : ℕ) (seen : ℕ → Bool) : ℕ := (List.range nVars).countP fun x => !seen x

theorem Grown.unmarked_le {new : List Lit} {nVars : ℕ} (h : Grown m m' new)
    (hlt : ∀ q ∈ new, q.var < nVars) :
    unmarked nVars m'.seen + new.length ≤ unmarked nVars m.seen := by
  have hsub : (new.map Lit.var ++ (List.range nVars).filter fun x => !m'.seen x) ⊆
      (List.range nVars).filter fun x => !m.seen x := by
    intro x hx
    rw [List.mem_filter, List.mem_range]
    rcases List.mem_append.mp hx with hx | hx
    · obtain ⟨q, hq, rfl⟩ := List.mem_map.mp hx
      exact ⟨hlt q hq, by rw [h.fresh q hq]; rfl⟩
    · obtain ⟨hx, hs⟩ := List.mem_filter.mp hx
      refine ⟨List.mem_range.mp hx, ?_⟩
      cases hseen : m.seen x
      · rfl
      · rw [h.mono hseen] at hs
        exact absurd hs (by decide)
  have hall : (new.map Lit.var ++ (List.range nVars).filter fun x => !m'.seen x).Nodup := by
    refine List.nodup_append.mpr ⟨h.nodup, List.nodup_range.filter _, fun x hx y hy heq => ?_⟩
    obtain ⟨q, hq, rfl⟩ := List.mem_map.mp hx
    have hs := (List.mem_filter.mp hy).2
    rw [← heq, (h.seen q.var).mpr (Or.inr ⟨q, hq, rfl⟩)] at hs
    exact absurd hs (by decide)
  have hlen := (hall.subperm hsub).length_le
  rw [List.length_append, List.length_map] at hlen
  unfold unmarked
  rw [List.countP_eq_length_filter, List.countP_eq_length_filter, Nat.add_comm]
  exact hlen

/-- Following the reason of the literal on top of the stack. -/
theorem StackOk.step (al : ℕ) (hs : CoreOk N s) {stack : List Lit} {toclear : List Lit}
    {seen : ℕ → Bool}
    (h : StackOk s E ⟨seen, p :: stack, toclear⟩) :
    ∃ cr c b new m', s.reason p.var = some cr ∧ s.ca cr = some c ∧
      s.pushReason al (c.lits.drop 1) ⟨seen, stack, toclear⟩ = (b, m') ∧
      Grown ⟨seen, stack, toclear⟩ m' new ∧ (∀ q ∈ new, q.var < s.nVars) ∧
      (b = true → StackOk s E m' ∧ m'.stack.length = new.length + stack.length) := by
  have hp := h.trail p List.mem_cons_self
  obtain ⟨cr, hcr⟩ := Option.ne_none_iff_exists'.mp (h.reason p List.mem_cons_self)
  obtain ⟨c, rest, hc, hlits, hfalse⟩ := hs.reason.other_false hp (by rwa [Lit.var_neg])
  have hdrop : c.lits.drop 1 = rest := by rw [hlits, List.drop_succ_cons, List.drop_zero]
  obtain ⟨b, new, m', hrun, hg, hsub, hpost⟩ :=
    pushReason_spec (m := ⟨seen, stack, toclear⟩) al rest hfalse
  refine ⟨cr, c, b, new, m', hcr, hc.1, by rw [hdrop, hrun], hg, fun q hq => ?_, fun hb => ?_⟩
  · rw [← Lit.var_neg]
    exact hs.trail.lt _ (hfalse q (hsub hq))
  · obtain ⟨hstack, hreason, hall⟩ := hpost hb
    have hmem : ∀ q, q ∈ m'.stack ↔ q ∈ new ∨ q ∈ stack := by
      intro q
      rw [hstack, List.mem_append, List.mem_reverse]
    refine ⟨⟨fun x hx => ?_, fun q hq => ?_, fun q hq => ?_⟩, by rw [hstack]; simp⟩
    · rcases (hg.seen x).mp hx with hold | ⟨q, hq, hv⟩
      · obtain ⟨q, hv, hq, hcase⟩ := h.closed x hold
        refine ⟨q, hv, hq, ?_⟩
        rcases hcase with (hE | hstk) | hexp
        · exact Or.inl (Or.inl hE)
        · rcases List.mem_cons.mp hstk with rfl | hstk
          · exact Or.inr ⟨cr, c, hcr, hc.1, hdrop.symm ▸ hall⟩
          · exact Or.inl (Or.inr ((hmem q).mpr (Or.inr hstk)))
        · exact Or.inr (hexp.mono fun y hy => hg.mono hy)
      · exact ⟨q, hv, hfalse q (hsub hq), Or.inl (Or.inr ((hmem q).mpr (Or.inl hq)))⟩
    · rcases (hmem q).mp hq with hq | hq
      · exact hfalse q (hsub hq)
      · exact h.trail q (List.mem_cons_of_mem _ hq)
    · rcases (hmem q).mp hq with hq | hq
      · exact hreason q hq
      · exact h.reason q (List.mem_cons_of_mem _ hq)

theorem litRedundantLoop_spec (al : ℕ) (hs : CoreOk N s) {fuel : ℕ} (h : StackOk s E m)
    (hfuel : m.stack.length + unmarked s.nVars m.seen < fuel) :
    ∃ b m' new, s.litRedundantLoop al fuel m = some (b, m') ∧ Grown m m' new ∧
      (b = true → Closed s E m'.seen) := by
  induction fuel generalizing m with
  | zero => exact absurd hfuel (Nat.not_lt_zero _)
  | succ fuel ih =>
      obtain ⟨seen, stack, toclear⟩ := m
      cases stack with
      | nil =>
          refine ⟨true, _, [], rfl, .refl _, fun _ => ?_⟩
          exact h.closed.mono fun q hq => hq.resolve_right List.not_mem_nil
      | cons p stack =>
          obtain ⟨cr, c, b, new, m', hcr, hc, hrun, hg, hlt, hpost⟩ := h.step al hs
          simp only [Core.litRedundantLoop, hcr, hc, hrun, Option.bind_eq_bind, Option.bind_some]
          cases b with
          | false => exact ⟨false, m', new, rfl, ⟨hg.toclear, hg.fresh, hg.nodup, hg.seen⟩, by simp⟩
          | true =>
              obtain ⟨hok, hlen⟩ := hpost rfl
              have hle := hg.unmarked_le hlt
              obtain ⟨b, m'', new', hrun', hg', hclosed⟩ := ih hok (by
                simp only [List.length_cons] at hfuel hle
                omega)
              have hall := hg.trans hg'
              exact ⟨b, m'', new ++ new', hrun', ⟨hall.toclear, hall.fresh, hall.nodup, hall.seen⟩,
                hclosed⟩

theorem unmarked_le_nVars (nVars : ℕ) (seen : ℕ → Bool) : unmarked nVars seen ≤ nVars := by
  simpa [unmarked] using List.countP_le_length (p := fun x => !seen x) (l := List.range nVars)

/-- A literal is found to be redundant, and then the others still account for all marks, or all new
marks are gone. -/
theorem litRedundant_spec (al : ℕ) (hs : CoreOk N s) (h : Closed s (insert p E) m.seen)
    (hp : -p ∈ s.trail)
    (hr : s.reason p.var ≠ none) :
    ∃ b m' new, s.litRedundant p al m = some (b, m') ∧ Grown m m' new ∧
      Closed s (if b then E else insert p E) m'.seen := by
  have hok : StackOk s E { m with stack := [p] } := by
    refine ⟨h.mono fun q hq => ?_, fun q hq => ?_, fun q hq => ?_⟩
    · rcases hq with rfl | hq
      · exact Or.inr List.mem_cons_self
      · exact Or.inl hq
    · exact List.mem_singleton.mp hq ▸ hp
    · exact List.mem_singleton.mp hq ▸ hr
  have hle := unmarked_le_nVars s.nVars m.seen
  obtain ⟨b, m', new, hrun, hg, hclosed⟩ := @litRedundantLoop_spec _ _ _ _ al hs (s.nVars + 2)
    hok (by show 1 + unmarked s.nVars m.seen < _; omega)
  unfold Core.litRedundant
  simp only [hrun, Option.bind_eq_bind, Option.bind_some]
  cases b with
  | true => exact ⟨true, m', new, rfl, ⟨hg.toclear, hg.fresh, hg.nodup, hg.seen⟩, hclosed rfl⟩
  | false =>
      obtain ⟨hseen, htoclear⟩ := hg.unmark
      refine ⟨false, _, [], rfl, ⟨?_, by simp, by simp, fun x => ?_⟩, ?_⟩
      · exact htoclear.trans (List.append_nil _).symm
      · rw [← hseen]
        simp
      · show Closed s _ (List.foldl _ _ _)
        rw [hseen]
        exact h

/-- What is kept accounts for all marks. -/
theorem minimizeLoop_spec (al : ℕ) (hs : CoreOk N s) (out pre : List Lit)
    (h : Closed s {q | q ∈ pre ++ out} m.seen) (hfalse : ∀ q ∈ out, -q ∈ s.trail) :
    ∃ kept m' new, s.minimizeLoop al out m = some (kept, m') ∧ kept.Sublist out ∧ Grown m m' new ∧
      Closed s {q | q ∈ pre ++ kept} m'.seen := by
  induction out generalizing m pre with
  | nil => exact ⟨[], m, [], rfl, .slnil, .refl m, h⟩
  | cons q out ih =>
      obtain ⟨hq, hout⟩ := List.forall_mem_cons.mp hfalse
      have happend : ∀ l, pre ++ q :: l = pre ++ [q] ++ l := fun l => List.append_cons pre q l
      -- the literal is kept
      have hkeep : ∀ {m : Marks}, Closed s {r | r ∈ pre ++ q :: out} m.seen →
          ∃ kept m' new, s.minimizeLoop al out m = some (kept, m') ∧ kept.Sublist out ∧
            Grown m m' new ∧ Closed s {r | r ∈ pre ++ q :: kept} m'.seen := by
        intro m h
        rw [happend] at h
        obtain ⟨kept, m', new, hrun, hsub, hg, hclosed⟩ := ih _ h hout
        exact ⟨kept, m', new, hrun, hsub, hg, by rwa [happend]⟩
      rw [Core.minimizeLoop]
      cases hr : s.reason q.var with
      | none =>
          obtain ⟨kept, m', new, hrun, hsub, hg, hclosed⟩ := hkeep h
          exact ⟨q :: kept, m', new, by simp only [hrun, Option.map_some], hsub.cons_cons q,
            hg, hclosed⟩
      | some cr =>
          have hinsert : ∀ l, insert q {r | r ∈ pre ++ l} = {r | r ∈ pre ++ q :: l} := by
            intro l
            ext r
            simp [or_left_comm]
          have h' := h
          rw [← hinsert] at h'
          obtain ⟨b, m', new, hrun, hg, hclosed⟩ := litRedundant_spec al hs h' hq (by simp [hr])
          simp only [hrun, Option.bind_eq_bind, Option.bind_some]
          cases b with
          | true =>
              obtain ⟨kept, m'', new', hrun', hsub, hg', hclosed'⟩ := ih pre hclosed hout
              exact ⟨kept, m'', new ++ new', by simp only [hrun', Option.bind_some, if_true]; rfl,
                hsub.cons q, hg.trans hg', hclosed'⟩
          | false =>
              rw [if_neg Bool.false_ne_true, hinsert] at hclosed
              obtain ⟨kept, m'', new', hrun', hsub, hg', hclosed'⟩ := hkeep hclosed
              exact ⟨q :: kept, m'', new ++ new', by simp only [hrun', Option.bind_some]; rfl,
                hsub.cons_cons q, hg.trans hg', hclosed'⟩

end

end ExtFolding.Minisat
