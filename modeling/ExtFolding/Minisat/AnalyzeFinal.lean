import ExtFolding.Minisat.Redundant

/-!
# `memin/minisat/core/Solver.cpp`: the final conflict

When an assumption is false, `analyzeFinal` goes back along the trail to the decisions it depends
on. The clause it writes follows from the problem, and its literals are complements of decisions.
-/

namespace ExtFolding.Minisat

open Cdcl LBool

/-! ## The code -/

namespace Core

/-- One round of the loop, for the literal `t` on the trail. -/
def analyzeFinalLit (s : Core) (r : (ℕ → Bool) × List Lit) (t : Lit) :
    Option ((ℕ → Bool) × List Lit) :=
  if r.1 t.var then
    match s.reason t.var with
    | none =>
        if 0 < s.level t.var then some (Function.update r.1 t.var false, r.2 ++ [-t]) else none
    | some cr => do
        let c ← s.ca cr
        let seen := (c.lits.drop 1).foldl
          (fun f q => if 0 < s.level q.var then Function.update f q.var true else f) r.1
        return (Function.update seen t.var false, r.2)
  else some r

/-- `analyzeFinal(p, out_conflict)`, with the marks that are left. -/
def analyzeFinal (s : Core) (seen : ℕ → Bool) (p : Lit) : Option ((ℕ → Bool) × List Lit) :=
  if s.decisionLevel = 0 then some (seen, [p])
  else do
    let r ← (s.trail.drop (s.trail_lim.getD 0 0)).reverse.foldlM s.analyzeFinalLit
      (Function.update seen p.var true, [p])
    return (Function.update r.1 p.var false, r.2)

end Core

/-! ## What is left of the trail -/

/-- The clause so far: what has been put out, and what is marked below `n`. -/
def remaining (s : Core) (n : ℕ) (r : (ℕ → Bool) × List Lit) : Set Lit :=
  {q | q ∈ r.2 ∨ r.1 q.var = true ∧ -q ∈ s.trail.take n}

/-- Apart from `p`, what is marked is still to come and not of level 0. -/
structure FinalOk (N : Set (List Lit)) (s : Core) (p : Lit) (n : ℕ) (r : (ℕ → Bool) × List Lit) :
    Prop where
  follows : Follows N (remaining s n r)
  of_seen : ∀ x, r.1 x = true → x = p.var ∨ 0 < s.level x ∧ ∃ t ∈ s.trail.take n, t.var = x
  mem : p ∈ r.2
  decisions : ∀ q ∈ r.2, q = p ∨ -q ∈ s.trail ∧ s.reason q.var = none ∧ 0 < s.level q.var

section

variable {N : Set (List Lit)} {s : Core} {n : ℕ} {r : (ℕ → Bool) × List Lit} {p q t : Lit}

theorem foldl_mark (s : Core) (l : List Lit) (f : ℕ → Bool) (x : ℕ) :
    l.foldl (fun f q => if 0 < s.level q.var then Function.update f q.var true else f) f x = true ↔
      f x = true ∨ 0 < s.level x ∧ ∃ q ∈ l, q.var = x := by
  induction l generalizing f with
  | nil => simp
  | cons q l ih =>
      rw [List.foldl_cons, ih, List.exists_mem_cons_iff]
      by_cases hq : 0 < s.level q.var
      · rw [if_pos hq, Function.update_apply]
        by_cases hx : x = q.var
        · subst hx
          simp [hq]
        · simp [hx, Ne.symm hx]
      · rw [if_neg hq]
        have hx : q.var = x → ¬ 0 < s.level x := fun heq => heq ▸ hq
        tauto

theorem mem_take_succ (hn : s.trail[n]? = some t) :
    q ∈ s.trail.take (n + 1) ↔ q ∈ s.trail.take n ∨ q = t := by
  rw [List.take_add_one, hn, List.mem_append]
  simp

theorem FinalOk.step (h : FinalOk N s p (n + 1) r) (hs : CoreOk N s) (hn : s.trail[n]? = some t)
    (ht : 0 < s.level t.var) : ∃ r', s.analyzeFinalLit r t = some r' ∧ FinalOk N s p n r' := by
  have hmem : t ∈ s.trail := List.mem_of_getElem? hn
  have htake : ∀ q, q ∈ s.trail.take (n + 1) ↔ q ∈ s.trail.take n ∨ q = t := fun q =>
    mem_take_succ hn
  -- a variable occurs once
  have hbefore : ∀ q, q ∈ s.trail.take n → q.var ≠ t.var := by
    intro q hq heq
    obtain ⟨j, hj⟩ := List.mem_iff_getElem?.mp hq
    rw [List.getElem?_take] at hj
    split at hj
    · next hjn =>
        have h₁ := (List.nodup_iff_getElem?_ne_getElem?.mp hs.trail.nodup) j n hjn
          (by rw [List.length_map]; exact (List.getElem?_eq_some_iff.mp hn).1)
        rw [List.getElem?_map, List.getElem?_map, hj, hn] at h₁
        exact h₁ (congrArg some heq)
    · cases hj
  unfold Core.analyzeFinalLit
  by_cases hseen : r.1 t.var = true
  · rw [if_pos hseen]
    -- the marks that stay
    have hkeep : ∀ {f : ℕ → Bool} {x}, Function.update f t.var false x = true ↔
        x ≠ t.var ∧ f x = true := by
      intro f x
      rw [Function.update_apply]
      by_cases hx : x = t.var <;> simp [hx]
    have hsub : remaining s (n + 1) r ⊆
        insert (-t) (remaining s n (Function.update r.1 t.var false, r.2)) := by
      rintro q (hq | ⟨hq, htr⟩)
      · exact Set.mem_insert_of_mem _ (Or.inl hq)
      · rcases (htake _).mp htr with htr | heq
        · refine Set.mem_insert_of_mem _ (Or.inr ⟨hkeep.mpr ⟨?_, hq⟩, htr⟩)
          rw [← Lit.var_neg q]
          exact hbefore _ htr
        · exact Or.inl (neg_eq_iff_eq_neg.mp heq)
    cases hr : s.reason t.var with
    | none =>
        refine ⟨_, if_pos ht, ?_, fun x hx => ?_, List.mem_append_left _ h.mem, fun q hq => ?_⟩
        · refine h.follows.mono fun q hq => ?_
          rcases hsub hq with rfl | hq
          · exact Or.inl (by simp)
          · exact hq.imp_left (List.mem_append_left _)
        · obtain ⟨hne, hx⟩ := hkeep.mp hx
          refine (h.of_seen x hx).imp_right fun ⟨hl, q, hq, hv⟩ => ⟨hl, q, ?_, hv⟩
          refine ((htake q).mp hq).resolve_right ?_
          rintro rfl
          exact hne hv.symm
        · rcases List.mem_append.mp hq with hq | hq
          · exact h.decisions q hq
          · rw [List.mem_singleton.mp hq, neg_neg, Lit.var_neg]
            exact Or.inr ⟨hmem, hr, ht⟩
    | some cr =>
        obtain ⟨c, rest, hc, hlits, hrest⟩ := hs.reason.clause hn hr
        simp only [hc.1, hlits, List.drop_succ_cons, List.drop_zero, Option.bind_eq_bind,
          Option.bind_some]
        refine ⟨_, rfl, ?_, fun x hx => ?_, h.mem, h.decisions⟩
        · refine Follows.replace (follows_iff.mpr (hs.implied cr c hc)) fun q hq => ?_
          change q ∈ c.lits at hq
          rw [hlits] at hq
          rcases List.mem_cons.mp hq with rfl | hq
          · refine Or.inr (h.follows.mono (hsub.trans (Set.insert_subset_insert fun q' hq' => ?_)))
            refine hq'.imp_right fun ⟨hs', htr⟩ => ⟨hkeep.mpr ⟨(hkeep.mp hs').1, ?_⟩, htr⟩
            exact (foldl_mark s _ _ _).mpr (Or.inl (hkeep.mp hs').2)
          · have hqt := hrest q hq
            rcases Nat.eq_zero_or_pos (s.level q.var) with h0 | hpos
            · exact Or.inr (hs.root (List.mem_of_mem_take hqt) h0)
            · refine Or.inl (Or.inr ⟨hkeep.mpr ⟨?_, ?_⟩, hqt⟩)
              · rw [← Lit.var_neg q]
                exact hbefore _ hqt
              · exact (foldl_mark s _ _ _).mpr (Or.inr ⟨hpos, q, hq, rfl⟩)
        · obtain ⟨hne, hx⟩ := hkeep.mp hx
          rcases (foldl_mark s _ _ _).mp hx with hx | ⟨hl, q, hq, hv⟩
          · refine (h.of_seen x hx).imp_right fun ⟨hl, q, hq, hv⟩ => ⟨hl, q, ?_, hv⟩
            refine ((htake q).mp hq).resolve_right ?_
            rintro rfl
            exact hne hv.symm
          · exact Or.inr ⟨hl, -q, hrest q hq, by rwa [Lit.var_neg]⟩
  · rw [if_neg hseen]
    refine ⟨r, rfl, h.follows.mono fun q hq => ?_, fun x hx => ?_, h.mem, h.decisions⟩
    · refine hq.imp_right fun ⟨hs', htr⟩ =>
        ⟨hs', ((htake _).mp htr).resolve_right fun heq => hseen ?_⟩
      rwa [← heq, Lit.var_neg]
    · refine (h.of_seen x hx).imp_right fun ⟨hl, q, hq, hv⟩ => ⟨hl, q, ?_, hv⟩
      refine ((htake q).mp hq).resolve_right ?_
      rintro rfl
      exact hseen (hv ▸ hx)

/-- The loop from the end of the trail down to the first decision. -/
theorem FinalOk.run (hs : CoreOk N s) {k : ℕ}
    (hk : ∀ i t, k ≤ i → s.trail[i]? = some t → 0 < s.level t.var) (hkn : k ≤ n)
    (hn : n ≤ s.trail.length) (h : FinalOk N s p n r) :
    ∃ r', ((s.trail.take n).drop k).reverse.foldlM s.analyzeFinalLit r = some r' ∧
      FinalOk N s p k r' := by
  induction n, hkn using Nat.le_induction generalizing r with
  | base =>
      have hnil : (s.trail.take k).drop k = [] := List.drop_eq_nil_of_le (List.length_take_le _ _)
      exact ⟨r, by rw [hnil]; rfl, h⟩
  | succ n hkn ih =>
      have hget : s.trail[n]? = some s.trail[n] := List.getElem?_eq_getElem hn
      obtain ⟨r', hrun, hok⟩ := h.step hs hget (hk n _ hkn hget)
      obtain ⟨r'', hrun', hok'⟩ := ih (Nat.le_of_succ_le hn) hok
      refine ⟨r'', ?_, hok'⟩
      have hlen : k ≤ (s.trail.take n).length := by
        rw [List.length_take]
        exact le_min hkn (hkn.trans (Nat.le_of_succ_le hn))
      rw [List.take_add_one, hget, List.drop_append_of_le_length hlen]
      simp only [Option.toList_some, List.reverse_append, List.reverse_singleton,
        List.singleton_append,
        List.foldlM_cons, hrun, Option.bind_eq_bind, Option.bind_some]
      exact hrun'

/-- The final conflict follows; apart from `p` its literals are complements of decisions. The marks
are gone. -/
theorem analyzeFinal_spec (hs : CoreOk N s) {seen : ℕ → Bool} (hseen : ∀ x, seen x = false)
    (hp : p ∈ s.trail) :
    ∃ out, s.analyzeFinal seen p = some (seen, out) ∧ Entails N out ∧ p ∈ out ∧
      ∀ q ∈ out, q = p ∨ -q ∈ s.trail ∧ s.reason q.var = none ∧ 0 < s.level q.var := by
  unfold Core.analyzeFinal
  by_cases h0 : s.decisionLevel = 0
  · rw [if_pos h0]
    have hlev : s.level p.var = 0 := Nat.le_zero.mp (h0 ▸ hs.trail.level_le hp)
    exact ⟨[p], rfl, hs.search.root (p, 0) (TrailOk.mem_abs.mpr ⟨hp, hlev⟩) rfl, by simp, by simp⟩
  · rw [if_neg h0]
    have hpos : 0 < s.decisionLevel := Nat.pos_of_ne_zero h0
    have hlim := hs.trail.lim_getD_le hpos
    have hhigh : ∀ i t, s.trail_lim.getD 0 0 ≤ i → s.trail[i]? = some t → 0 < s.level t.var := by
      intro i t hi ht
      by_contra hle
      have := (hs.trail.lt_lim_iff hpos ht).mpr (Nat.le_of_not_lt hle)
      omega
    have hstart : FinalOk N s p s.trail.length (Function.update seen p.var true, [p]) := by
      refine ⟨fun v _ => ?_, fun x hx => ?_, by simp, by simp⟩
      · by_cases hv : v.holds p
        · exact ⟨p, Or.inl (by simp), hv⟩
        · exact ⟨-p, Or.inr ⟨by simp, by simpa using hp⟩, (v.neg p).mpr hv⟩
      · change Function.update seen p.var true x = true at hx
        rw [Function.update_apply, hseen x] at hx
        split at hx
        · next heq => exact Or.inl heq
        · cases hx
    obtain ⟨⟨f, out⟩, hrun, hok⟩ := FinalOk.run hs hhigh hlim le_rfl hstart
    rw [List.take_length] at hrun
    simp only [hrun, Option.bind_eq_bind, Option.bind_some]
    have hlow : ∀ q, q ∈ s.trail.take (s.trail_lim.getD 0 0) → s.level q.var = 0 := by
      intro q hq
      obtain ⟨j, hj⟩ := List.mem_iff_getElem?.mp hq
      rw [List.getElem?_take] at hj
      split at hj
      · next hlt => exact Nat.le_zero.mp ((hs.trail.lt_lim_iff hpos hj).mp hlt)
      · cases hj
    refine ⟨out, ?_, ?_, hok.mem, hok.decisions⟩
    · refine congrArg some (Prod.ext (funext fun x => ?_) rfl)
      show Function.update f p.var false x = seen x
      rw [hseen x, Function.update_apply]
      split
      · rfl
      · next hne =>
          cases hx : f x
          · rfl
          · rcases hok.of_seen x hx with heq | ⟨hl, q, hq, hv⟩
            · exact absurd heq hne
            · rw [← hv, hlow q hq] at hl
              exact absurd hl (Nat.lt_irrefl 0)
    · refine follows_iff.mp (hok.follows.replace fun q hq => ?_)
      refine hq.imp_right fun ⟨_, htr⟩ => hs.root (List.mem_of_mem_take htr) ?_
      rw [← Lit.var_neg]
      exact hlow _ htr

end

end ExtFolding.Minisat
