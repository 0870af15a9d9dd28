import ExtFolding.Minisat.Redundant
import ExtFolding.Minisat.Solver
import ExtFolding.Minisat.Sort

/-!
# `memin/minisat/core/Solver.cpp`: conflict analysis

`analyze` resolves the clause that is false with the reasons of its literals, from the end of the
trail, until one literal of the current level is left. The clause it learns follows from the
problem, and after the jump to the level it names, the clause is unit.
-/

namespace ExtFolding.Minisat

open Cdcl LBool

/-! ## The code -/

namespace Solver

variable {F : Type} [Double F] (s : Solver F)

def mark (x : ℕ) (b : Bool) : Solver F := { s with seen := Function.update s.seen x b }

/-- One literal of the clause that is resolved with. -/
def analyzeLit (pathC : ℕ) (out_learnt : List Lit) (q : Lit) : Solver F × ℕ × List Lit :=
  if s.seen q.var = false ∧ 0 < s.level q.var then
    let s' := (s.varBumpActivity q.var).mark q.var true
    if s.decisionLevel ≤ s.level q.var then (s', pathC + 1, out_learnt)
    else (s', pathC, out_learnt ++ [q])
  else (s, pathC, out_learnt)

def analyzeLits (r : Solver F × ℕ × List Lit) (lits : List Lit) : Solver F × ℕ × List Lit :=
  lits.foldl (fun r q => r.1.analyzeLit r.2.1 r.2.2 q) r

/-- `while (!seen[var(trail[index--])]);` with `index` one above its value in the source. -/
def selectNext : ℕ → Option (Lit × ℕ)
  | 0 => none
  | index + 1 =>
      match s.trail[index]? with
      | none => none
      | some p => if s.seen p.var then some (p, index) else selectNext index

/-- `if (c.learnt()) claBumpActivity(c);` -/
def bumpLearnt (cr : ℕ) (c : Clause) : Solver F := if c.learnt then s.claBumpActivity cr else s

/-- `do … while (pathC > 0)`; the result is `p` and `out_learnt` behind its first place. -/
def analyzeLoop : ℕ → Solver F → Option ℕ → Option Lit → ℕ → ℕ → List Lit →
    Option (Solver F × Lit × List Lit)
  | 0, _, _, _, _, _, _ => none
  | fuel + 1, s, confl, p, index, pathC, out_learnt => do
      let cr ← confl
      let c ← s.ca cr
      let r := analyzeLits (s.bumpLearnt cr c, pathC, out_learnt)
        (if p = none then c.lits else c.lits.drop 1)
      let next ← r.1.selectNext index
      let s' := r.1.mark next.1.var false
      if 0 < r.2.1 - 1 then
        analyzeLoop fuel s' (s'.reason next.1.var) (some next.1) next.2 (r.2.1 - 1) r.2.2
      else some (s', next.1, r.2.2)

end Solver

/-- The literal of the highest level comes to the second place; its level. -/
def Assignment.backtrackLevel (s : Assignment) (out_learnt : List Lit) : List Lit × ℕ :=
  if out_learnt.length = 1 then (out_learnt, 0)
  else
    let max_i := bestIndex (fun p q => decide (s.level q.var < s.level p.var)) out_learnt 1
    (swap out_learnt 1 max_i, s.level (out_learnt.getD max_i default).var)

/-- `analyze(confl, out_learnt, out_btlevel)` -/
def Solver.analyze {F : Type} [Double F] (s : Solver F) (confl : ℕ) :
    Option (Solver F × List Lit × ℕ) := do
  let r ← Solver.analyzeLoop (s.trail.length + 1) s (some confl) none s.trail.length 0 []
  let p := r.2.1
  let abstract_level := r.2.2.foldl (fun a q => a ||| s.abstractLevel q.var) 0
  let min ← r.1.minimizeLoop abstract_level r.2.2 ⟨r.1.seen, [], -p :: r.2.2⟩
  let out := s.backtrackLevel (-p :: min.1)
  return ({ r.1 with
    seen := min.2.toclear.foldl (fun f q => Function.update f q.var false) min.2.seen },
      out.1, out.2)

/-! ## What has been seen -/

/-- A literal of the current level that is still to be resolved. -/
def Pending (s : Core) (seen : ℕ → Bool) (n : ℕ) (q : Lit) : Prop :=
  seen q.var = true ∧ s.level q.var = s.decisionLevel ∧ -q ∈ s.trail.take n

/-- The clause so far: what has been put out, and what is still to be resolved. -/
def resolvent (s : Core) (seen : ℕ → Bool) (n : ℕ) (out : List Lit) : Set Lit :=
  {q | q ∈ out ∨ Pending s seen n q}

/-- What is marked is a literal of the resolvent. -/
structure Resolving (s : Core) (seen : ℕ → Bool) (n pathC : ℕ) (out : List Lit) : Prop where
  of_seen : ∀ x, seen x = true →
    (∃ q ∈ out, q.var = x) ∨ (∃ t ∈ s.trail.take n, t.var = x) ∧ s.level x = s.decisionLevel
  out_seen : ∀ q ∈ out, seen q.var = true
  out_false : ∀ q ∈ out, -q ∈ s.trail
  out_level : ∀ q ∈ out, 0 < s.level q.var ∧ s.level q.var < s.decisionLevel
  nodup : (out.map Lit.var).Nodup
  count : pathC = (s.trail.take n).countP fun t =>
    seen t.var && decide (s.level t.var = s.decisionLevel)

section

variable {N : Set (List Lit)} {s : Core} {seen : ℕ → Bool} {n pathC : ℕ} {out : List Lit}
  {p q : Lit}

theorem countP_mark {l : List Lit} (hl : (l.map Lit.var).Nodup) {f : ℕ → Bool} {k : ℕ → Bool}
    {t : Lit} (ht : t ∈ l) (hf : f t.var = false) (hk : k t.var = true) :
    l.countP (fun t' => Function.update f t.var true t'.var && k t'.var) =
      l.countP (fun t' => f t'.var && k t'.var) + 1 := by
  induction l with
  | nil => cases ht
  | cons a l ih =>
      rw [List.map_cons, List.nodup_cons] at hl
      rw [List.countP_cons, List.countP_cons]
      rcases List.mem_cons.mp ht with rfl | ht
      · have hsame : l.countP (fun t' => Function.update f t.var true t'.var && k t'.var) =
            l.countP (fun t' => f t'.var && k t'.var) := by
          refine List.countP_congr fun t' ht' => ?_
          rw [Function.update_of_ne]
          rintro heq
          exact hl.1 (heq ▸ List.mem_map_of_mem ht')
        rw [hsame]
        simp [hf, hk]
      · have hne : a.var ≠ t.var := by
          intro heq
          exact hl.1 (heq ▸ List.mem_map_of_mem ht)
        rw [ih hl.2 ht, Function.update_of_ne hne]
        omega

namespace Resolving

theorem take_nodup (hs : CoreOk N s) (n : ℕ) : ((s.trail.take n).map Lit.var).Nodup :=
  hs.trail.nodup.sublist ((List.take_sublist n _).map _)

/-- `seen[var(q)] = 1; pathC++;` or `out_learnt.push(q);` -/
theorem mark (h : Resolving s seen n pathC out) (hs : CoreOk N s) (hq : -q ∈ s.trail.take n)
    (hnew : seen q.var = false) (hlev : 0 < s.level q.var) :
    if s.decisionLevel ≤ s.level q.var then
      Resolving s (Function.update seen q.var true) n (pathC + 1) out
    else Resolving s (Function.update seen q.var true) n pathC (out ++ [q]) := by
  have htrail : -q ∈ s.trail := List.mem_of_mem_take hq
  have hle : s.level q.var ≤ s.decisionLevel := by
    rw [← Lit.var_neg]
    exact hs.trail.level_le htrail
  have hseen : ∀ {x}, Function.update seen q.var true x = true ↔ x = q.var ∨ seen x = true := by
    intro x
    rw [Function.update_apply]
    by_cases hx : x = q.var <;> simp [hx]
  have hout : ∀ r ∈ out, Function.update seen q.var true r.var = true := fun r hr =>
    hseen.mpr (Or.inr (h.out_seen r hr))
  have hfresh : ∀ r ∈ out, r.var ≠ q.var := by
    intro r hr heq
    rw [← heq, h.out_seen r hr] at hnew
    cases hnew
  split
  · next hk =>
      have hlevel : s.level q.var = s.decisionLevel := Nat.le_antisymm hle hk
      refine ⟨fun x hx => ?_, hout, h.out_false, h.out_level, h.nodup, ?_⟩
      · rcases hseen.mp hx with rfl | hx
        · exact Or.inr ⟨⟨-q, hq, Lit.var_neg q⟩, hlevel⟩
        · exact h.of_seen x hx
      · rw [h.count]
        have := countP_mark (take_nodup hs n) (f := seen)
          (k := fun x => decide (s.level x = s.decisionLevel)) hq (by rwa [Lit.var_neg])
          (by rw [Lit.var_neg]; exact decide_eq_true hlevel)
        rw [Lit.var_neg] at this
        exact this.symm
  · next hk =>
      have hk' : s.level q.var < s.decisionLevel := Nat.lt_of_not_le hk
      refine ⟨fun x hx => ?_, fun r hr => ?_, fun r hr => ?_, fun r hr => ?_, ?_, ?_⟩
      · rcases hseen.mp hx with rfl | hx
        · exact Or.inl ⟨q, by simp, rfl⟩
        · exact (h.of_seen x hx).imp_left fun ⟨r, hr, hv⟩ => ⟨r, List.mem_append_left _ hr, hv⟩
      · rcases List.mem_append.mp hr with hr | hr
        · exact hout r hr
        · rw [List.mem_singleton.mp hr]
          exact hseen.mpr (Or.inl rfl)
      · rcases List.mem_append.mp hr with hr | hr
        · exact h.out_false r hr
        · exact List.mem_singleton.mp hr ▸ htrail
      · rcases List.mem_append.mp hr with hr | hr
        · exact h.out_level r hr
        · exact List.mem_singleton.mp hr ▸ ⟨hlev, hk'⟩
      · rw [List.map_append, List.nodup_append]
        refine ⟨h.nodup, List.nodup_singleton _, fun x hx y hy heq => ?_⟩
        obtain ⟨r, hr, rfl⟩ := List.mem_map.mp hx
        rw [List.map_singleton, List.mem_singleton] at hy
        exact hfresh r hr (heq.trans hy)
      · rw [h.count]
        refine List.countP_congr fun t ht => ?_
        rcases eq_or_ne t.var q.var with hv | hv
        · rw [hv, Function.update_self, hnew]
          simp [hk'.ne]
        · rw [Function.update_of_ne hv]

/-- A literal that has been seen is in the resolvent. -/
theorem mem_resolvent (h : Resolving s seen n pathC out) (hs : CoreOk N s)
    (hq : -q ∈ s.trail.take n) (hseen : seen q.var = true) : q ∈ resolvent s seen n out := by
  rcases h.of_seen q.var hseen with ⟨r, hr, hv⟩ | ⟨-, hlev⟩
  · refine Or.inl ?_
    have : r = q := neg_injective (hs.trail.eq_of_var (h.out_false r hr) (List.mem_of_mem_take hq)
      (by rw [Lit.var_neg, Lit.var_neg, hv]))
    exact this ▸ hr
  · exact Or.inr ⟨hseen, hlev, hq⟩

/-- `seen[var(p)] = 0; pathC--;` for the next literal to be resolved. -/
theorem next (h : Resolving s seen n pathC out) (hs : CoreOk N s) {m : ℕ}
    (hm : s.trail[m]? = some p)
    (hmn : m < n) (hp : seen p.var = true)
    (hafter : ∀ j t, m < j → j < n → s.trail[j]? = some t → seen t.var = false) (hpos : 0 < pathC) :
    s.level p.var = s.decisionLevel ∧
      Resolving s (Function.update seen p.var false) m (pathC - 1) out ∧
      resolvent s seen n out ⊆
        insert (-p) (resolvent s (Function.update seen p.var false) m out) := by
  have hmem : p ∈ s.trail := List.mem_of_getElem? hm
  have htake : ∀ {t}, t ∈ s.trail.take n → seen t.var = true → t ∈ s.trail.take m ∨ t = p := by
    intro t ht hseen
    obtain ⟨j, hj⟩ := List.mem_iff_getElem?.mp ht
    rw [List.getElem?_take] at hj
    split at hj
    · next hjn =>
        rcases Nat.lt_trichotomy j m with hjm | rfl | hjm
        · exact Or.inl (List.mem_of_getElem? (i := j) (by rwa [List.getElem?_take, if_pos hjm]))
        · exact Or.inr (Option.some.inj (hj.symm.trans hm))
        · exact absurd (hafter j t hjm hjn hj) (by simp [hseen])
    · cases hj
  -- a literal of the current level is marked, and `p` is not before it
  have hlevel : s.level p.var = s.decisionLevel := by
    rw [h.count, List.countP_pos_iff] at hpos
    obtain ⟨t, ht, hcond⟩ := hpos
    rw [Bool.and_eq_true, decide_eq_true_eq] at hcond
    rcases htake ht hcond.1 with ht | rfl
    · obtain ⟨j, hj⟩ := List.mem_iff_getElem?.mp ht
      rw [List.getElem?_take] at hj
      split at hj
      · next hjm =>
          refine Nat.le_antisymm (hs.trail.level_le hmem) ?_
          rw [← hcond.2]
          exact hs.trail.level_mono hj hm hjm.le
      · cases hj
    · exact hcond.2
  have hseen' : ∀ {x}, Function.update seen p.var false x = true ↔ x ≠ p.var ∧ seen x = true := by
    intro x
    rw [Function.update_apply]
    by_cases hx : x = p.var <;> simp [hx]
  have hout : ∀ q ∈ out, q.var ≠ p.var := by
    intro q hq heq
    have := (h.out_level q hq).2
    rw [heq, hlevel] at this
    exact Nat.lt_irrefl _ this
  refine ⟨hlevel, ⟨fun x hx => ?_, fun q hq => ?_, h.out_false, h.out_level, h.nodup, ?_⟩, ?_⟩
  · obtain ⟨hne, hx⟩ := hseen'.mp hx
    refine (h.of_seen x hx).imp_right fun ⟨⟨t, ht, hv⟩, hlev⟩ => ⟨⟨t, ?_, hv⟩, hlev⟩
    refine (htake ht (hv ▸ hx)).resolve_right ?_
    rintro rfl
    exact hne hv.symm
  · exact hseen'.mpr ⟨hout q hq, h.out_seen q hq⟩
  · have hsplit : s.trail.take n = s.trail.take m ++ p :: (s.trail.take n).drop (m + 1) := by
      have hlt : m < (s.trail.take n).length := by
        rw [List.length_take]
        exact lt_min hmn (List.getElem?_eq_some_iff.mp hm).1
      have hget : (s.trail.take n)[m] = p := by
        rw [List.getElem_take]
        exact (List.getElem?_eq_some_iff.mp hm).2
      conv_lhs => rw [← List.take_append_drop m (s.trail.take n),
        List.drop_eq_getElem_cons hlt, hget]
      rw [List.take_take, min_eq_left hmn.le]
    have hdrop : ((s.trail.take n).drop (m + 1)).countP
        (fun t => seen t.var && decide (s.level t.var = s.decisionLevel)) = 0 := by
      rw [List.countP_eq_zero]
      intro t ht
      obtain ⟨j, hj⟩ := List.mem_iff_getElem?.mp ht
      rw [List.getElem?_drop, List.getElem?_take] at hj
      split at hj
      · next hjn => simp [hafter (m + 1 + j) t (by omega) hjn hj]
      · cases hj
    have hnodup := take_nodup hs n
    rw [hsplit, List.map_append, List.nodup_append] at hnodup
    have hcount := h.count
    rw [hsplit, List.countP_append, List.countP_cons, hdrop] at hcount
    have hp' : (seen p.var && decide (s.level p.var = s.decisionLevel)) = true := by
      simp [hp, hlevel]
    rw [if_pos hp', Nat.zero_add] at hcount
    rw [hcount, Nat.add_sub_cancel]
    refine List.countP_congr fun t ht => ?_
    rw [Function.update_of_ne]
    exact hnodup.2.2 _ (List.mem_map_of_mem ht) _ (List.mem_map_of_mem List.mem_cons_self)
  · rintro q (hq | ⟨hq, hlev, htr⟩)
    · exact Set.mem_insert_of_mem _ (Or.inl hq)
    · rcases htake htr (by rwa [Lit.var_neg]) with htm | heq
      · refine Set.mem_insert_of_mem _ (Or.inr ⟨hseen'.mpr ⟨fun hv => ?_, hq⟩, hlev, htm⟩)
        have hne := hs.trail.eq_of_var (List.mem_of_mem_take htr) hmem (by rw [Lit.var_neg, hv])
        obtain ⟨j, hj⟩ := List.mem_iff_getElem?.mp htm
        rw [List.getElem?_take, hne] at hj
        split at hj
        · next hjm =>
            have h₁ := (List.nodup_iff_getElem?_ne_getElem?.mp hs.trail.nodup) j m hjm
              (by rw [List.length_map]; exact (List.getElem?_eq_some_iff.mp hm).1)
            rw [List.getElem?_map, List.getElem?_map, hj, hm] at h₁
            exact h₁ rfl
        · cases hj
      · exact Or.inl (neg_eq_iff_eq_neg.mp heq)

end Resolving

end

/-! ## The loop -/

/-- The heuristics and the marks have changed. -/
def Scanned {F : Type} [Double F] (s s' : Solver F) : Prop := Tuned { s with seen := s'.seen } s'

section

variable {F : Type} [Double F] {N : Set (List Lit)} {s s' s'' : Solver F} {n pathC : ℕ}
  {out lits : List Lit} {p q : Lit}

theorem Tuned.withSeen (h : Tuned s s') (f : ℕ → Bool) :
    Tuned { s with seen := f } { s' with seen := f } := by
  obtain ⟨a, i, ca, ci, o, rfl, hsame⟩ := h
  refine ⟨a, i, ca, ci, o, rfl, fun ho => ?_⟩
  have ho' := hsame (ho.congr rfl rfl rfl rfl rfl rfl)
  exact ho'.congr rfl rfl rfl rfl rfl rfl

theorem Tuned.toCore (h : Tuned s s') : s'.toCore = s.toCore := by
  obtain ⟨a, i, ca, ci, o, rfl, -⟩ := h
  rfl

theorem Tuned.seen (h : Tuned s s') : s'.seen = s.seen := by
  obtain ⟨a, i, ca, ci, o, rfl, -⟩ := h
  rfl

theorem Scanned.refl (s : Solver F) : Scanned s s := Tuned.refl s

theorem Scanned.trans (h : Scanned s s') (h' : Scanned s' s'') : Scanned s s'' :=
  (h.withSeen s''.seen).trans h'

theorem Scanned.toCore (h : Scanned s s') : s'.toCore = s.toCore :=
  @Tuned.toCore F _ { s with seen := s'.seen } s' h

theorem Scanned.mark (x : ℕ) (b : Bool) : Scanned s (s.mark x b) := Tuned.refl _

theorem Tuned.scanned (h : Tuned s s') : Scanned s s' := by
  have h' := h.withSeen s.seen
  rw [← h.seen] at h'
  exact h'

variable [LawfulDouble F]

theorem analyzeLit_spec (hs : CoreOk N s.toCore) (h : Resolving s.toCore s.seen n pathC out)
    (hq : -q ∈ s.trail.take n) :
    ∃ s' pathC' out', s.analyzeLit pathC out q = (s', pathC', out') ∧ Scanned s s' ∧
      Resolving s.toCore s'.seen n pathC' out' ∧ pathC ≤ pathC' ∧
      (s.level q.var = 0 ∨ s'.seen q.var = true) ∧ ∀ x, s.seen x = true → s'.seen x = true := by
  unfold Solver.analyzeLit
  by_cases hnew : s.seen q.var = false ∧ 0 < s.level q.var
  · rw [if_pos hnew]
    have htuned : Tuned s (s.varBumpActivity q.var) := varBumpActivity_tuned
    have hscan : Scanned s ((s.varBumpActivity q.var).mark q.var true) :=
      htuned.scanned.trans (Scanned.mark _ _)
    have hseen : ((s.varBumpActivity q.var).mark q.var true).seen =
        Function.update s.seen q.var true := by
      show Function.update (s.varBumpActivity q.var).seen q.var true = _
      rw [htuned.seen]
    have hmark := h.mark hs hq hnew.1 hnew.2
    rw [← hseen] at hmark
    have hself : ((s.varBumpActivity q.var).mark q.var true).seen q.var = true := by
      rw [hseen, Function.update_self]
    have hmono : ∀ x, s.seen x = true →
      ((s.varBumpActivity q.var).mark q.var true).seen x = true := by
      intro x hx
      rw [hseen, Function.update_apply]
      split
      · rfl
      · exact hx
    by_cases hk : s.decisionLevel ≤ s.level q.var
    · rw [if_pos hk] at hmark ⊢
      exact ⟨_, _, _, rfl, hscan, hmark, Nat.le_succ _, Or.inr hself, hmono⟩
    · rw [if_neg hk] at hmark ⊢
      exact ⟨_, _, _, rfl, hscan, hmark, le_rfl, Or.inr hself, hmono⟩
  · rw [if_neg hnew]
    refine ⟨_, _, _, rfl, .refl s, h, le_rfl, ?_, fun _ => id⟩
    rcases Nat.eq_zero_or_pos (s.level q.var) with h0 | hpos
    · exact Or.inl h0
    · cases hseen : s.seen q.var
      · exact absurd ⟨hseen, hpos⟩ hnew
      · exact Or.inr rfl

theorem analyzeLits_spec (hs : CoreOk N s.toCore) (h : Resolving s.toCore s.seen n pathC out)
    (hfalse : ∀ q ∈ lits, -q ∈ s.trail.take n) :
    ∃ s' pathC' out', Solver.analyzeLits (s, pathC, out) lits = (s', pathC', out') ∧ Scanned s s' ∧
      Resolving s.toCore s'.seen n pathC' out' ∧ pathC ≤ pathC' ∧
      (∀ q ∈ lits, s.level q.var = 0 ∨ s'.seen q.var = true) ∧
      ∀ x, s.seen x = true → s'.seen x = true := by
  unfold Solver.analyzeLits
  induction lits generalizing s pathC out with
  | nil => exact ⟨s, pathC, out, rfl, .refl s, h, le_rfl, by simp, fun _ => id⟩
  | cons q lits ih =>
      obtain ⟨hq, hlits⟩ := List.forall_mem_cons.mp hfalse
      obtain ⟨s₁, pathC₁, out₁, hrun, hscan, hok, hle, hseen, hmono⟩ := analyzeLit_spec hs h hq
      rw [List.foldl_cons]
      simp only [hrun]
      have hcore := hscan.toCore
      obtain ⟨s₂, pathC₂, out₂, hrun', hscan', hok', hle', hseen', hmono'⟩ :=
        ih (s := s₁) (by rwa [hcore]) (by rwa [hcore]) (by rwa [hcore])
      rw [hcore] at hok' hseen'
      refine ⟨s₂, pathC₂, out₂, hrun', hscan.trans hscan', hok', hle.trans hle', ?_,
        fun x hx => hmono' x (hmono x hx)⟩
      exact List.forall_mem_cons.mpr ⟨hseen.imp_right (hmono' _), hseen'⟩

omit [Double F] [LawfulDouble F] in
theorem selectNext_spec (hn : n ≤ s.trail.length)
    (hex : ∃ t ∈ s.trail.take n, s.seen t.var = true) :
    ∃ p m, s.selectNext n = some (p, m) ∧ s.trail[m]? = some p ∧ m < n ∧ s.seen p.var = true ∧
      ∀ j t, m < j → j < n → s.trail[j]? = some t → s.seen t.var = false := by
  induction n with
  | zero => simp at hex
  | succ n ih =>
      have hget : s.trail[n]? = some s.trail[n] := List.getElem?_eq_getElem hn
      rw [Solver.selectNext, hget]
      simp only
      by_cases hseen : s.seen s.trail[n].var = true
      · rw [if_pos hseen]
        exact ⟨_, n, rfl, hget, Nat.lt_succ_self n, hseen, fun j t h₁ h₂ => by omega⟩
      · rw [if_neg hseen]
        obtain ⟨t, ht, hst⟩ := hex
        have ht' : t ∈ s.trail.take n := by
          rw [List.take_add_one, hget, List.mem_append] at ht
          refine ht.resolve_right fun h => hseen ?_
          rwa [← List.mem_singleton.mp h]
        obtain ⟨p, m, hrun, hm, hlt, hp, hafter⟩ := ih (Nat.le_of_succ_le hn) ⟨t, ht', hst⟩
        refine ⟨p, m, hrun, hm, hlt.trans (Nat.lt_succ_self n), hp, fun j t' h₁ h₂ hj => ?_⟩
        rcases Nat.lt_succ_iff_lt_or_eq.mp h₂ with h₂ | rfl
        · exact hafter j t' h₁ h₂ hj
        · rw [hget] at hj
          cases hj
          exact Bool.eq_false_of_not_eq_true hseen

theorem Resolving.exists_seen {s : Core} {seen : ℕ → Bool}
    (h : Resolving s seen n pathC out) (hpos : 0 < pathC) :
    ∃ t ∈ s.trail.take n, seen t.var = true ∧ s.level t.var = s.decisionLevel := by
  rw [h.count, List.countP_pos_iff] at hpos
  obtain ⟨t, ht, hcond⟩ := hpos
  rw [Bool.and_eq_true, decide_eq_true_eq] at hcond
  exact ⟨t, ht, hcond⟩

/-- A literal of the current level has been counted. -/
theorem Resolving.pos {s : Core} {seen : ℕ → Bool} (h : Resolving s seen n pathC out)
    (hq : seen q.var = true) (hlev : s.level q.var = s.decisionLevel) : 0 < pathC := by
  rw [h.count, List.countP_pos_iff]
  rcases h.of_seen q.var hq with ⟨r, hr, hv⟩ | ⟨⟨t, ht, hv⟩, -⟩
  · have := (h.out_level r hr).2
    rw [hv, hlev] at this
    exact absurd this (Nat.lt_irrefl _)
  · exact ⟨t, ht, by rw [hv, hq, hlev]; simp⟩

/-- More marks, more literals. -/
theorem Resolving.resolvent_subset {s : Core} {seen seen' : ℕ → Bool} {pathC' : ℕ} {out' : List Lit}
    (h : Resolving s seen n pathC out) (h' : Resolving s seen' n pathC' out') (hs : CoreOk N s)
    (hmono : ∀ x, seen x = true → seen' x = true) :
    resolvent s seen n out ⊆ resolvent s seen' n out' := by
  rintro q (hq | ⟨hq, hlev, htr⟩)
  · rcases h'.of_seen q.var (hmono _ (h.out_seen q hq)) with ⟨r, hr, hv⟩ | ⟨-, hlev⟩
    · have : r = q := neg_injective (hs.trail.eq_of_var (h'.out_false r hr) (h.out_false q hq)
        (by rw [Lit.var_neg, Lit.var_neg, hv]))
      exact Or.inl (this ▸ hr)
    · exact absurd hlev (h.out_level q hq).2.ne
  · exact Or.inr ⟨hmono _ hq, hlev, htr⟩

/-- The reason of a literal of the current level that is not the first. -/
theorem CoreOk.exists_reason {s : Core} (hs : CoreOk N s) {m j : ℕ} {t : Lit}
    (hm : s.trail[m]? = some p) (hj : s.trail[j]? = some t) (hjm : j < m)
    (hp : s.level p.var = s.decisionLevel) (ht : s.level t.var = s.decisionLevel)
    (hk : 0 < s.decisionLevel) : ∃ cr, s.reason p.var = some cr := by
  rw [← Option.ne_none_iff_exists']
  intro hr
  rcases hs.reason.decision hm hr with h0 | hlim
  · exact absurd (hp.symm.trans h0) hk.ne'
  · -- the literal at `j` is of the same level, so the level begins before it
    rw [hs.trail.level j t hj] at ht
    have hall := List.countP_eq_length.mp ht m hlim
    rw [decide_eq_true_eq] at hall
    exact absurd hall (Nat.not_le_of_lt hjm)

/-- What the loop leaves: the literal of the current level, and the others of the clause. -/
theorem analyzeLoop_spec (popt : Option Lit) (hs : CoreOk N s.toCore) {fuel : ℕ}
    (h : Resolving s.toCore s.seen n pathC out) (hn : n ≤ s.trail.length) (hfuel : n < fuel)
    {cr : ℕ} {c : Clause} (hc : Live s.ca cr c)
    (hlits : (if popt = none then c.lits else c.lits.drop 1) = lits)
    (hfalse : ∀ q ∈ lits, -q ∈ s.trail.take n)
    (hfol : ∀ T : Set Lit, resolvent s.toCore s.seen n out ⊆ T →
      (∀ q ∈ lits, q ∈ T ∨ s.level q.var = 0) → Follows N T)
    (hpos : 0 < pathC ∨ ∃ q ∈ lits, s.level q.var = s.decisionLevel) (hk : 0 < s.decisionLevel) :
    ∃ s' p out' m, Solver.analyzeLoop fuel s (some cr) popt n pathC out = some (s', p, out') ∧
      Scanned s s' ∧ p ∈ s.trail ∧ s.level p.var = s.decisionLevel ∧
      Follows N (insert (-p) {q | q ∈ out'}) ∧ Resolving s.toCore s'.seen m 0 out' := by
  induction fuel generalizing s n pathC out popt cr c lits with
  | zero => exact absurd hfuel (Nat.not_lt_zero _)
  | succ fuel ih =>
      rw [Solver.analyzeLoop]
      simp only [Option.bind_eq_bind, Option.bind_some, hc.1, hlits]
      -- the activity of the clause
      have hbump : Tuned s (s.bumpLearnt cr c) := by
        unfold Solver.bumpLearnt
        split
        · exact claBumpActivity_tuned cr
        · exact .refl s
      have hcore₀ := hbump.toCore
      obtain ⟨s₁, pathC₁, out₁, hrun, hscan, hres, hle, hseen, hmono⟩ :=
        analyzeLits_spec (s := s.bumpLearnt cr c) (by rwa [hcore₀])
          (by rwa [hcore₀, hbump.seen]) (by rwa [hcore₀])
      rw [hcore₀] at hres hseen
      rw [hbump.seen] at hmono
      have hcore : s₁.toCore = s.toCore := hscan.toCore.trans hcore₀
      simp only [hrun]
      have hpos₁ : 0 < pathC₁ := by
        rcases hpos with hpos | ⟨q, hq, hlev⟩
        · exact hpos.trans_le hle
        · exact hres.pos ((hseen q hq).resolve_left fun h0 => hk.ne' (hlev.symm.trans h0)) hlev
      obtain ⟨t, ht, hst, -⟩ := hres.exists_seen hpos₁
      obtain ⟨p, m, hnext, hm, hmn, hp, hafter⟩ :=
        selectNext_spec (s := s₁) (n := n) (by rwa [hcore]) ⟨t, by rwa [hcore], hst⟩
      rw [hcore] at hm hafter
      obtain ⟨hlevel, hres', hsub⟩ := hres.next hs hm hmn hp hafter hpos₁
      simp only [hnext, Option.bind_some]
      -- the clause after the resolution
      have hfol₁ : Follows N (resolvent s.toCore s₁.seen n out₁) := by
        refine hfol _ (h.resolvent_subset hres hs hmono) fun q hq => ?_
        rcases hseen q hq with h0 | hsq
        · exact Or.inr h0
        · exact Or.inl (hres.mem_resolvent hs (hfalse q hq) hsq)
      have hfol₂ := hfol₁.mono hsub
      have hmark : (s₁.mark p.var false).seen = Function.update s₁.seen p.var false := rfl
      have hcore₂ : (s₁.mark p.var false).toCore = s.toCore := hcore
      have hscan₂ : Scanned s (s₁.mark p.var false) :=
        (hbump.scanned.trans hscan).trans (Scanned.mark _ _)
      by_cases hmore : 0 < pathC₁ - 1
      · rw [if_pos hmore]
        obtain ⟨t', ht', -, hlev'⟩ := hres'.exists_seen hmore
        obtain ⟨j, hj⟩ := List.mem_iff_getElem?.mp ht'
        rw [List.getElem?_take] at hj
        split at hj
        · next hjm =>
            obtain ⟨cr', hr⟩ := hs.exists_reason hm hj hjm hlevel hlev' hk
            obtain ⟨c', rest, hc', hlits', hrest⟩ := hs.reason.clause hm hr
            rw [show (s₁.mark p.var false).reason p.var = some cr' by rwa [hcore₂]]
            obtain ⟨s', p', out', m', hrun', hscan', hp', hlevel', hfol', hres''⟩ :=
              ih (s := s₁.mark p.var false) (n := m) (c := c') (some p)
                (by rwa [hcore₂]) (by rw [hcore₂, hmark]; exact hres')
                (by rw [hcore₂]; exact hmn.le.trans hn) (by omega) (by rwa [hcore₂])
                (by rw [hlits']) (by rwa [hcore₂])
                (by
                  rw [hcore₂, hmark]
                  intro T hT hlitsT
                  refine Follows.replace (follows_iff.mpr (hs.implied cr' c' hc')) fun q hq => ?_
                  change q ∈ c'.lits at hq
                  rw [hlits'] at hq
                  rcases List.mem_cons.mp hq with rfl | hq
                  · exact Or.inr (hfol₂.mono (Set.insert_subset_insert hT))
                  · exact (hlitsT q hq).imp_right (hs.root (List.mem_of_mem_take (hrest q hq))))
                (Or.inl hmore) (by rwa [hcore₂])
            rw [hcore₂] at hp' hlevel' hres''
            exact ⟨s', p', out', m', hrun', hscan₂.trans hscan', hp', hlevel', hfol', hres''⟩
        · cases hj
      · rw [if_neg hmore]
        have hzero : pathC₁ - 1 = 0 := Nat.eq_zero_of_not_pos hmore
        rw [hzero] at hres'
        refine ⟨_, p, out₁, m, rfl, hscan₂, List.mem_of_getElem? hm, hlevel, hfol₂.mono ?_, hres'⟩
        refine Set.insert_subset_insert fun q hq => ?_
        rcases hq with hq | ⟨hsq, hlev, -⟩
        · exact hq
        · exact absurd (hres'.pos hsq hlev) (Nat.lt_irrefl 0)

end

/-! ## The level to go back to -/

instance (f : Lit → ℕ) : Std.Asymm (Less fun p q => decide (f q < f p)) :=
  ⟨fun p q h h' => by
    have h₁ : f q < f p := of_decide_eq_true h
    have h₂ : f p < f q := of_decide_eq_true h'
    omega⟩

instance (f : Lit → ℕ) : IsOrderConnected Lit (Less fun p q => decide (f q < f p)) :=
  ⟨fun p q r h => by
    have h₁ : f r < f p := of_decide_eq_true h
    by_cases h₂ : f q < f p
    · exact Or.inl (decide_eq_true h₂)
    · exact Or.inr (decide_eq_true (by omega))⟩

theorem backtrackLevel_nil {s : Assignment} {a : Lit} : s.backtrackLevel [a] = ([a], 0) := rfl

/-- The second literal has the highest level of all behind the first. -/
theorem backtrackLevel_cons {s : Assignment} {a : Lit} {rest : List Lit} (hrest : rest ≠ []) :
    ∃ b tail, s.backtrackLevel (a :: rest) = (a :: b :: tail, s.level b.var) ∧
      (b :: tail).Perm rest ∧ ∀ q ∈ rest, s.level q.var ≤ s.level b.var := by
  have hlen : 1 < (a :: rest).length := by
    rw [List.length_cons]
    exact Nat.lt_succ_of_le (List.length_pos_of_ne_nil hrest)
  unfold Assignment.backtrackLevel
  rw [if_neg hlen.ne']
  obtain ⟨hle, hbest⟩ :=
    bestIndex_spec (fun p q : Lit => decide (s.level q.var < s.level p.var)) hlen
  have hlt : bestIndex (fun p q : Lit => decide (s.level q.var < s.level p.var)) (a :: rest) 1 <
      (a :: rest).length := bestIndex_lt hlen
  simp only
  generalize bestIndex (fun p q : Lit => decide (s.level q.var < s.level p.var)) (a :: rest) 1 = i
    at hle hbest hlt
  have hperm : (swap (a :: rest) 1 i).Perm (a :: rest) := swap_perm hlen hlt
  have h0 : (swap (a :: rest) 1 i)[0]? = some a := by
    rw [getElem?_swap hlen hlt, if_neg (by omega), if_neg (by omega)]
    rfl
  have h1 : (swap (a :: rest) 1 i)[1]? = (a :: rest)[i]? := by
    rw [getElem?_swap hlen hlt]
    split
    · next heq => rw [heq]
    · rw [if_pos rfl]
  rw [getElem?_eq_getD hlt] at h1
  match hl : swap (a :: rest) 1 i with
  | [] => rw [hl] at h0; cases h0
  | [x] => rw [hl] at h1; cases h1
  | x :: b :: tail =>
      rw [hl] at h0 h1 hperm
      cases h0
      have hb : b = (a :: rest).getD i default := Option.some.inj h1
      refine ⟨b, tail, by rw [hb], (List.perm_cons a).mp hperm, fun q hq => ?_⟩
      obtain ⟨j, hj⟩ := List.mem_iff_getElem?.mp hq
      have hj' : (a :: rest)[j + 1]? = some q := hj
      have hjl : j + 1 < (a :: rest).length := (List.getElem?_eq_some_iff.mp hj').1
      have hno := hbest (j + 1) (Nat.le_add_left 1 j) hjl
      rw [getElem?_eq_getD hjl] at hj'
      rw [Option.some.inj hj', ← hb] at hno
      exact Nat.le_of_not_lt fun hgt => hno (decide_eq_true hgt)

/-! ## The learnt clause -/

/-- The clause follows and is false; behind its first literal, the only one of the current level,
all literals are of the level to go back to or below, and the second is of that level. -/
structure Analyzed (N : Set (List Lit)) (s : Core) (out_learnt : List Lit) (out_btlevel : ℕ) :
    Prop where
  follows : Entails N out_learnt
  neg_trail : ∀ q ∈ out_learnt, -q ∈ s.trail
  nodup : (out_learnt.map Lit.var).Nodup
  lt : out_btlevel < s.decisionLevel
  asserting : ∃ a rest, out_learnt = a :: rest ∧ s.level a.var = s.decisionLevel ∧
    (∀ q ∈ rest, 0 < s.level q.var ∧ s.level q.var ≤ out_btlevel) ∧
    (rest = [] → out_btlevel = 0) ∧ ∀ b tail, rest = b :: tail → s.level b.var = out_btlevel

theorem Analyzed.of_backtrackLevel {N : Set (List Lit)} {s : Core} {a : Lit} {rest : List Lit}
    (hfol : Entails N (a :: rest)) (hneg : ∀ q ∈ a :: rest, -q ∈ s.trail)
    (hnodup : ((a :: rest).map Lit.var).Nodup) (ha : s.level a.var = s.decisionLevel)
    (hlev : ∀ q ∈ rest, 0 < s.level q.var ∧ s.level q.var < s.decisionLevel)
    (hk : 0 < s.decisionLevel) :
    Analyzed N s (s.backtrackLevel (a :: rest)).1 (s.backtrackLevel (a :: rest)).2 := by
  by_cases hrest : rest = []
  · subst hrest
    rw [backtrackLevel_nil]
    exact ⟨hfol, hneg, hnodup, hk, a, [], rfl, ha, by simp, fun _ => rfl, by simp⟩
  · obtain ⟨b, tail, hback, hperm, hmax⟩ := backtrackLevel_cons (s := s.toAssignment) (a := a) hrest
    rw [hback]
    have hall : (a :: b :: tail).Perm (a :: rest) := hperm.cons a
    refine ⟨hfol.mono hall.symm.subset, fun q hq => hneg q (hall.subset hq),
      (hall.map Lit.var).nodup_iff.mpr hnodup, (hlev b (hperm.subset List.mem_cons_self)).2,
      a, b :: tail, rfl, ha, fun q hq => ?_, by simp, ?_⟩
    · have hq' := hperm.subset hq
      exact ⟨(hlev q hq').1, hmax q hq'⟩
    · rintro b' tail' heq
      cases heq
      rfl

/-- Conflict analysis never fails, keeps its promises and leaves no marks. -/
theorem analyze_spec {F : Type} [Double F] [LawfulDouble F] {N : Set (List Lit)}
    {s : Solver F} {cr : ℕ}
    (hs : CoreOk N s.toCore) (hseen : ∀ x, s.seen x = false) (hconf : Conflict s.toCore cr)
    (hk : 0 < s.decisionLevel) :
    ∃ s' out bt, s.analyze cr = some (s', out, bt) ∧ Tuned s s' ∧ Analyzed N s.toCore out bt := by
  obtain ⟨c, hc, hfalse, hex⟩ := hconf
  have hstart : Resolving s.toCore s.seen s.trail.length 0 [] := by
    refine ⟨fun x hx => ?_, by simp, by simp, by simp, by simp, ?_⟩
    · rw [hseen x] at hx
      cases hx
    · simp [hseen]
  obtain ⟨s₁, p, out, m, hloop, hscan, hp, hlevel, hfol, hres⟩ :=
    analyzeLoop_spec none hs hstart le_rfl (Nat.lt_succ_self _) hc (if_pos rfl)
      (by rwa [List.take_length])
      (fun T _ hlits => Follows.replace (follows_iff.mpr (hs.implied cr c hc)) fun q hq =>
        (hlits q hq).imp_right (hs.root (hfalse q hq)))
      (Or.inr hex) hk
  have hcore := hscan.toCore
  have hof : ∀ x, s₁.seen x = true → ∃ q ∈ out, q.var = x := by
    intro x hx
    rcases hres.of_seen x hx with hq | ⟨⟨t, -, hv⟩, hlev⟩
    · exact hq
    · exact absurd (hres.pos (q := t) (by rwa [hv]) (by rwa [hv])) (Nat.lt_irrefl 0)
  have hclosed : Closed s.toCore {q | q ∈ [-p] ++ out} s₁.seen := by
    intro x hx
    obtain ⟨q, hq, hv⟩ := hof x hx
    exact ⟨q, hv, hres.out_false q hq, Or.inl (List.mem_append_right _ hq)⟩
  obtain ⟨kept, m', new, hmin, hsub, hg, hclosed'⟩ :=
    minimizeLoop_spec (out.foldl (fun a q => a ||| s.abstractLevel q.var) 0)
      (m := ⟨s₁.seen, [], -p :: out⟩) hs out [-p] hclosed hres.out_false
  -- the clause without the literals that are redundant
  have hentails : Entails N (-p :: kept) := by
    refine follows_iff.mp (hclosed'.shrink hs hfol fun q hq => ?_)
    rcases hq with rfl | hq
    · exact Or.inl List.mem_cons_self
    · exact Or.inr ⟨hg.mono (hres.out_seen q hq), hres.out_false q hq⟩
  have hnodup : ((-p :: kept).map Lit.var).Nodup := by
    rw [List.map_cons, List.nodup_cons]
    refine ⟨fun hmem => ?_, hres.nodup.sublist (hsub.map _)⟩
    obtain ⟨q, hq, hv⟩ := List.mem_map.mp hmem
    have := (hres.out_level q (hsub.subset hq)).2
    rw [hv, Lit.var_neg, hlevel] at this
    exact Nat.lt_irrefl _ this
  have hanalyzed := Analyzed.of_backtrackLevel (s := s.toCore) hentails
    (List.forall_mem_cons.mpr ⟨by rwa [neg_neg], fun q hq =>
      hres.out_false q (hsub.subset hq)⟩) hnodup
    (by rwa [Lit.var_neg]) (fun q hq => hres.out_level q (hsub.subset hq)) hk
  have hclear : m'.toclear.foldl (fun f q => Function.update f q.var false) m'.seen = s.seen := by
    funext x
    rw [hseen x, Bool.eq_false_iff, ne_eq, Grown.foldl_unmark, not_and]
    intro hx hno
    rw [hg.toclear] at hno
    rcases (hg.seen x).mp hx with hx | ⟨q, hq, hv⟩
    · obtain ⟨q, hq, hv⟩ := hof x hx
      exact hno q (List.mem_append_left _ (List.mem_cons_of_mem _ hq)) hv
    · exact hno q (List.mem_append_right _ hq) hv
  refine ⟨{ s₁ with seen := m'.toclear.foldl (fun f q => Function.update f q.var false) m'.seen },
    _, _, ?_, ?_, hanalyzed⟩
  · unfold Solver.analyze
    simp only [hloop, Option.bind_eq_bind, Option.bind_some, hcore, hmin]
    rfl
  · rw [hclear]
    exact Tuned.withSeen hscan s.seen

end ExtFolding.Minisat
