import ExtFolding.Lib.Mealy
import ExtFolding.MeMin.Incomp
import ExtFolding.MeMin.Unreachable
import Mathlib.Data.List.GetD

/-!
# The machine of the rows

Under a letter a state goes the way of a row whose input has the letter. When the inputs of a state
are disjoint there is at most one such row, and the machine is deterministic.
-/

namespace ExtFolding.MeMin

/-- The steps of the rows; an output has the bits that its column specifies. -/
def rowStep (ni : ℕ) (states : List (List Trans)) : Steps ℕ (Fin ni → Bool) Cube := fun s a o t =>
  ∃ r ∈ rowsOf states s, a ∈ r.1.words ni ∧ r.2.2.cube = o ∧ r.2.1 = t

/-- The inputs of the rows of each state have no word in common. -/
def RowsApart (ni : ℕ) (states : List (List Trans)) : Prop :=
  ∀ trans ∈ states, trans.Pairwise fun q r => Disjoint (q.1.words ni) (r.1.words ni)

/-- The bits that the first output specifies are the same in the second. -/
def Agrees (o p : Cube) : Prop := ∀ i v, o i = some v → p i = some v

variable {ni no : ℕ} {states : List (List Trans)} {s t : ℕ} {w : List (Fin ni → Bool)}
  {os : List Cube}

theorem Agrees.refl (o : Cube) : Agrees o o := fun _ _ h => h

theorem RowsApart.rows (h : RowsApart ni states) (s : ℕ) :
    (rowsOf states s).Pairwise fun q r => Disjoint (q.1.words ni) (r.1.words ni) := by
  by_cases hs : s < states.length
  · exact h _ (List.mem_of_getElem? (getElem?_rowsOf hs))
  · rw [rowsOf, List.getD_eq_default _ _ (Nat.le_of_not_lt hs)]
    exact List.Pairwise.nil

/-- One row of a state has the letter. -/
theorem RowsApart.row_eq (h : RowsApart ni states) {q r : Trans} (hq : q ∈ rowsOf states s)
    (hr : r ∈ rowsOf states s) {a : Fin ni → Bool} (haq : a ∈ q.1.words ni)
    (har : a ∈ r.1.words ni) : q = r := by
  have hsymm : Std.Symm fun q r : Trans => Disjoint (q.1.words ni) (r.1.words ni) :=
    ⟨fun _ _ hdis => hdis.symm⟩
  by_contra hne
  exact Set.disjoint_left.mp (List.Pairwise.forall (h.rows s) hq hr hne) haq har

theorem RowsApart.deterministic (h : RowsApart ni states) : Deterministic (rowStep ni states) := by
  rintro s a o t o' t' ⟨q, hq, haq, rfl, rfl⟩ ⟨r, hr, har, rfl, rfl⟩
  obtain rfl := h.row_eq hq hr haq har
  exact ⟨rfl, rfl⟩

/-! ## Incompatible states -/

/-- A run whose last output is that of the row. -/
theorem LastRow.exists_run {r : Trans} (h : LastRow ni states s w r) :
    ∃ os t, Run (rowStep ni states) s w (os ++ [r.2.2.cube]) t := by
  induction h with
  | last ht ha => exact ⟨[], _, .cons ⟨_, ht, ha, rfl, rfl⟩ (.nil _)⟩
  | step ht ha _ ih =>
      obtain ⟨os, t, hrun⟩ := ih
      exact ⟨_ :: os, t, .cons ⟨_, ht, ha, rfl, rfl⟩ hrun⟩

theorem Clash.not_agrees {o₁ o₂ : IncSpecSeq} (h : Clash o₁ o₂) {p : Cube}
    (h₁ : Agrees o₁.cube p) (h₂ : Agrees o₂.cube p) : False := by
  obtain ⟨i, u, v, hu, hv, hne⟩ := h
  exact hne (Option.some.inj ((h₁ i u hu).symm.trans (h₂ i v hv)))

/-- States that one state of another machine stands for are not incompatible. -/
theorem not_incompatible_of_realises {τ : Type} {U : Steps τ (Fin ni → Bool) Cube} {q : τ}
    (hU : Deterministic U) (hs : Realises Agrees (rowStep ni states) s U q)
    (ht : Realises Agrees (rowStep ni states) t U q) : ¬ Incompatible ni states s t := by
  rintro ⟨w, r₁, r₂, h₁, h₂, hclash⟩
  obtain ⟨os₁, t₁, hrun₁⟩ := h₁.exists_run
  obtain ⟨os₂, t₂, hrun₂⟩ := h₂.exists_run
  obtain ⟨ps, hp₁, hp₂⟩ := hs.common ht hU hrun₁ hrun₂
  have hlen : os₁.length = os₂.length := by
    have := hrun₁.length_eq.trans hrun₂.length_eq.symm
    simpa using this
  have hd₁ := List.forall₂_drop os₁.length hp₁
  have hd₂ := List.forall₂_drop os₁.length hp₂
  rw [List.drop_left] at hd₁
  rw [hlen, List.drop_left, ← hlen] at hd₂
  obtain ⟨p, _, hp, -, heq⟩ := List.forall₂_cons_left_iff.mp hd₁
  rw [heq] at hd₂
  exact hclash.not_agrees hp (List.forall₂_cons.mp hd₂).1

theorem RowsApart.not_self (h : RowsApart ni states) (s : ℕ) : ¬ Incompatible ni states s s :=
  not_incompatible_of_realises h.deterministic (.refl Agrees.refl s) (.refl Agrees.refl s)

/-! ## The reachable machine -/

/-- A reachable state is the end of a run. -/
theorem Reachable.exists_run (h : MachOk ni no states) {r : ℕ} (hs : Reachable states r s) :
    ∃ w os, Run (rowStep ni states) r w os s := by
  induction hs with
  | refl => exact ⟨[], [], .nil r⟩
  | @tail b c _ hstep ih =>
      obtain ⟨w, os, hrun⟩ := ih
      obtain ⟨q, hq, rfl⟩ := List.mem_map.mp hstep
      obtain ⟨a, ha⟩ := IncSpecSeq.words_nonempty (h.input_wf hq)
      exact ⟨w ++ [a], os ++ [_], hrun.append (.cons ⟨q, hq, ha, rfl, rfl⟩ (.nil _))⟩

section Renamed

variable {machine machine' : List (List Trans)} {r : ℕ} {f : ℕ → ℕ}

theorem Renamed.rowsOf_eq (hf : Renamed machine r machine' f) (hs : Reachable machine r s) :
    rowsOf machine' (f s) = (rowsOf machine s).map (renameRow f) := by
  unfold rowsOf
  rw [List.getD_eq_getElem?_getD, List.getD_eq_getElem?_getD, hf.rows s hs]
  cases machine[s]? <;> rfl

theorem Renamed.rowStep_iff (hf : Renamed machine r machine' f) (hs : Reachable machine r s)
    {a : Fin ni → Bool} {o : Cube} {t' : ℕ} :
    rowStep ni machine' (f s) a o t' ↔
      ∃ t, Reachable machine r t ∧ f t = t' ∧ rowStep ni machine s a o t := by
  unfold rowStep
  rw [hf.rowsOf_eq hs]
  constructor
  · rintro ⟨_, hmap, ha, ho, rfl⟩
    obtain ⟨q, hq, rfl⟩ := List.mem_map.mp hmap
    exact ⟨q.2.1, hs.tail (List.mem_map.mpr ⟨q, hq, rfl⟩), rfl, q, hq, ha, ho, rfl⟩
  · rintro ⟨_, -, rfl, q, hq, ha, ho, rfl⟩
    exact ⟨renameRow f q, List.mem_map.mpr ⟨q, hq, rfl⟩, ha, ho, rfl⟩

theorem Renamed.run (hf : Renamed machine r machine' f) (hs : Reachable machine r s)
    (h : Run (rowStep ni machine) s w os t) : Run (rowStep ni machine') (f s) w os (f t) := by
  induction h with
  | nil => exact .nil _
  | @cons s a o t w os u hstep _ ih =>
      have ht : Reachable machine r t := by
        obtain ⟨q, hq, -, -, rfl⟩ := hstep
        exact hs.tail (List.mem_map.mpr ⟨q, hq, rfl⟩)
      exact .cons ((hf.rowStep_iff hs).mpr ⟨t, ht, rfl, hstep⟩) (ih ht)

theorem Renamed.of_run (hf : Renamed machine r machine' f) (hs : Reachable machine r s) {t' : ℕ}
    (h : Run (rowStep ni machine') (f s) w os t') :
    ∃ t, f t = t' ∧ Run (rowStep ni machine) s w os t := by
  induction w generalizing s os with
  | nil =>
      cases h
      exact ⟨s, rfl, .nil s⟩
  | cons a w ih =>
      cases h with
      | cons hstep hw =>
          obtain ⟨t, ht, rfl, hstep'⟩ := (hf.rowStep_iff hs).mp hstep
          obtain ⟨u, hu, hrun⟩ := ih ht hw
          exact ⟨u, hu, .cons hstep' hrun⟩

/-- The same machines realise both. -/
theorem Renamed.realises_iff (hf : Renamed machine r machine' f)
    {le : Cube → Cube → Prop} {τ : Type}
    {U : Steps τ (Fin ni → Bool) Cube} {q : τ} :
    Realises le (rowStep ni machine') (f r) U q ↔ Realises le (rowStep ni machine) r U q := by
  constructor
  · exact fun h w os t hrun => h w os (f t) (hf.run .refl hrun)
  · intro h w os t' hrun
    obtain ⟨t, -, hrun'⟩ := hf.of_run .refl hrun
    exact h w os t hrun'

theorem Renamed.rowsApart (hf : Renamed machine r machine' f) (h : RowsApart ni machine) :
    RowsApart ni machine' := by
  intro trans htrans
  obtain ⟨j, hj⟩ := List.mem_iff_getElem?.mp htrans
  obtain ⟨hjlt, rfl⟩ := List.getElem?_eq_some_iff.mp hj
  obtain ⟨s, hs, rfl⟩ := hf.bij.surjOn hjlt
  have hrows : machine'[f s] = rowsOf machine' (f s) :=
    Option.some.inj (hj.symm.trans (getElem?_rowsOf hjlt))
  rw [hrows, hf.rowsOf_eq hs]
  exact List.pairwise_map.mpr (h.rows s)

/-- Every state that is left is the end of a run. -/
theorem Renamed.exists_run (hm : MachOk ni no machine) (hf : Renamed machine r machine' f)
    (ht : t < machine'.length) : ∃ w os, Run (rowStep ni machine') (f r) w os t := by
  obtain ⟨s, hs, rfl⟩ := hf.bij.surjOn ht
  obtain ⟨w, os, hrun⟩ := Reachable.exists_run hm hs
  exact ⟨w, os, hf.run .refl hrun⟩

end Renamed

end ExtFolding.MeMin
