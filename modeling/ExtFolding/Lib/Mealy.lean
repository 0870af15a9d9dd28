import Mathlib.Data.List.Forall2
import Mathlib.Tactic.Common

/-!
# Machines and realisation

Mealy machines over letters `A` with outputs `O`, whose steps may be undefined. One machine realises
another from given states when every run of the other is matched by a run over the same word with
outputs above those of the other; `le o p` says that `p` is above `o`.
-/

namespace ExtFolding

variable {σ τ A O : Type}

/-- The steps of a machine: from a state under a letter, the output and the next state. -/
abbrev Steps (σ A O : Type) := σ → A → O → σ → Prop

inductive Run (T : Steps σ A O) : σ → List A → List O → σ → Prop
  | nil (s : σ) : Run T s [] [] s
  | cons {s a o t w os u} (h : T s a o t) (hw : Run T t w os u) : Run T s (a :: w) (o :: os) u

/-- At most one step under each letter. -/
def Deterministic (T : Steps σ A O) : Prop :=
  ∀ ⦃s a o t o' t'⦄, T s a o t → T s a o' t' → o = o' ∧ t = t'

/-- What `T` does from `s` is done by `U` from `q`, with outputs above those of `T`. -/
def Realises (le : O → O → Prop) (T : Steps σ A O) (s : σ) (U : Steps τ A O) (q : τ) : Prop :=
  ∀ w os t, Run T s w os t → ∃ ps r, Run U q w ps r ∧ List.Forall₂ le os ps

variable {T : Steps σ A O} {U : Steps τ A O} {le : O → O → Prop} {s t : σ} {q r : τ}
  {w v : List A} {os ps : List O}

namespace Run

theorem append {os' : List O} {u : σ} (h : Run T s w os t) (h' : Run T t v os' u) :
    Run T s (w ++ v) (os ++ os') u := by
  induction h with
  | nil => exact h'
  | cons hstep _ ih => exact .cons hstep (ih h')

theorem split (h : Run T s (w ++ v) os t) :
    ∃ os₁ u os₂, Run T s w os₁ u ∧ Run T u v os₂ t ∧ os = os₁ ++ os₂ := by
  induction w generalizing s os with
  | nil => exact ⟨[], s, os, .nil s, h, rfl⟩
  | cons a w ih =>
      cases h with
      | cons hstep hw =>
          obtain ⟨os₁, u, os₂, h₁, h₂, rfl⟩ := ih hw
          exact ⟨_, u, os₂, .cons hstep h₁, h₂, rfl⟩

theorem length_eq (h : Run T s w os t) : os.length = w.length := by
  induction h with
  | nil => rfl
  | cons _ _ ih => rw [List.length_cons, List.length_cons, ih]

theorem unique (hT : Deterministic T) {os' : List O} {t' : σ} (h : Run T s w os t)
    (h' : Run T s w os' t') : os = os' ∧ t = t' := by
  induction h generalizing os' with
  | nil =>
      cases h'
      exact ⟨rfl, rfl⟩
  | cons hstep _ ih =>
      cases h' with
      | cons hstep' hw' =>
          obtain ⟨rfl, rfl⟩ := hT hstep hstep'
          obtain ⟨rfl, rfl⟩ := ih hw'
          exact ⟨rfl, rfl⟩

end Run

namespace Realises

theorem refl (hle : ∀ o, le o o) (s : σ) : Realises le T s T s :=
  fun _ os t h => ⟨os, t, h, List.forall₂_same.mpr fun o _ => hle o⟩

/-- A simulation relates states whose steps are matched. -/
theorem of_simulation (R : σ → τ → Prop)
    (hR : ∀ {s q a o t}, R s q → T s a o t → ∃ p r, U q a p r ∧ le o p ∧ R t r) (h : R s q) :
    Realises le T s U q := by
  intro w os t hrun
  induction hrun generalizing q with
  | nil s => exact ⟨[], q, .nil q, .nil⟩
  | cons hstep _ ih =>
      obtain ⟨p, r, hp, hle, hr⟩ := hR h hstep
      obtain ⟨ps, r', hps, hall⟩ := ih hr
      exact ⟨p :: ps, r', .cons hp hps, .cons hle hall⟩

/-- After a word that both machines have read. -/
theorem after (h : Realises le T s U q) (hU : Deterministic U) (hs : Run T s w os t)
    (hq : Run U q w ps r) : Realises le T t U r := by
  intro v os' t' hrun
  obtain ⟨ps', r', hps, hall⟩ := h _ _ _ (hs.append hrun)
  obtain ⟨ps₁, r₁, ps₂, h₁, h₂, rfl⟩ := hps.split
  obtain ⟨rfl, rfl⟩ := h₁.unique hU hq
  refine ⟨ps₂, r', h₂, ?_⟩
  have hlen : os.length = ps₁.length := by rw [hs.length_eq, h₁.length_eq]
  have := List.forall₂_drop os.length hall
  rwa [List.drop_left, hlen, List.drop_left] at this

theorem exists_run (h : Realises le T s U q) (hs : Run T s w os t) : ∃ ps r, Run U q w ps r := by
  obtain ⟨ps, r, hrun, -⟩ := h w os t hs
  exact ⟨ps, r, hrun⟩

/-- Two states that one state stands for have outputs below the same outputs. -/
theorem common (h : Realises le T s U q) {s' : σ} (h' : Realises le T s' U q)
    (hU : Deterministic U) {os' : List O} {t' : σ} (hs : Run T s w os t) (hs' : Run T s' w os' t') :
    ∃ ps, List.Forall₂ le os ps ∧ List.Forall₂ le os' ps := by
  obtain ⟨ps, r, hrun, hall⟩ := h w os t hs
  obtain ⟨ps', r', hrun', hall'⟩ := h' w os' t' hs'
  obtain ⟨rfl, -⟩ := hrun.unique hU hrun'
  exact ⟨ps, hall, hall'⟩

end Realises

/-- A deterministic machine. -/
structure Mealy (σ A O : Type) where
  start : σ
  step : σ → A → Option (O × σ)

def Mealy.Step (N : Mealy σ A O) : Steps σ A O := fun q a o r => N.step q a = some (o, r)

theorem Mealy.deterministic (N : Mealy σ A O) : Deterministic N.Step := by
  intro q a o r o' r' h h'
  obtain ⟨rfl, rfl⟩ := Prod.mk.inj (Option.some.inj (h.symm.trans h'))
  exact ⟨rfl, rfl⟩

/-- The steps of a deterministic relation inside the first `k` numbers are those of a machine. -/
theorem exists_mealy {U : Steps ℕ A O} (hU : Deterministic U) {k q : ℕ} (hq : q < k) :
    ∃ N : Mealy (Fin k) A O, N.start = ⟨q, hq⟩ ∧
      ∀ (i j : Fin k) a o, N.Step i a o j ↔ U i a o j := by
  classical
  refine ⟨⟨⟨q, hq⟩, fun i a =>
    if h : ∃ p : O × Fin k, U i a p.1 p.2 then some h.choose else none⟩, rfl, fun i j a o => ?_⟩
  show (if h : ∃ p : O × Fin k, U i a p.1 p.2 then some h.choose else none) = some (o, j) ↔ _
  by_cases h : ∃ p : O × Fin k, U i a p.1 p.2
  · rw [dif_pos h, Option.some_inj]
    constructor
    · intro heq
      have hstep := h.choose_spec
      rwa [heq] at hstep
    · intro hstep
      obtain ⟨ho, hj⟩ := hU h.choose_spec hstep
      exact Prod.ext ho (Fin.ext hj)
  · rw [dif_neg h]
    refine iff_of_false (by simp) fun hstep => h ⟨(o, j), hstep⟩

theorem Realises.exists_mealy {U : Steps ℕ A O} (hU : Deterministic U) {k q : ℕ} (hq : q < k)
    (hlt : ∀ i < k, ∀ a o j, U i a o j → j < k) (h : Realises le T s U q) :
    ∃ N : Mealy (Fin k) A O, Realises le T s N.Step N.start := by
  obtain ⟨N, hstart, hstep⟩ := ExtFolding.exists_mealy hU hq
  have hrun : ∀ {w ps q r} (hq : q < k), Run U q w ps r → ∃ r', Run N.Step ⟨q, hq⟩ w ps r' := by
    intro w ps q r hq hrun
    induction hrun with
    | nil => exact ⟨_, .nil _⟩
    | @cons i a o j _ _ _ hij _ ih =>
        have hj := hlt i hq a o j hij
        obtain ⟨r', hr'⟩ := ih hj
        exact ⟨r', .cons ((hstep ⟨i, hq⟩ ⟨j, hj⟩ a o).mpr hij) hr'⟩
  refine ⟨N, fun w os t hw => ?_⟩
  obtain ⟨ps, r, hps, hall⟩ := h w os t hw
  obtain ⟨r', hr'⟩ := hrun hq hps
  exact ⟨ps, r', hstart ▸ hr', hall⟩

end ExtFolding
