import Mathlib.Algebra.Group.Basic
import Mathlib.Logic.Relation
import Mathlib.Tactic

/-!
# Conflict-driven search

Clauses over literals of any type, what follows from them, and the search with backjumps as a
transition system: a trail of literals with their levels, which grows by unit propagation and by
decisions and is cut back to a lower level when a clause becomes unit there. Which clauses are kept
does not matter; a step may use any clause that follows. Every run without restarts is finite.
-/

namespace ExtFolding.Cdcl

variable {L : Type} [InvolutiveNeg L]

/-! ## Entailment -/

/-- A set of true literals, one of each literal and its complement. -/
structure Valuation (L : Type) [InvolutiveNeg L] where
  holds : L → Prop
  neg : ∀ p, holds (-p) ↔ ¬ holds p

def Valuation.Sat (v : Valuation L) (c : List L) : Prop := ∃ p ∈ c, v.holds p

def Valuation.Models (v : Valuation L) (N : Set (List L)) : Prop := ∀ c ∈ N, v.Sat c

/-- The clause is true wherever all clauses of the set are. -/
def Entails (N : Set (List L)) (c : List L) : Prop := ∀ v : Valuation L, v.Models N → v.Sat c

variable {N M : Set (List L)} {c d e : List L} {p q : L}

theorem Entails.of_mem (h : c ∈ N) : Entails N c := fun _ hv => hv c h

theorem Entails.mono (h : Entails N c) (hsub : c ⊆ d) : Entails N d := by
  intro v hv
  obtain ⟨p, hp, hvp⟩ := h v hv
  exact ⟨p, hsub hp, hvp⟩

theorem Entails.superset (h : Entails N c) (hsub : N ⊆ M) : Entails M c :=
  fun v hv => h v fun d hd => hv d (hsub hd)

/-- Literals whose complements follow can be left out. -/
theorem Entails.strip (h : Entails N c) (hd : ∀ p ∈ c, p ∈ d ∨ Entails N [-p]) : Entails N d := by
  intro v hv
  obtain ⟨p, hp, hvp⟩ := h v hv
  rcases hd p hp with hmem | hneg
  · exact ⟨p, hmem, hvp⟩
  · obtain ⟨q, hq, hvq⟩ := hneg v hv
    rw [List.mem_singleton.mp hq, v.neg] at hvq
    exact absurd hvp hvq

/-- One of the literals is true wherever all clauses are. -/
def Follows (N : Set (List L)) (S : Set L) : Prop :=
  ∀ v : Valuation L, v.Models N → ∃ p ∈ S, v.holds p

theorem follows_iff : Follows N {p | p ∈ c} ↔ Entails N c := Iff.rfl

variable {S T U : Set L}

theorem Follows.mono (h : Follows N S) (hsub : S ⊆ T) : Follows N T := by
  intro v hv
  obtain ⟨p, hp, hvp⟩ := h v hv
  exact ⟨p, hsub hp, hvp⟩

/-- A clause all of whose literals may be replaced: each is in the rest, or its complement follows
with the rest. -/
theorem Follows.replace (h : Follows N S) (hd : ∀ p ∈ S, p ∈ T ∨ Follows N (insert (-p) T)) :
    Follows N T := by
  intro v hv
  obtain ⟨p, hp, hvp⟩ := h v hv
  rcases hd p hp with hmem | hneg
  · exact ⟨p, hmem, hvp⟩
  · obtain ⟨q, hq, hvq⟩ := hneg v hv
    rcases hq with rfl | hq
    · rw [v.neg] at hvq
      exact absurd hvp hvq
    · exact ⟨q, hq, hvq⟩

/-- No valuation makes all clauses true. -/
def Unsat (N : Set (List L)) : Prop := ∀ v : Valuation L, ¬ v.Models N

theorem unsat_of_entails_nil (h : Entails N []) : Unsat N := by
  intro v hv
  obtain ⟨p, hp, -⟩ := h v hv
  exact absurd hp List.not_mem_nil

theorem Unsat.superset (h : Unsat N) (hsub : N ⊆ M) : Unsat M :=
  fun v hv => h v fun c hc => hv c (hsub hc)

/-! ## The transition system -/

/-- The literals with their levels, the last one first. -/
abbrev Trail (L : Type) := List (L × ℕ)

structure State (L : Type) where
  trail : Trail L
  level : ℕ

namespace Trail

def IsTrue (t : Trail L) (p : L) : Prop := ∃ k, (p, k) ∈ t

def Undef (t : Trail L) (p : L) : Prop := ¬ IsTrue t p ∧ ¬ IsTrue t (-p)

/-- What is left when the levels above `b` are taken back. -/
def cut (b : ℕ) (t : Trail L) : Trail L := t.filter fun e => e.2 ≤ b

omit [InvolutiveNeg L] in
theorem mem_cut {t : Trail L} {b : ℕ} {e : L × ℕ} : e ∈ cut b t ↔ e ∈ t ∧ e.2 ≤ b := by
  simp [cut]

end Trail

open Trail

/-- The rules; `N` are the clauses of the problem. -/
inductive Step (N : Set (List L)) : State L → State L → Prop
  | propagate {t k p c} (hc : Entails N c) (hp : p ∈ c) (hrest : ∀ q ∈ c, q ≠ p → IsTrue t (-q))
      (hu : Undef t p) : Step N ⟨t, k⟩ ⟨(p, k) :: t, k⟩
  | decide {t k p} (hu : Undef t p) : Step N ⟨t, k⟩ ⟨(p, k + 1) :: t, k + 1⟩
  | openLevel {t k} : Step N ⟨t, k⟩ ⟨t, k + 1⟩
  | backjump {t k b p c} (hb : b < k) (hc : Entails N c) (hp : p ∈ c)
      (hrest : ∀ q ∈ c, q ≠ p → IsTrue (cut b t) (-q)) (hu : Undef (cut b t) p) :
      Step N ⟨t, k⟩ ⟨(p, b) :: cut b t, b⟩

/-- No literal occurs twice or with its complement, no level is above the current one, and the
literals of level 0 follow. -/
structure Ok (N : Set (List L)) (s : State L) : Prop where
  apart : s.trail.Pairwise fun e f => e.1 ≠ f.1 ∧ e.1 ≠ -f.1
  level : ∀ e ∈ s.trail, e.2 ≤ s.level
  root : ∀ e ∈ s.trail, e.2 = 0 → Entails N [e.1]

theorem Ok.cut {t : Trail L} {k b : ℕ} (h : Ok N ⟨t, k⟩) : Ok N ⟨cut b t, b⟩ :=
  ⟨h.apart.sublist List.filter_sublist, fun _ he => (mem_cut.mp he).2,
    fun e he => h.root e (mem_cut.mp he).1⟩

/-- A literal that has become unit follows at level 0. -/
theorem Ok.push {t : Trail L} {k : ℕ} (h : Ok N ⟨t, k⟩) (hu : Undef t p)
    (hroot : k = 0 → Entails N [p]) : Ok N ⟨(p, k) :: t, k⟩ := by
  refine ⟨List.pairwise_cons.mpr ⟨fun e he => ⟨?_, ?_⟩, h.apart⟩, fun e he => ?_, fun e he h0 => ?_⟩
  · rintro rfl
    exact hu.1 ⟨e.2, he⟩
  · intro heq
    have hneg : -p = e.1 := neg_eq_iff_eq_neg.mpr heq
    exact hu.2 ⟨e.2, hneg ▸ he⟩
  · rcases List.mem_cons.mp he with rfl | he
    · exact le_rfl
    · exact h.level e he
  · rcases List.mem_cons.mp he with rfl | he
    · exact hroot h0
    · exact h.root e he h0

theorem Ok.unit {t : Trail L} (h : Ok N ⟨t, 0⟩) (hc : Entails N c)
    (hrest : ∀ q ∈ c, q ≠ p → IsTrue t (-q)) : Entails N [p] := by
  refine hc.strip fun q hq => ?_
  by_cases hqp : q = p
  · exact Or.inl (List.mem_singleton.mpr hqp)
  · obtain ⟨j, hj⟩ := hrest q hq hqp
    exact Or.inr (h.root _ hj (Nat.le_zero.mp (h.level _ hj)))

theorem Step.ok {s s' : State L} (hs : Step N s s') (h : Ok N s) : Ok N s' := by
  cases hs with
  | propagate hc hp hrest hu =>
      refine h.push hu fun h0 => ?_
      subst h0
      exact h.unit hc hrest
  | @decide t k p hu =>
      have h' : Ok N ⟨t, k + 1⟩ :=
        ⟨h.apart, fun e he => (h.level e he).trans (Nat.le_succ k), h.root⟩
      exact h'.push hu fun h0 => absurd h0 (Nat.succ_ne_zero k)
  | @openLevel t k => exact ⟨h.apart, fun e he => (h.level e he).trans (Nat.le_succ k), h.root⟩
  | backjump hb hc hp hrest hu =>
      refine h.cut.push hu fun h0 => ?_
      subst h0
      exact h.cut.unit hc hrest

/-- A clause that is false at level 0 refutes the problem. -/
theorem Ok.unsat {t : Trail L} (h : Ok N ⟨t, 0⟩) (hc : Entails N c)
    (hfalse : ∀ q ∈ c, IsTrue t (-q)) :
    Unsat N := by
  refine unsat_of_entails_nil (hc.strip fun q hq => ?_)
  obtain ⟨j, hj⟩ := hfalse q hq
  exact Or.inr (h.root _ hj (Nat.le_zero.mp (h.level _ hj)))

/-- A step, or a restart. -/
inductive Move (N : Set (List L)) : State L → State L → Prop
  | step {s s'} (h : Step N s s') : Move N s s'
  | restart {t k} : Move N ⟨t, k⟩ ⟨cut 0 t, 0⟩

theorem Move.ok {s s' : State L} (hm : Move N s s') (h : Ok N s) : Ok N s' := by
  cases hm with
  | step hs => exact hs.ok h
  | restart => exact h.cut

/-- Whatever has been learned on the way, the invariant holds in all states of a run. -/
theorem Ok.run {s s' : State L} (hr : Relation.ReflTransGen (Move N) s s') (h : Ok N s) :
    Ok N s' := by
  induction hr with
  | refl => exact h
  | tail _ hm ih => exact hm.ok ih

theorem moves {s s' : State L} (hr : Relation.ReflTransGen (Step N) s s') :
    Relation.ReflTransGen (Move N) s s' := hr.lift id fun _ _ => Move.step

/-! ## Every run is finite -/

/-- A literal weighs more than all literals of higher levels together. -/
def weight (n K : ℕ) (t : Trail L) : ℕ := (t.map fun e => (n + 1) ^ (K - e.2)).sum

/-- Grows with each step. -/
def potential (n K : ℕ) (s : State L) : ℕ := weight n K s.trail * (K + 1) + s.level

omit [InvolutiveNeg L] in
@[simp] theorem weight_cons (n K : ℕ) (e : L × ℕ) (t : Trail L) :
    weight n K (e :: t) = (n + 1) ^ (K - e.2) + weight n K t := by simp [weight]

omit [InvolutiveNeg L] in
theorem weight_le (n K : ℕ) (t : Trail L) : weight n K t ≤ t.length * (n + 1) ^ K := by
  induction t with
  | nil => simp [weight]
  | cons e t ih =>
      have hpow : (n + 1) ^ (K - e.2) ≤ (n + 1) ^ K :=
        Nat.pow_le_pow_right (Nat.succ_pos n) (Nat.sub_le K e.2)
      rw [weight_cons, List.length_cons, Nat.succ_mul]
      omega

omit [InvolutiveNeg L] in
/-- The literals above level `b` weigh less than one literal of level `b`. -/
theorem weight_le_cut {n K b : ℕ} {t : Trail L} (hb : b < K) :
    weight n K t ≤ weight n K (cut b t) + t.length * (n + 1) ^ (K - b - 1) := by
  induction t with
  | nil => simp [weight]
  | cons e t ih =>
      rw [weight_cons, List.length_cons, Nat.succ_mul]
      by_cases he : e.2 ≤ b
      · rw [cut, List.filter_cons_of_pos (by simpa using he), weight_cons]
        unfold cut at ih
        omega
      · rw [cut, List.filter_cons_of_neg (by simpa using he)]
        have hpow : (n + 1) ^ (K - e.2) ≤ (n + 1) ^ (K - b - 1) :=
          Nat.pow_le_pow_right (Nat.succ_pos n) (by omega)
        unfold cut at ih
        omega

theorem Step.potential_lt {s s' : State L} {n K : ℕ} (hs : Step N s s') (hlen : s.trail.length ≤ n)
    (hK : s.level ≤ K) : potential n K s < potential n K s' := by
  have hgrow : ∀ {w w' k : ℕ} (k' : ℕ), w < w' → k ≤ K → w * (K + 1) + k < w' * (K + 1) + k' := by
    intro w w' k k' hw hk
    have := Nat.mul_le_mul_right (K + 1) (Nat.succ_le_of_lt hw)
    rw [Nat.succ_mul] at this
    omega
  cases hs with
  | @propagate t k p =>
      have hpos : 0 < (n + 1) ^ (K - k) := Nat.pow_pos (Nat.succ_pos n)
      exact hgrow k (by rw [weight_cons]; exact Nat.lt_add_of_pos_left hpos) hK
  | @decide t k p =>
      have hpos : 0 < (n + 1) ^ (K - (k + 1)) := Nat.pow_pos (Nat.succ_pos n)
      exact hgrow (k + 1) (by rw [weight_cons]; exact Nat.lt_add_of_pos_left hpos) hK
  | openLevel => exact Nat.lt_succ_self _
  | @backjump t k b p c hb =>
      refine hgrow b ?_ hK
      have hbK : b < K := hb.trans_le hK
      have hcut := weight_le_cut (n := n) (t := t) hbK
      have hlen' : t.length * (n + 1) ^ (K - b - 1) ≤ n * (n + 1) ^ (K - b - 1) :=
        Nat.mul_le_mul_right _ hlen
      have hpow : (n + 1) ^ (K - b) = n * (n + 1) ^ (K - b - 1) + (n + 1) ^ (K - b - 1) := by
        rw [← Nat.succ_mul, show K - b = K - b - 1 + 1 by omega, Nat.pow_succ, Nat.mul_comm,
          Nat.add_sub_cancel]
      have hpos : 0 < (n + 1) ^ (K - b - 1) := Nat.pow_pos (Nat.succ_pos n)
      rw [weight_cons]
      show weight n K t < (n + 1) ^ (K - b) + weight n K (cut b t)
      omega

/-- No run is longer than this. -/
def runBound (n K : ℕ) : ℕ := n * (n + 1) ^ K * (K + 1) + K

omit [InvolutiveNeg L] in
theorem potential_le {s : State L} {n K : ℕ} (hlen : s.trail.length ≤ n) (hK : s.level ≤ K) :
    potential n K s ≤ runBound n K := by
  have hw := (weight_le n K s.trail).trans (Nat.mul_le_mul_right _ hlen)
  exact Nat.add_le_add (Nat.mul_le_mul_right _ hw) hK

end ExtFolding.Cdcl
