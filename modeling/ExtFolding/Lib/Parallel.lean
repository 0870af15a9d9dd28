import ExtFolding.Lib.Loop
import ExtFolding.Lib.Ntk
import Mathlib.Data.List.GetD

/-!
# Networks side by side

Two sequential networks run next to each other on common inputs: the latches and outputs of the
second stand after those of the first. Neither reads a latch of the other, so a run of the whole is
a run of each.
-/

namespace ExtFolding.Aig

/-- The latch outputs from `n` on. -/
def Env.after (e : Env) (n : ℕ) : Env := ⟨e.pi, fun i => e.bo (n + i)⟩

namespace Ntk

/-- The values on the latch inputs. -/
def nexts (N : Ntk) (e : Env) : List Bool := N.latches.map fun l => N.graph.eval e l.input

/-- The values on the outputs. -/
def outs (N : Ntk) (e : Env) : List Bool := N.pos.map (N.graph.eval e)

/-- The values on the outputs in cycle `c`. -/
def outsAt (N : Ntk) (s : ℕ → Bool) (inp : ℕ → ℕ → Bool) (c : ℕ) : List Bool :=
  N.outs (N.envAt s inp c)

/-- `R` is `A` and `B` side by side. -/
structure IsPar (A B R : Ntk) : Prop where
  ok : R.Ok
  nPi : R.nPi = max A.nPi B.nPi
  inits : R.latches.map (·.init) = A.latches.map (·.init) ++ B.latches.map (·.init)
  nexts : ∀ e, R.nexts e = A.nexts e ++ B.nexts (e.after A.latches.length)
  outs : ∀ e, R.outs e = A.outs e ++ B.outs (e.after A.latches.length)

variable {N A B R : Ntk}

theorem next_eq (N : Ntk) (e : Env) (i : ℕ) : N.next e i = (N.nexts e).getD i false := by
  unfold Ntk.next nexts
  rw [List.getD_eq_getElem?_getD, List.getElem?_map]
  cases N.latches[i]? <;> rfl

theorem isInit_iff {s : ℕ → Bool} : N.IsInit s ↔
    ∀ (i : ℕ) x, (N.latches.map (·.init))[i]? = some x →
      (x = .zero → s i = false) ∧ (x = .one → s i = true) := by
  simp only [IsInit, List.getElem?_map, Option.map_eq_some_iff]
  constructor
  · rintro h i x ⟨l, hl, rfl⟩
    exact h i l hl
  · exact fun h i l hl => h i l.init ⟨l, hl, rfl⟩

theorem IsPar.length (h : IsPar A B R) :
    R.latches.length = A.latches.length + B.latches.length := by
  simpa using congrArg List.length h.inits

/-- The latches of the parts start independently. -/
theorem IsPar.isInit_iff (h : IsPar A B R) {s : ℕ → Bool} :
    R.IsInit s ↔ A.IsInit s ∧ B.IsInit fun i => s (A.latches.length + i) := by
  rw [Ntk.isInit_iff, Ntk.isInit_iff, Ntk.isInit_iff, h.inits]
  constructor
  · refine fun hR => ⟨fun i x hx => hR i x ?_, fun i x hx => hR _ x ?_⟩
    · rwa [List.getElem?_append_left (List.getElem?_eq_some_iff.mp hx).1]
    · rw [List.getElem?_append_right (by simp)]
      simpa using hx
  · rintro ⟨hA, hB⟩ i x hx
    by_cases hi : i < A.latches.length
    · rw [List.getElem?_append_left (by simpa using hi)] at hx
      exact hA i x hx
    · rw [List.getElem?_append_right (by simpa using hi), List.length_map] at hx
      have := hB _ x hx
      rwa [Nat.add_sub_cancel' (Nat.le_of_not_lt hi)] at this

theorem Ok.nexts_congr (hN : N.Ok) {e e' : Env} (hpi : ∀ i < N.nPi, e.pi i = e'.pi i)
    (hbo : ∀ i < N.latches.length, e.bo i = e'.bo i) : N.nexts e = N.nexts e' :=
  List.map_congr_left fun l hl => hN.graph.eval_congr hpi hbo (hN.latches l hl)

theorem Ok.outs_congr (hN : N.Ok) {e e' : Env} (hpi : ∀ i < N.nPi, e.pi i = e'.pi i)
    (hbo : ∀ i < N.latches.length, e.bo i = e'.bo i) : N.outs e = N.outs e' :=
  List.map_congr_left fun l hl => hN.graph.eval_congr hpi hbo (hN.pos l hl)

/-- The outputs depend on the pins of the network only. -/
theorem Ok.outsAt_congr (hN : N.Ok) (s : ℕ → Bool) {inp inp' : ℕ → ℕ → Bool} {c : ℕ}
    (h : ∀ d ≤ c, ∀ i < N.nPi, inp d i = inp' d i) : N.outsAt s inp c = N.outsAt s inp' c :=
  hN.outs_congr (h c (Nat.le_refl c)) fun _ hi =>
    hN.stateAt_congr (fun _ _ => rfl) (fun d hd => h d (Nat.le_of_lt hd)) hi

/-- In every cycle the latches of the whole are the latches of the parts. -/
theorem IsPar.stateAt (h : IsPar A B R) (hA : A.Ok) (hB : B.Ok) (s : ℕ → Bool)
    (inp : ℕ → ℕ → Bool) (c : ℕ) :
    (∀ i < A.latches.length, R.stateAt s inp c i = A.stateAt s inp c i) ∧
      ∀ i < B.latches.length, R.stateAt s inp c (A.latches.length + i) =
        B.stateAt (fun i => s (A.latches.length + i)) inp c i := by
  induction c with
  | zero => exact ⟨fun _ _ => rfl, fun _ _ => rfl⟩
  | succ c ih =>
      have hlen : ∀ e, (A.nexts e).length = A.latches.length := fun e => List.length_map ..
      have hleft : A.nexts (R.envAt s inp c) = A.nexts (A.envAt s inp c) :=
        hA.nexts_congr (fun _ _ => rfl) ih.1
      have hright : B.nexts ((R.envAt s inp c).after A.latches.length) =
          B.nexts (B.envAt (fun i => s (A.latches.length + i)) inp c) :=
        hB.nexts_congr (fun _ _ => rfl) ih.2
      constructor
      · intro i hi
        rw [stateAt_succ, stateAt_succ, next_eq, next_eq, h.nexts, hleft,
          List.getD_append _ _ _ _ ((hlen _).symm ▸ hi)]
      · intro i _
        rw [stateAt_succ, stateAt_succ, next_eq, next_eq, h.nexts, hright,
          List.getD_append_right _ _ _ _ (by rw [hlen]; exact Nat.le_add_right _ _), hlen,
          Nat.add_sub_cancel_left]

/-- The outputs of the whole are those of the parts, one after the other. -/
theorem IsPar.outsAt (h : IsPar A B R) (hA : A.Ok) (hB : B.Ok) (s : ℕ → Bool)
    (inp : ℕ → ℕ → Bool) (c : ℕ) :
    R.outsAt s inp c =
      A.outsAt s inp c ++ B.outsAt (fun i => s (A.latches.length + i)) inp c := by
  obtain ⟨hleft, hright⟩ := h.stateAt hA hB s inp c
  unfold Ntk.outsAt
  have hA' : A.outs (R.envAt s inp c) = A.outs (A.envAt s inp c) :=
    hA.outs_congr (fun _ _ => rfl) hleft
  have hB' : B.outs ((R.envAt s inp c).after A.latches.length) =
      B.outs (B.envAt (fun i => s (A.latches.length + i)) inp c) :=
    hB.outs_congr (fun _ _ => rfl) hright
  rw [h.outs, hA', hB']

/-! ## Many networks -/

/-- Where the latches of network `j` start. -/
def latchStart (Ns : List Ntk) (j : ℕ) : ℕ := ((Ns.take j).map (·.latches.length)).sum

/-- `R` is a list of networks side by side. -/
structure IsParList (Ns : List Ntk) (R : Ntk) : Prop where
  ok : R.Ok
  le : ∀ N ∈ Ns, N.nPi ≤ R.nPi
  widest : Ns ≠ [] → ∃ N ∈ Ns, N.nPi = R.nPi
  latches : R.latches.length = latchStart Ns Ns.length
  init : ∀ s, R.IsInit s ↔
    ∀ (j : ℕ) N, Ns[j]? = some N → N.IsInit fun i => s (latchStart Ns j + i)
  outs : ∀ s inp c, R.outsAt s inp c =
    Ns.zipIdx.flatMap fun p => p.1.outsAt (fun i => s (latchStart Ns p.2 + i)) inp c

theorem latchStart_append (Ns : List Ntk) (N : Ntk) {j : ℕ} (hj : j ≤ Ns.length) :
    latchStart (Ns ++ [N]) j = latchStart Ns j := by
  unfold latchStart
  rw [List.take_append_of_le_length hj]

theorem isParList_nil (hok : R.Ok) (hl : R.latches = []) (hp : R.pos = []) :
    IsParList [] R :=
  ⟨hok, by simp, by simp, by simp [hl, latchStart],
    fun s => by simp [IsInit, hl], fun s inp c => by simp [outsAt, outs, hp]⟩

/-- One more network. -/
theorem IsParList.snoc {Ns : List Ntk} (h : IsParList Ns A) (hB : B.Ok) (hpar : IsPar A B R)
    (hempty : Ns = [] → A.nPi = 0) : IsParList (Ns ++ [B]) R := by
  have hlast : latchStart (Ns ++ [B]) Ns.length = A.latches.length := by
    rw [latchStart_append _ _ (Nat.le_refl _), h.latches]
  have hearly : ∀ {j : ℕ} {N : Ntk}, Ns[j]? = some N →
      latchStart (Ns ++ [B]) j = latchStart Ns j := fun hj =>
    latchStart_append _ _ (Nat.le_of_lt (List.getElem?_eq_some_iff.mp hj).1)
  refine ⟨hpar.ok, fun N hN => ?_, fun _ => ?_, ?_, fun s => ?_, fun s inp c => ?_⟩
  · rw [hpar.nPi]
    rcases List.mem_append.mp hN with hN | hN
    · exact (h.le N hN).trans (Nat.le_max_left _ _)
    · rw [List.mem_singleton.mp hN]
      exact Nat.le_max_right _ _
  · rw [hpar.nPi]
    rcases Nat.le_total A.nPi B.nPi with hle | hle
    · exact ⟨B, by simp, (Nat.max_eq_right hle).symm⟩
    · rw [Nat.max_eq_left hle]
      by_cases hNs : Ns = []
      · exact ⟨B, by simp, Nat.le_antisymm hle ((hempty hNs).trans_le (Nat.zero_le _))⟩
      · obtain ⟨N, hN, heq⟩ := h.widest hNs
        exact ⟨N, List.mem_append_left _ hN, heq⟩
  · rw [hpar.length, h.latches]
    simp [latchStart]
  · rw [hpar.isInit_iff, h.init]
    constructor
    · rintro ⟨hA, hBi⟩ j N hj
      by_cases hlt : j < Ns.length
      · rw [List.getElem?_append_left hlt] at hj
        rw [hearly hj]
        exact hA j N hj
      · have hjn : j = Ns.length := by
          have := (List.getElem?_eq_some_iff.mp hj).1
          simp only [List.length_append, List.length_singleton] at this
          omega
        subst hjn
        rw [List.getElem?_concat_length] at hj
        rw [hlast, ← Option.some.inj hj]
        exact hBi
    · intro hall
      refine ⟨fun j N hj => ?_, ?_⟩
      · have := hall j N (by rw [List.getElem?_append_left (List.getElem?_eq_some_iff.mp hj).1, hj])
        rwa [hearly hj] at this
      · have := hall Ns.length B List.getElem?_concat_length
        rwa [hlast] at this
  · rw [hpar.outsAt h.ok hB, h.outs, List.zipIdx_append, List.flatMap_append]
    congr 1
    · refine List.flatMap_congr fun p hp => ?_
      rw [hearly (List.mem_zipIdx_iff_getElem?.mp hp)]
    · simp [hlast]

end Ntk

end ExtFolding.Aig
