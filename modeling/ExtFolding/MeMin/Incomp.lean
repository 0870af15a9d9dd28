import ExtFolding.Lib.Marking
import ExtFolding.MeMin.CubeWords
import ExtFolding.MeMin.Machine

/-!
# `memin/minimizer.cpp`: the incompatibility matrix

Two states are incompatible when some word takes them to rows with different outputs. The matrix
is seeded in its upper half and closed under predecessors by a recursion that stops at the entries
that are set; the maps of predecessors are traversed in any order. Sizes and indices of the matrix
are `int`s, so there is none for 46341 states and more.
-/

namespace ExtFolding.MeMin

/-! ## The code -/

/-- array index, an `int` whenever the size of the array is one -/
def ai (x y ySize : ℕ) : ℕ := x * ySize + y

/-- `nStates*nStates`, which overflows an `int` together with the index of the last entry. -/
def matrixSize (nStates : ℕ) : Option ℕ :=
  if nStates * nStates < 2 ^ 31 then some (nStates * nStates) else none

/-- An `unordered_map<IncSpecSeq*, vector<int> >`. -/
abbrev PredMap := List (IncSpecSeq × List ℕ)

/-- `pred[input].push_back(s)` -/
def PredMap.push (pred : PredMap) (input : IncSpecSeq) (s : ℕ) : PredMap :=
  if pred.any (·.1 = input) then
    pred.map fun e => if e.1 = input then (e.1, e.2 ++ [s]) else e
  else pred ++ [(input, [s])]

def computePredecessorMap (states : List (List Trans)) : List PredMap :=
  states.zipIdx.foldl (fun pred e =>
    e.1.foldl (fun pred t => pred.modify t.2.1 fun m => PredMap.push m t.1 e.2) pred)
    (List.replicate states.length [])

/-- The entries of a matrix, set in both triangles. -/
def incompEntries (nStates : ℕ) : Marking (ℕ × ℕ) (List Bool) where
  nodes := Finset.range nStates ×ˢ Finset.range nStates
  mirror := Prod.swap
  ok m := m.length = nStates * nStates
  marked m p := m.getD (ai p.1 p.2 nStates) false
  mark m p := (m.set (ai p.1 p.2 nStates) true).set (ai p.2 p.1 nStates) true
  mirror_mem h := by
    rw [Finset.mem_product] at h ⊢
    exact h.symm
  mirror_mirror p := p.swap_swap
  ok_mark hs _ := by rw [List.length_set, List.length_set, hs]
  marked_mark {m p q} hs hp hq := by
    obtain ⟨⟨p₁, p₂⟩, q₁, q₂⟩ := p, q
    rw [Finset.mem_product, Finset.mem_range, Finset.mem_range] at hp hq
    have heq : ∀ x y : ℕ, y < nStates → (ai q₁ q₂ nStates = ai x y nStates ↔ (q₁, q₂) = (x, y)) :=
      fun x y hy => ⟨fun h => by
        obtain ⟨rfl, rfl⟩ := frame_pin_inj hq.2 hy h
        rfl, fun h => by
        obtain ⟨rfl, rfl⟩ := Prod.mk.inj h
        rfl⟩
    rw [Marking.getD_set (by rw [List.length_set, hs]; exact slot_lt hp.2 hp.1),
      Marking.getD_set (by rw [hs]; exact slot_lt hp.1 hp.2)]
    simp only [heq _ _ hp.1, heq _ _ hp.2, Prod.swap]
    by_cases h₁ : (q₁, q₂) = (p₂, p₁) <;> by_cases h₂ : (q₁, q₂) = (p₁, p₂) <;> simp [h₁, h₂]

/-- The pairs of predecessors under overlapping inputs, as the four loops of
`propagateIncompStates` meet them. -/
def predPairs (pred : ℕ → PredMap) (p : ℕ × ℕ) : List (ℕ × ℕ) :=
  (pred p.1).flatMap fun it1 => (pred p.2).flatMap fun it2 =>
    if it1.1.isDisjoint it2.1 then []
    else it1.2.flatMap fun predS1 => it2.2.map fun predS2 => (predS1, predS2)

/-- A pair that is not set is set in both triangles, and the recursion goes on from it. -/
def propagateIncompStates (pred : ℕ → PredMap) (nStates fuel s1 s2 : ℕ) (incompMatrix : List Bool) :
    Option (List Bool) :=
  (incompEntries nStates).visit (predPairs pred) fuel (s1, s2) incompMatrix

/-- Overlapping rows have incompatible outputs. -/
def incompOutputFound (succMap1 succMap2 : List Trans) : Bool :=
  succMap1.any fun it1 => succMap2.any fun it2 =>
    !it1.1.isDisjoint it2.1 && !it1.2.2.isCompatible it2.2.2

/-- The pairs of the two loops, `s2` from `s1` on. -/
def upperPairs (nStates : ℕ) : List (ℕ × ℕ) :=
  (List.range nStates).flatMap fun s1 =>
    (List.range' s1 (nStates - s1)).map fun s2 => (s1, s2)

/-- The body of the two loops. The recursion sets an entry at every level, so `nStates * nStates`
levels are enough. -/
def incompStep (states : List (List Trans)) (pred : ℕ → PredMap) (m : List Bool) (p : ℕ × ℕ) :
    Option (List Bool) :=
  let nStates := states.length
  if (incompEntries nStates).marked m p then some m
  else if incompOutputFound (rowsOf states p.1) (rowsOf states p.2) then
    propagateIncompStates pred nStates (nStates * nStates) p.1 p.2
      ((incompEntries nStates).mark m p)
  else some m

/-- The maps in the order in which each is traversed. -/
def predOf (order : ℕ → PredMap → PredMap) (states : List (List Trans)) (s : ℕ) : PredMap :=
  order s ((computePredecessorMap states).getD s [])

/-- The loops end with the entry for the last state and itself. -/
def computeIncompMatrix (order : ℕ → PredMap → PredMap) (states : List (List Trans))
    (incompMatrix : List Bool) : Option (List Bool) := do
  let _ ← matrixSize states.length
  (upperPairs states.length).foldlM (incompStep states (predOf order states)) incompMatrix

theorem matrixSize_some {n : ℕ} (h : n ≤ 46340) : matrixSize n = some (n * n) :=
  if_pos ((Nat.mul_le_mul h h).trans_lt (by norm_num))

theorem matrixSize_none {n : ℕ} (h : 46340 < n) : matrixSize n = none :=
  if_neg (Nat.not_lt.mpr ((show 2 ^ 31 ≤ 46341 * 46341 by norm_num).trans (Nat.mul_le_mul h h)))

/-! ## Predecessors -/

variable {states : List (List Trans)} {ni no : ℕ}

theorem mem_push {pred : PredMap} {input i : IncSpecSeq} {s x : ℕ} :
    (∃ e ∈ pred.push input s, e.1 = i ∧ x ∈ e.2) ↔
      (∃ e ∈ pred, e.1 = i ∧ x ∈ e.2) ∨ (input = i ∧ s = x) := by
  unfold PredMap.push
  split
  · next h =>
      obtain ⟨e₀, he₀, hi₀⟩ := List.any_eq_true.mp h
      rw [decide_eq_true_eq] at hi₀
      constructor
      · rintro ⟨e, he, rfl, hx⟩
        obtain ⟨e', he', rfl⟩ := List.mem_map.mp he
        by_cases hin : e'.1 = input
        · rw [if_pos hin] at hx ⊢
          rcases List.mem_append.mp hx with hx | hx
          · exact Or.inl ⟨e', he', rfl, hx⟩
          · exact Or.inr ⟨hin.symm, (List.mem_singleton.mp hx).symm⟩
        · rw [if_neg hin] at hx ⊢
          exact Or.inl ⟨e', he', rfl, hx⟩
      · rintro (⟨e, he, rfl, hx⟩ | ⟨rfl, rfl⟩)
        · refine ⟨_, List.mem_map.mpr ⟨e, he, rfl⟩, ?_, ?_⟩
          · split <;> rfl
          · split
            · exact List.mem_append_left _ hx
            · exact hx
        · refine ⟨_, List.mem_map.mpr ⟨e₀, he₀, rfl⟩, ?_, ?_⟩
          · rw [if_pos hi₀]
            exact hi₀
          · rw [if_pos hi₀]
            exact List.mem_append_right _ (List.mem_singleton_self s)
  · simp only [List.mem_append, List.mem_singleton, or_and_right, exists_or, exists_eq_left]
    exact or_congr_right (and_congr_right fun _ => eq_comm)

/-- The map after the rows in `done` have been entered. -/
def Entered (states : List (List Trans)) (done : ℕ → Trans → Prop) (pred : List PredMap) : Prop :=
  pred.length = states.length ∧ ∀ n < states.length, ∀ i x,
    (∃ e ∈ pred.getD n [], e.1 = i ∧ x ∈ e.2) ↔ ∃ t, done x t ∧ t.1 = i ∧ t.2.1 = n

theorem Entered.push {done : ℕ → Trans → Prop} {pred : List PredMap} (h : Entered states done pred)
    {t : Trans} {s : ℕ} (ht : t.2.1 < states.length) :
    Entered states (fun x t' => done x t' ∨ (x = s ∧ t' = t))
      (pred.modify t.2.1 fun m => PredMap.push m t.1 s) := by
  obtain ⟨hlen, hmem⟩ := h
  refine ⟨by rw [List.length_modify, hlen], fun n hn i x => ?_⟩
  have hget : (pred.modify t.2.1 fun m => PredMap.push m t.1 s).getD n [] =
      if t.2.1 = n then (pred.getD n []).push t.1 s else pred.getD n [] := by
    rw [List.getD_eq_getElem?_getD, List.getD_eq_getElem?_getD, List.getElem?_modify,
      List.getElem?_eq_getElem (hlen.symm ▸ hn)]
    split <;> rfl
  have hnew : (∃ t', (done x t' ∨ (x = s ∧ t' = t)) ∧ t'.1 = i ∧ t'.2.1 = n) ↔
      (∃ t', done x t' ∧ t'.1 = i ∧ t'.2.1 = n) ∨ (x = s ∧ t.1 = i ∧ t.2.1 = n) := by
    simp only [or_and_right, exists_or]
    refine or_congr_right ⟨?_, fun ⟨hx, h⟩ => ⟨t, ⟨hx, rfl⟩, h⟩⟩
    rintro ⟨t', ⟨hx, rfl⟩, h⟩
    exact ⟨hx, h⟩
  rw [hget, hnew, ← hmem n hn]
  split
  · next hn =>
      rw [mem_push]
      exact or_congr_right ⟨fun ⟨h₁, h₂⟩ => ⟨h₂.symm, h₁, hn⟩, fun ⟨h₁, h₂, _⟩ => ⟨h₂, h₁.symm⟩⟩
  · next hn => exact (or_iff_left fun ⟨_, _, h⟩ => hn h).symm

theorem Entered.congr {done done' : ℕ → Trans → Prop} {pred : List PredMap}
    (h : Entered states done pred) (hd : ∀ x t, done x t ↔ done' x t) :
    Entered states done' pred := by
  obtain rfl : done = done' := funext fun x => funext fun t => propext (hd x t)
  exact h

/-- The keys are the inputs of the rows that lead to a state. -/
theorem computePredecessorMap_spec (h : NextOk states) :
    Entered states (fun x t => t ∈ rowsOf states x) (computePredecessorMap states) := by
  have hstart : Entered states (fun _ _ => False) (List.replicate states.length []) := by
    refine ⟨List.length_replicate, fun n hn i x => ?_⟩
    simp [List.getD_eq_getElem?_getD, hn]
  have hrun := foldl_inv
    (f := fun pred (e : List Trans × ℕ) =>
      e.1.foldl (fun pred t => pred.modify t.2.1 fun m => PredMap.push m t.1 e.2) pred)
    (fun pre pred => Entered states (fun x t => ∃ e ∈ pre, e.2 = x ∧ t ∈ e.1) pred)
    (l := states.zipIdx) (fun pre e post pred hl hpred => by
      have hin : e.1 ∈ states :=
        List.mem_of_getElem? (List.mem_zipIdx_iff_getElem?.mp (hl ▸ by simp : e ∈ states.zipIdx))
      have hrow := foldl_inv
        (f := fun pred (t : Trans) => pred.modify t.2.1 fun m => PredMap.push m t.1 e.2)
        (fun rows pred => Entered states
          (fun x t => (∃ e ∈ pre, e.2 = x ∧ t ∈ e.1) ∨ (x = e.2 ∧ t ∈ rows)) pred)
        (l := e.1) (fun rows t rest pred' hrows hpred' => by
          refine (hpred'.push (s := e.2) (h e.1 hin t (hrows ▸ by simp))).congr fun x t' => ?_
          rw [or_assoc, ← and_or_left, List.mem_append, List.mem_singleton])
        (hpred.congr fun x t => by simp)
      refine hrow.congr fun x t => ?_
      simp only [List.mem_append, List.mem_singleton, or_and_right, exists_or, exists_eq_left]
      exact or_congr_right (and_congr_left fun _ => eq_comm))
    (hstart.congr fun x t => by simp)
  refine hrun.congr fun x t => ?_
  constructor
  · rintro ⟨⟨trans, y⟩, he, rfl, ht⟩
    have hget := List.mk_mem_zipIdx_iff_getElem?.mp he
    unfold rowsOf
    rwa [List.getD_eq_getElem?_getD, hget]
  · intro ht
    exact ⟨(rowsOf states x, x),
      List.mk_mem_zipIdx_iff_getElem?.mpr (getElem?_rowsOf (lt_of_mem_rowsOf ht)), rfl, ht⟩

variable {order : ℕ → PredMap → PredMap}

theorem mem_predPairs (h : NextOk states) (horder : ∀ s m, (order s m).Perm m) {p c : ℕ × ℕ}
    (hp : p.1 < states.length ∧ p.2 < states.length) :
    c ∈ predPairs (predOf order states) p ↔
      ∃ t₁ ∈ rowsOf states c.1, ∃ t₂ ∈ rowsOf states c.2,
        t₁.2.1 = p.1 ∧ t₂.2.1 = p.2 ∧ t₁.1.isDisjoint t₂.1 = false := by
  obtain ⟨-, hmem⟩ := computePredecessorMap_spec h
  obtain ⟨c₁, c₂⟩ := c
  unfold predPairs predOf
  simp only [List.mem_flatMap, (horder _ _).mem_iff]
  constructor
  · rintro ⟨e₁, he₁, e₂, he₂, hc⟩
    split at hc
    · exact absurd hc List.not_mem_nil
    · next hdis =>
        obtain ⟨x, hx, hc⟩ := List.mem_flatMap.mp hc
        obtain ⟨y, hy, heq⟩ := List.mem_map.mp hc
        cases heq
        obtain ⟨t₁, ht₁, hi₁, hn₁⟩ := (hmem p.1 hp.1 e₁.1 c₁).mp ⟨e₁, he₁, rfl, hx⟩
        obtain ⟨t₂, ht₂, hi₂, hn₂⟩ := (hmem p.2 hp.2 e₂.1 c₂).mp ⟨e₂, he₂, rfl, hy⟩
        exact ⟨t₁, ht₁, t₂, ht₂, hn₁, hn₂, by rw [hi₁, hi₂]; simpa using hdis⟩
  · rintro ⟨t₁, ht₁, t₂, ht₂, hn₁, hn₂, hdis⟩
    obtain ⟨e₁, he₁, hi₁, hx⟩ := (hmem p.1 hp.1 t₁.1 c₁).mpr ⟨t₁, ht₁, rfl, hn₁⟩
    obtain ⟨e₂, he₂, hi₂, hy⟩ := (hmem p.2 hp.2 t₂.1 c₂).mpr ⟨t₂, ht₂, rfl, hn₂⟩
    refine ⟨e₁, he₁, e₂, he₂, ?_⟩
    rw [hi₁, hi₂, if_neg (by rw [hdis]; exact Bool.false_ne_true)]
    exact List.mem_flatMap.mpr ⟨c₁, hx, List.mem_map.mpr ⟨c₂, hy, rfl⟩⟩

/-! ## Incompatible states -/

/-- A run from a state over a word, and the row it takes at the last letter. -/
inductive LastRow (ni : ℕ) (states : List (List Trans)) :
    ℕ → List (Fin ni → Bool) → Trans → Prop
  | last {s a t} (ht : t ∈ rowsOf states s) (ha : a ∈ t.1.words ni) : LastRow ni states s [a] t
  | step {s a w t t'} (ht : t ∈ rowsOf states s) (ha : a ∈ t.1.words ni)
      (h : LastRow ni states t.2.1 w t') : LastRow ni states s (a :: w) t'

/-- Both specified and different in some bit. -/
def Clash (o₁ o₂ : IncSpecSeq) : Prop :=
  ∃ p u v, o₁.cube p = some u ∧ o₂.cube p = some v ∧ u ≠ v

/-- Some word takes the two states to rows whose outputs clash. -/
def Incompatible (ni : ℕ) (states : List (List Trans)) (s t : ℕ) : Prop :=
  ∃ w r₁ r₂, LastRow ni states s w r₁ ∧ LastRow ni states t w r₂ ∧ Clash r₁.2.2 r₂.2.2

theorem Clash.symm {o₁ o₂ : IncSpecSeq} (h : Clash o₁ o₂) : Clash o₂ o₁ := by
  obtain ⟨p, u, v, hu, hv, hne⟩ := h
  exact ⟨p, v, u, hv, hu, hne.symm⟩

theorem Incompatible.symm {s t : ℕ} (h : Incompatible ni states s t) :
    Incompatible ni states t s := by
  obtain ⟨w, r₁, r₂, h₁, h₂, hc⟩ := h
  exact ⟨w, r₂, r₁, h₂, h₁, hc.symm⟩

theorem isCompatible_iff_not_clash {o₁ o₂ : IncSpecSeq} (h : o₁.Wf no) :
    o₁.isCompatible o₂ = true ↔ ¬ Clash o₁ o₂ := by
  rw [IncSpecSeq.isCompatible_iff h]
  constructor
  · rintro hc ⟨p, u, v, hu, hv, hne⟩
    exact hne (hc p u v hu hv)
  · exact fun hc p u v hu hv => by_contra fun hne => hc ⟨p, u, v, hu, hv, hne⟩

/-- Inputs overlap when they have a word in common. -/
theorem isDisjoint_false_iff {a b : IncSpecSeq} (ha : a.Wf ni) (hb : b.Wf ni) :
    a.isDisjoint b = false ↔ ∃ w, w ∈ a.words ni ∧ w ∈ b.words ni := by
  rw [← Bool.not_eq_true, IncSpecSeq.isDisjoint_iff ha, not_not,
    ← IncSpecSeq.words_inter_nonempty_iff ha hb]
  rfl

theorem incompOutputFound_iff (h : MachOk ni no states) {s t : ℕ} :
    incompOutputFound (rowsOf states s) (rowsOf states t) = true ↔
      ∃ r₁ ∈ rowsOf states s, ∃ r₂ ∈ rowsOf states t,
        (∃ w, w ∈ r₁.1.words ni ∧ w ∈ r₂.1.words ni) ∧ Clash r₁.2.2 r₂.2.2 := by
  unfold incompOutputFound
  simp only [List.any_eq_true, Bool.and_eq_true, Bool.not_eq_true']
  refine exists_congr fun r₁ => and_congr_right fun h₁ => exists_congr fun r₂ =>
    and_congr_right fun h₂ => ?_
  rw [isDisjoint_false_iff (h.input_wf h₁) (h.input_wf h₂), ← Bool.not_eq_true,
    isCompatible_iff_not_clash (h.output_wf h₁), not_not]

/-! ## The closure -/

theorem mem_entries {n : ℕ} {p : ℕ × ℕ} : p ∈ (incompEntries n).nodes ↔ p.1 < n ∧ p.2 < n := by
  show p ∈ Finset.range n ×ˢ Finset.range n ↔ _
  rw [Finset.mem_product, Finset.mem_range, Finset.mem_range]

/-- The pairs of predecessors form a graph on the entries. -/
theorem predPairs_graph (h : MachOk ni no states) (horder : ∀ s m, (order s m).Perm m) :
    (incompEntries states.length).Graph (predPairs (predOf order states)) := by
  refine ⟨fun hp hc => ?_, fun {p c} hp hc => ?_⟩
  · obtain ⟨t₁, ht₁, t₂, ht₂, -⟩ := (mem_predPairs h.next horder (mem_entries.mp hp)).mp hc
    exact mem_entries.mpr ⟨lt_of_mem_rowsOf ht₁, lt_of_mem_rowsOf ht₂⟩
  · obtain ⟨t₁, ht₁, t₂, ht₂, hn₁, hn₂, hdis⟩ :=
      (mem_predPairs h.next horder (mem_entries.mp hp).symm).mp hc
    refine (mem_predPairs h.next horder (mem_entries.mp hp)).mpr ⟨t₂, ht₂, t₁, ht₁, hn₂, hn₁, ?_⟩
    rw [isDisjoint_false_iff (h.input_wf ht₁) (h.input_wf ht₂)] at hdis
    rw [isDisjoint_false_iff (h.input_wf ht₂) (h.input_wf ht₁)]
    exact hdis.imp fun _ => And.symm

/-- A word before the word that tells the successors apart. -/
theorem incompatible_inherited (h : MachOk ni no states) (horder : ∀ s m, (order s m).Perm m) :
    (incompEntries states.length).Inherited (predPairs (predOf order states))
      fun p => Incompatible ni states p.1 p.2 := by
  refine ⟨fun {p c} hp hinc hc => ?_, fun _ hinc => hinc.symm⟩
  obtain ⟨t₁, ht₁, t₂, ht₂, hn₁, hn₂, hdis⟩ :=
    (mem_predPairs h.next horder (mem_entries.mp hp)).mp hc
  obtain ⟨a, ha₁, ha₂⟩ := (isDisjoint_false_iff (h.input_wf ht₁) (h.input_wf ht₂)).mp hdis
  obtain ⟨w, r₁, r₂, h₁, h₂, hclash⟩ := hinc
  exact ⟨a :: w, r₁, r₂, .step ht₁ ha₁ (hn₁ ▸ h₁), .step ht₂ ha₂ (hn₂ ▸ h₂), hclash⟩

/-- The matrix after the pairs `pre` of the upper half. -/
structure MatrixInv (ni : ℕ) (states : List (List Trans)) (pred : ℕ → PredMap)
    (pre : List (ℕ × ℕ)) (m : List Bool) : Prop where
  ok : (incompEntries states.length).ok m
  even : (incompEntries states.length).Even m
  closed : ∀ p ∈ (incompEntries states.length).nodes, (incompEntries states.length).marked m p →
    (incompEntries states.length).Closed (predPairs pred) m p
  sound : ∀ p ∈ (incompEntries states.length).nodes, (incompEntries states.length).marked m p →
    Incompatible ni states p.1 p.2
  seeds : ∀ p ∈ pre, incompOutputFound (rowsOf states p.1) (rowsOf states p.2) = true →
    (incompEntries states.length).marked m p = true

theorem MatrixInv.step (h : MachOk ni no states) (horder : ∀ s m, (order s m).Perm m)
    {pre : List (ℕ × ℕ)} {m : List Bool} (hm : MatrixInv ni states (predOf order states) pre m)
    {p : ℕ × ℕ} (hp : p ∈ (incompEntries states.length).nodes)
    (hpre : ∀ q ∈ pre, q ∈ (incompEntries states.length).nodes) :
    ∃ m', incompStep states (predOf order states) m p = some m' ∧
      MatrixInv ni states (predOf order states) (pre ++ [p]) m' := by
  set M := incompEntries states.length
  have hgraph := predPairs_graph h horder
  unfold incompStep
  by_cases hset : M.marked m p = true
  · refine ⟨m, if_pos hset, { hm with seeds := fun q hq hfound => ?_ }⟩
    rcases List.mem_append.mp hq with hq | hq
    · exact hm.seeds q hq hfound
    · rwa [List.mem_singleton.mp hq]
  · by_cases hfound : incompOutputFound (rowsOf states p.1) (rowsOf states p.2) = true
    · have hcard : (M.unmarked (M.mark m p)).card < states.length * states.length :=
        calc (M.unmarked (M.mark m p)).card
            < (M.unmarked m).card := Marking.unmarked_mark hm.ok hp (by simpa using hset)
          _ ≤ M.nodes.card := Finset.card_le_card (Finset.filter_subset ..)
          _ = states.length * states.length := by
            show (Finset.range states.length ×ˢ Finset.range states.length).card = _
            rw [Finset.card_product, Finset.card_range]
      obtain ⟨m', hrun, hm'⟩ := Marking.visit_spec hgraph _ p (M.mark m p)
        (M.ok_mark hm.ok hp) (hm.even.mark hm.ok hp) hp hcard
      have hsub : M.Sub m m' := (Marking.sub_mark hm.ok hp).trans hm'.sub
      have hstart := hm'.start p (List.mem_singleton_self p)
      have hinc : Incompatible ni states p.1 p.2 := by
        obtain ⟨r₁, h₁, r₂, h₂, ⟨w, hw₁, hw₂⟩, hclash⟩ := (incompOutputFound_iff h).mp hfound
        exact ⟨[w], r₁, r₂, .last h₁ hw₁, .last h₂ hw₂, hclash⟩
      refine ⟨m', (if_neg hset).trans ((if_pos hfound).trans hrun), hm'.ok, hm'.even,
        fun q hq hmq => ?_, fun q hq hmq => ?_, fun q hq hfq => ?_⟩
      · rcases hm'.closed q hq hmq with hmq | hcl
        · rcases (M.marked_mark hm.ok hp hq).mp hmq with rfl | rfl | hmq
          · exact hstart
          · exact hstart.mirror hgraph hm'.even hp
          · exact (hm.closed q hq hmq).sub hgraph hq hsub
        · exact hcl
      · refine hm'.sound _ (incompatible_inherited h horder)
          (fun a ha => List.mem_singleton.mp ha ▸ hinc) (fun b hb hmb => ?_) q hq hmq
        rcases (M.marked_mark hm.ok hp hb).mp hmb with rfl | rfl | hmb
        · exact hinc
        · exact hinc.symm
        · exact hm.sound b hb hmb
      · rcases List.mem_append.mp hq with hq | hq
        · exact hsub q (hpre q hq) (hm.seeds q hq hfq)
        · rw [List.mem_singleton.mp hq]
          exact hm'.sub p hp (Marking.marked_mark_self hm.ok hp)
    · refine ⟨m, (if_neg hset).trans (if_neg hfound), { hm with seeds := fun q hq hfq => ?_ }⟩
      rcases List.mem_append.mp hq with hq | hq
      · exact hm.seeds q hq hfq
      · rw [List.mem_singleton.mp hq] at hfq
        exact absurd hfq hfound

theorem mem_upperPairs {n : ℕ} {p : ℕ × ℕ} : p ∈ upperPairs n ↔ p.1 ≤ p.2 ∧ p.2 < n := by
  obtain ⟨s, t⟩ := p
  unfold upperPairs
  simp only [List.mem_flatMap, List.mem_range, List.mem_map, List.mem_range'_1, Prod.mk.injEq]
  constructor
  · rintro ⟨s', hs', t', ⟨h₁, h₂⟩, rfl, rfl⟩
    exact ⟨h₁, by omega⟩
  · rintro ⟨h₁, h₂⟩
    exact ⟨s, by omega, t, ⟨h₁, by omega⟩, rfl, rfl⟩

/-- Everything that a word tells apart is found. -/
theorem MatrixInv.complete (h : MachOk ni no states) (horder : ∀ s m, (order s m).Perm m)
    {m : List Bool}
    (hm : MatrixInv ni states (predOf order states) (upperPairs states.length) m) {s t : ℕ}
    (hinc : Incompatible ni states s t) :
    (incompEntries states.length).marked m (s, t) = true := by
  obtain ⟨w, r₁, r₂, h₁, h₂, hclash⟩ := hinc
  induction h₁ generalizing t with
  | @last s a r₁ hr₁ ha₁ =>
      cases h₂ with
      | @last _ _ r₂ hr₂ ha₂ =>
          have hs := lt_of_mem_rowsOf hr₁
          have ht := lt_of_mem_rowsOf hr₂
          -- the pair itself or its mirror image is in the upper half
          rcases Nat.le_total s t with hle | hle
          · exact hm.seeds (s, t) (mem_upperPairs.mpr ⟨hle, ht⟩)
              ((incompOutputFound_iff h).mpr ⟨r₁, hr₁, r₂, hr₂, ⟨a, ha₁, ha₂⟩, hclash⟩)
          · exact hm.even (t, s) (mem_entries.mpr ⟨ht, hs⟩)
              (hm.seeds (t, s) (mem_upperPairs.mpr ⟨hle, hs⟩)
                ((incompOutputFound_iff h).mpr ⟨r₂, hr₂, r₁, hr₁, ⟨a, ha₂, ha₁⟩, hclash.symm⟩))
      | step _ _ h₂ => cases h₂
  | @step s a w t₁ r₁ ht₁ ha₁ hrest ih =>
      cases h₂ with
      | last _ _ => cases hrest
      | @step _ _ _ t₂ _ ht₂ ha₂ h₂ =>
          have hn₁ := h.next.row_lt ht₁
          have hn₂ := h.next.row_lt ht₂
          refine hm.closed (t₁.2.1, t₂.2.1) (mem_entries.mpr ⟨hn₁, hn₂⟩) (ih h₂ hclash) (s, t) ?_
          exact (mem_predPairs h.next horder ⟨hn₁, hn₂⟩).mpr ⟨t₁, ht₁, t₂, ht₂, rfl, rfl,
            (isDisjoint_false_iff (h.input_wf ht₁) (h.input_wf ht₂)).mpr ⟨a, ha₁, ha₂⟩⟩

/-- The matrix of a machine. -/
def IncompMatrix (ni : ℕ) (states : List (List Trans)) (m : List Bool) : Prop :=
  ∀ s < states.length, ∀ t < states.length,
    (m.getD (ai s t states.length) false = true ↔ Incompatible ni states s t)

theorem IncompMatrix.symm {m : List Bool} (h : IncompMatrix ni states m) {s t : ℕ}
    (hs : s < states.length) (ht : t < states.length) :
    m.getD (ai s t states.length) false = m.getD (ai t s states.length) false := by
  rw [Bool.eq_iff_iff, h s hs t ht, h t ht s hs]
  exact ⟨Incompatible.symm, Incompatible.symm⟩

theorem exists_incompMatrix (h : MachOk ni no states) (hsize : states.length ≤ 46340)
    (horder : ∀ s m, (order s m).Perm m) :
    ∃ m, computeIncompMatrix order states (List.replicate (states.length * states.length) false) =
      some m ∧ IncompMatrix ni states m := by
  set M := incompEntries states.length
  set start := List.replicate (states.length * states.length) false
  have hfalse : ∀ p, M.marked start p ≠ true := by
    intro p hm
    change start.getD (ai p.1 p.2 states.length) false = true at hm
    rw [List.getD_eq_getElem?_getD, List.getElem?_replicate] at hm
    split at hm <;> exact Bool.false_ne_true hm
  have hstart : MatrixInv ni states (predOf order states) [] start :=
    ⟨List.length_replicate, fun p _ hm => absurd hm (hfalse p),
      fun p _ hm => absurd hm (hfalse p), fun p _ hm => absurd hm (hfalse p), by simp⟩
  have hmem : ∀ p ∈ upperPairs states.length, p ∈ M.nodes := by
    intro p hp
    obtain ⟨h₁, h₂⟩ := mem_upperPairs.mp hp
    exact mem_entries.mpr ⟨by omega, h₂⟩
  obtain ⟨m, hrun, hm⟩ := foldlM_some (MatrixInv ni states (predOf order states))
    (l := upperPairs states.length) (by
      intro pre p post m hl hm
      exact hm.step h horder (hmem p (hl ▸ by simp)) fun q hq => hmem q (hl ▸ by simp [hq]))
    hstart
  have hloops : computeIncompMatrix order states start = some m := by
    rw [computeIncompMatrix, matrixSize_some hsize]
    exact hrun
  exact ⟨m, hloops, fun s hs t ht => ⟨fun hset => hm.sound (s, t) (mem_entries.mpr ⟨hs, ht⟩) hset,
    fun hinc => hm.complete h horder hinc⟩⟩

/-- When the matrix has a size, the recursion ends, and the matrix is the incompatibility of
states. -/
theorem computeIncompMatrix_exact (h : MachOk ni no states) (hsize : states.length ≤ 46340)
    (horder : ∀ s m, (order s m).Perm m) :
    ∃ m, computeIncompMatrix order states (List.replicate (states.length * states.length) false) =
        some m ∧
      (∀ s < states.length, ∀ t < states.length,
        (m.getD (ai s t states.length) false = true ↔ Incompatible ni states s t)) ∧
      ∀ s < states.length, ∀ t < states.length,
        m.getD (ai s t states.length) false = m.getD (ai t s states.length) false := by
  obtain ⟨m, hrun, hm⟩ := exists_incompMatrix h hsize horder
  exact ⟨m, hrun, hm, fun s hs t ht => hm.symm hs ht⟩

/-- Two states that agree on 0 and lead each other to different outputs on 1, and one whose own
rows disagree. -/
def clashMachine : List (List Trans) :=
  let on := IncSpecSeq.ofString ['1']
  let off := IncSpecSeq.ofString ['0']
  let any := IncSpecSeq.ofString ['-']
  [[(off, 1, any), (on, 2, on)], [(off, 0, any), (on, 2, off)], [(on, 2, on), (any, 2, off)]]

theorem clashMachine_ok : MachOk 1 1 clashMachine := by
  have hwf : ∀ c : Char, (IncSpecSeq.ofString [c]).Wf 1 := fun c => IncSpecSeq.ofString_wf [c]
  refine ⟨by unfold NextOk; decide, ?_, ?_⟩ <;> simp [clashMachine, hwf, -Prod.forall]

theorem computeIncompMatrix_clash :
    ∃ m, computeIncompMatrix (fun _ m => m) clashMachine (List.replicate (3 * 3) false) = some m ∧
      (∀ s < 3, ∀ t < 3, (m.getD (ai s t 3) false = true ↔ Incompatible 1 clashMachine s t)) ∧
      ∀ s < 3, ∀ t < 3, m.getD (ai s t 3) false = m.getD (ai t s 3) false :=
  computeIncompMatrix_exact clashMachine_ok (by decide) fun _ _ => List.Perm.refl _

/-- Without rows, too, the index of the last entry is computed. -/
theorem computeIncompMatrix_46341 :
    MachOk 1 1 (List.replicate 46341 []) ∧
      ∀ (order : ℕ → PredMap → PredMap) (m : List Bool),
        computeIncompMatrix order (List.replicate 46341 []) m = none := by
  have hnil : ∀ trans ∈ List.replicate 46341 ([] : List Trans), ∀ t, t ∉ trans :=
    fun trans htrans t ht => by
      rw [List.eq_of_mem_replicate htrans] at ht
      exact List.not_mem_nil ht
  refine ⟨⟨fun trans h t ht => absurd ht (hnil trans h t), fun trans h t ht =>
    absurd ht (hnil trans h t), fun trans h t ht => absurd ht (hnil trans h t)⟩, fun order m => ?_⟩
  rw [computeIncompMatrix, List.length_replicate, matrixSize_none (by norm_num)]
  rfl

end ExtFolding.MeMin
