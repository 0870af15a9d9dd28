import Mathlib.Data.List.Basic
import Mathlib.Tactic

/-!
# `memin/minisat/mtl/Heap.h`: the heap of variables

A binary heap of numbers that knows the place of each of them. Moving an element up or down keeps
what the heap holds; whether the top is the least element depends on the comparison only.
-/

namespace ExtFolding.Minisat

/-! ## The code -/

/-- `heap` and `indices`; an index of `none` is `-1`. -/
structure Heap where
  heap : List ℕ
  indices : ℕ → Option ℕ

namespace Heap

def left (i : ℕ) : ℕ := i * 2 + 1

def right (i : ℕ) : ℕ := (i + 1) * 2

def parent (i : ℕ) : ℕ := (i - 1) / 2

def empty : Heap := ⟨[], fun _ => none⟩

def inHeap (h : Heap) (n : ℕ) : Bool := (h.indices n).isSome

/-- `heap[i] = x; indices[x] = i;` -/
def place (h : Heap) (i x : ℕ) : Heap :=
  ⟨h.heap.set i x, Function.update h.indices x (some i)⟩

variable (lt : ℕ → ℕ → Bool)

theorem parent_lt {i : ℕ} (hi : i ≠ 0) : parent i < i := by
  unfold parent
  omega

/-- The loop of `percolateUp`: the parents of `i` that are above `x` move down. -/
def percolateUpLoop (x : ℕ) (h : Heap) (i : ℕ) : Heap × ℕ :=
  if _hi : i ≠ 0 ∧ lt x (h.heap.getD (parent i) 0) then
    percolateUpLoop x (h.place i (h.heap.getD (parent i) 0)) (parent i)
  else (h, i)
termination_by i
decreasing_by exact parent_lt _hi.1

def percolateUp (h : Heap) (i : ℕ) : Heap :=
  let x := h.heap.getD i 0
  let r := percolateUpLoop lt x h i
  r.1.place r.2 x

/-- The smaller child of `i`. -/
def child (h : Heap) (i : ℕ) : ℕ :=
  if right i < h.heap.length ∧ lt (h.heap.getD (right i) 0) (h.heap.getD (left i) 0) then right i
  else left i

theorem lt_child (h : Heap) (i : ℕ) : i < h.child lt i := by
  unfold child left right
  split <;> omega

/-- The loop of `percolateDown`: the smaller children that are below `x` move up. -/
def percolateDownLoop (x : ℕ) (h : Heap) (i : ℕ) : Heap × ℕ :=
  if _hi : left i < h.heap.length ∧ lt (h.heap.getD (h.child lt i) 0) x then
    percolateDownLoop x (h.place i (h.heap.getD (h.child lt i) 0)) (h.child lt i)
  else (h, i)
termination_by h.heap.length - i
decreasing_by
  have h₁ := lt_child lt h i
  have h₂ : i < h.heap.length := by
    have := _hi.1
    unfold left at this
    omega
  simp only [place, List.length_set]
  omega

def percolateDown (h : Heap) (i : ℕ) : Heap :=
  let x := h.heap.getD i 0
  let r := percolateDownLoop lt x h i
  r.1.place r.2 x

/-- `decrease(n)`; `n` is in the heap. -/
def decrease (h : Heap) (n : ℕ) : Heap := h.percolateUp lt ((h.indices n).getD 0)

def insert (h : Heap) (n : ℕ) : Heap :=
  percolateUp lt ⟨h.heap ++ [n], Function.update h.indices n (some h.heap.length)⟩ h.heap.length

/-- `removeMin()`; `none` when the heap is empty. -/
def removeMin (h : Heap) : Option (ℕ × Heap) :=
  match h.heap with
  | [] => none
  | x :: xs =>
      let last := (x :: xs).getLast (List.cons_ne_nil x xs)
      let h' : Heap := ⟨((x :: xs).set 0 last).dropLast,
        Function.update (Function.update h.indices last (some 0)) x none⟩
      some (x, if 1 < h'.heap.length then h'.percolateDown lt 0 else h')

/-- `build(ns)`: from the last element with a child to the first. -/
def build (h : Heap) (ns : List ℕ) : Heap :=
  let cleared : ℕ → Option ℕ := h.heap.foldl (fun f x => Function.update f x none) h.indices
  let filled : ℕ → Option ℕ := ns.zipIdx.foldl (fun f p => Function.update f p.1 (some p.2)) cleared
  (List.range (ns.length / 2)).reverse.foldl (fun h i => h.percolateDown lt i) ⟨ns, filled⟩

/-! ## What the heap holds -/

variable {lt} {h : Heap} {i x y n : ℕ}

/-- Each element knows its place. -/
def Ok (h : Heap) : Prop := ∀ x i, h.indices x = some i ↔ h.heap[i]? = some x

theorem empty_ok : empty.Ok := fun x i => by simp [empty]

theorem Ok.inHeap_iff (hok : h.Ok) : h.inHeap n ↔ n ∈ h.heap := by
  rw [inHeap, Option.isSome_iff_exists, List.mem_iff_getElem?]
  exact exists_congr fun i => hok n i

@[simp] theorem length_place : (h.place i x).heap.length = h.heap.length := by simp [place]

theorem getElem?_place (hi : i < h.heap.length) (j : ℕ) :
    (h.place i x).heap[j]? = if i = j then some x else h.heap[j]? := by
  rw [place, List.getElem?_set]
  split
  · rfl
  · rfl

/-- The element `x` is where the hole `i` is; an element at `j` changes places with it. -/
theorem Ok.swap (hok : (h.place i x).Ok) (hi : i < h.heap.length) {j : ℕ} (hij : i ≠ j)
    (hy : h.heap[j]? = some y) :
    ((h.place i y).place j x).Ok ∧ ∀ z, z ∈ ((h.place i y).place j x).heap ↔
      z ∈ (h.place i x).heap := by
  have hj : j < h.heap.length := (List.getElem?_eq_some_iff.mp hy).1
  have hxi : (h.place i x).heap[i]? = some x := by rw [getElem?_place hi, if_pos rfl]
  have hyj : (h.place i x).heap[j]? = some y := by rw [getElem?_place hi, if_neg hij, hy]
  have hne : x ≠ y := by
    rintro rfl
    have h₁ := (hok x i).mpr hxi
    exact hij (Option.some.inj (h₁.symm.trans ((hok x j).mpr hyj)))
  have hget : ∀ k, ((h.place i y).place j x).heap[k]? =
      if j = k then some x else if i = k then some y else h.heap[k]? := by
    intro k
    rw [getElem?_place (by rw [length_place]; exact hj), getElem?_place hi]
  constructor
  · intro z k
    have hz := hok z k
    rw [getElem?_place hi] at hz
    have hidx : ((h.place i y).place j x).indices z =
        if z = x then some j else if z = y then some i else h.indices z := by
      simp [place, Function.update_apply]
    have hold : (h.place i x).indices z = if z = x then some i else h.indices z := by
      simp [place, Function.update_apply]
    rw [hold] at hz
    have hyold := hok y j
    rw [show (h.place i x).indices y = h.indices y by simp [place, hne.symm]]
      at hyold
    rw [hidx, hget]
    by_cases hzx : z = x
    · subst hzx
      rw [if_pos rfl]
      grind
    · rw [if_neg hzx]
      by_cases hzy : z = y
      · subst hzy
        rw [if_pos rfl]
        grind
      · rw [if_neg hzy]
        grind
  · intro z
    simp only [List.mem_iff_getElem?, hget, getElem?_place hi]
    constructor
    · rintro ⟨k, hk⟩
      by_cases hjk : j = k
      · exact ⟨i, by rw [if_pos rfl]; rwa [if_pos hjk] at hk⟩
      · rw [if_neg hjk] at hk
        by_cases hik : i = k
        · exact ⟨j, by rw [if_neg hij, hy]; rwa [if_pos hik] at hk⟩
        · exact ⟨k, by rw [if_neg hik]; rwa [if_neg hik] at hk⟩
    · rintro ⟨k, hk⟩
      by_cases hik : i = k
      · exact ⟨j, by rw [if_pos rfl]; rwa [if_pos hik] at hk⟩
      · rw [if_neg hik] at hk
        by_cases hjk : j = k
        · exact ⟨i, by rw [if_neg hij.symm, if_pos rfl, ← hy, hjk, hk]⟩
        · exact ⟨k, by rw [if_neg hjk, if_neg hik, hk]⟩

/-- An element moves to another place; the heap holds the same. -/
structure Moved (h : Heap) (i x : ℕ) (h' : Heap) (i' : ℕ) : Prop where
  lt : i' < h'.heap.length
  length : h'.heap.length = h.heap.length
  ok : (h'.place i' x).Ok
  mem : ∀ z, z ∈ (h'.place i' x).heap ↔ z ∈ (h.place i x).heap

theorem Moved.refl (hok : (h.place i x).Ok) (hi : i < h.heap.length) : Moved h i x h i :=
  ⟨hi, rfl, hok, fun _ => Iff.rfl⟩

theorem Moved.step (hok : (h.place i x).Ok) (hi : i < h.heap.length) {j : ℕ} (hij : i ≠ j)
    (hj : j < h.heap.length) {h' : Heap} {i' : ℕ}
    (hm : ((h.place i (h.heap.getD j 0)).place j x).Ok →
      Moved (h.place i (h.heap.getD j 0)) j x h' i') : Moved h i x h' i' := by
  have hy : h.heap[j]? = some (h.heap.getD j 0) := by
    rw [List.getD_eq_getElem?_getD, List.getElem?_eq_getElem hj, Option.getD_some]
  obtain ⟨hok', hmem⟩ := hok.swap hi hij hy
  have hm := hm hok'
  exact ⟨hm.lt, hm.length.trans length_place, hm.ok, fun z => (hm.mem z).trans (hmem z)⟩

theorem percolateUpLoop_moved (hok : (h.place i x).Ok) (hi : i < h.heap.length) :
    Moved h i x (percolateUpLoop lt x h i).1 (percolateUpLoop lt x h i).2 := by
  fun_induction percolateUpLoop lt x h i with
  | case1 h i hcond ih =>
      have hlt := parent_lt hcond.1
      refine Moved.step hok hi hlt.ne' (hlt.trans hi) fun hok' => ih hok' ?_
      rw [length_place]
      exact hlt.trans hi
  | case2 h i hcond => exact Moved.refl hok hi

variable (lt) in
theorem child_lt (hl : left i < h.heap.length) : h.child lt i < h.heap.length := by
  unfold child
  split
  · next hr => exact hr.1
  · exact hl

theorem percolateDownLoop_moved (hok : (h.place i x).Ok) (hi : i < h.heap.length) :
    Moved h i x (percolateDownLoop lt x h i).1 (percolateDownLoop lt x h i).2 := by
  fun_induction percolateDownLoop lt x h i with
  | case1 h i hcond ih =>
      have hc := child_lt lt hcond.1
      refine Moved.step hok hi (lt_child lt h i).ne hc fun hok' => ih hok' ?_
      rw [length_place]
      exact hc
  | case2 h i hcond => exact Moved.refl hok hi

/-- Two heaps that hold the same. -/
def Same (h h' : Heap) : Prop := h'.Ok ∧ (∀ z, z ∈ h'.heap ↔ z ∈ h.heap) ∧
  h'.heap.length = h.heap.length

theorem Same.refl (hok : h.Ok) : Same h h := ⟨hok, fun _ => Iff.rfl, rfl⟩

theorem Same.trans {h' h'' : Heap} (h₁ : Same h h') (h₂ : Same h' h'') : Same h h'' :=
  ⟨h₂.1, fun z => (h₂.2.1 z).trans (h₁.2.1 z), h₂.2.2.trans h₁.2.2⟩

theorem place_self (hok : h.Ok) (hx : h.heap[i]? = some x) : h.place i x = h := by
  have hi := (List.getElem?_eq_some_iff.mp hx).1
  unfold place
  congr 1
  · refine List.ext_getElem? fun j => ?_
    rw [List.getElem?_set]
    split
    · next hij => rw [← hij, hx]
    · rfl
  · rw [← (hok x i).mpr hx, Function.update_eq_self]

theorem Moved.same (hok : h.Ok) (hx : h.heap[i]? = some x) {h' : Heap} {i' : ℕ}
    (hm : Moved h i x h' i') : Same h (h'.place i' x) := by
  refine ⟨hm.ok, fun z => ?_, length_place.trans hm.length⟩
  rw [hm.mem, place_self hok hx]

theorem getElem?_of_lt (hi : i < h.heap.length) : h.heap[i]? = some (h.heap.getD i 0) := by
  rw [List.getD_eq_getElem?_getD, List.getElem?_eq_getElem hi, Option.getD_some]

variable (lt) in
theorem percolateUp_same (hok : h.Ok) (hi : i < h.heap.length) : Same h (h.percolateUp lt i) := by
  have hx := getElem?_of_lt hi
  exact (percolateUpLoop_moved ((place_self hok hx).symm ▸ hok) hi).same hok hx

variable (lt) in
theorem percolateDown_same (hok : h.Ok) (hi : i < h.heap.length) :
    Same h (h.percolateDown lt i) := by
  have hx := getElem?_of_lt hi
  exact (percolateDownLoop_moved ((place_self hok hx).symm ▸ hok) hi).same hok hx

variable (lt) in
theorem decrease_same (hok : h.Ok) (hn : h.inHeap n) : Same h (h.decrease lt n) := by
  obtain ⟨i, hi⟩ := Option.isSome_iff_exists.mp hn
  refine percolateUp_same lt hok ?_
  rw [hi, Option.getD_some]
  exact (List.getElem?_eq_some_iff.mp ((hok n i).mp hi)).1

variable (lt) in
theorem insert_ok (hok : h.Ok) (hn : ¬ h.inHeap n) :
    (h.insert lt n).Ok ∧ ∀ z, z ∈ (h.insert lt n).heap ↔ z = n ∨ z ∈ h.heap := by
  have hnew : Heap.Ok ⟨h.heap ++ [n], Function.update h.indices n (some h.heap.length)⟩ := by
    intro z j
    have hz := hok z j
    have hnot := mt hok.inHeap_iff.mpr hn
    rw [List.mem_iff_getElem?] at hnot
    simp only [Function.update_apply, List.getElem?_append]
    grind
  obtain ⟨hok', hmem, -⟩ := percolateUp_same lt hnew (i := h.heap.length) (by simp)
  refine ⟨hok', fun z => (hmem z).trans ?_⟩
  simp [or_comm]

/-- The heap before the last step of `removeMin`: the last element stands at the top. -/
theorem top_ok {xs : List ℕ} {f : ℕ → Option ℕ} (hok : Heap.Ok ⟨x :: xs, f⟩) {last : ℕ}
    (hlast : (x :: xs)[xs.length]? = some last) :
    Heap.Ok ⟨((x :: xs).set 0 last).dropLast,
        Function.update (Function.update f last (some 0)) x none⟩ ∧
      ∀ z, z ∈ ((x :: xs).set 0 last).dropLast ↔ z ∈ x :: xs ∧ z ≠ x := by
  have hget : ∀ k, ((x :: xs).set 0 last).dropLast[k]? =
      if k < xs.length then if k = 0 then some last else (x :: xs)[k]? else none := by
    intro k
    rw [List.getElem?_dropLast, List.getElem?_set]
    simp only [List.length_set, List.length_cons, Nat.add_sub_cancel]
    grind
  have hat : ∀ z k, f z = some k ↔ (x :: xs)[k]? = some z := hok
  have htop : f x = some 0 := (hat x 0).mpr rfl
  have hfl := (hat last xs.length).mpr hlast
  have hlen : ∀ k z, (x :: xs)[k]? = some z → k ≤ xs.length := by
    intro k z hk
    exact Nat.lt_succ_iff.mp (List.getElem?_eq_some_iff.mp hk).1
  constructor
  · intro z k
    simp only [Function.update_apply, hget]
    have hz := hat z k
    have hle := hlen k z
    grind
  · intro z
    simp only [List.mem_iff_getElem?, hget]
    constructor
    · rintro ⟨k, hk⟩
      by_cases hlt : k < xs.length
      · rw [if_pos hlt] at hk
        by_cases h0 : k = 0
        · rw [if_pos h0] at hk
          refine ⟨⟨xs.length, hk ▸ hlast⟩, ?_⟩
          rintro rfl
          rw [Option.some.inj hk, htop] at hfl
          have := Option.some.inj hfl
          omega
        · rw [if_neg h0] at hk
          refine ⟨⟨k, hk⟩, ?_⟩
          rintro rfl
          exact h0 (Option.some.inj (((hat z k).mpr hk).symm.trans htop))
      · rw [if_neg hlt] at hk
        exact absurd hk (Option.some_ne_none z).symm
    · rintro ⟨⟨k, hk⟩, hzx⟩
      have hz := (hat z k).mpr hk
      have hle := hlen k z hk
      rcases Nat.lt_or_ge k xs.length with hlt | hge
      · exact ⟨k, by grind⟩
      · exact ⟨0, by grind⟩

variable (lt) in
theorem removeMin_ok (hok : h.Ok) (hne : h.heap ≠ []) :
    ∃ x h', h.removeMin lt = some (x, h') ∧ h.heap[0]? = some x ∧ h'.Ok ∧
      (∀ z, z ∈ h'.heap ↔ z ∈ h.heap ∧ z ≠ x) ∧ h'.heap.length + 1 = h.heap.length := by
  obtain ⟨heap, f⟩ := h
  cases heap with
  | nil => exact absurd rfl hne
  | cons x xs =>
      have hlast : (x :: xs)[xs.length]? = some ((x :: xs).getLast (List.cons_ne_nil x xs)) := by
        rw [List.getLast_eq_getElem, List.getElem?_eq_getElem (Nat.lt_succ_self _)]
        simp
      obtain ⟨htop, hmem⟩ := top_ok hok hlast
      refine ⟨x, _, rfl, rfl, ?_⟩
      split
      · next hlen =>
          obtain ⟨hok', hmem', hlen'⟩ :=
            percolateDown_same lt htop (i := 0) (Nat.lt_of_lt_of_le Nat.zero_lt_one hlen.le)
          refine ⟨hok', fun z => (hmem' z).trans (hmem z), ?_⟩
          rw [hlen']
          simp
      · exact ⟨htop, hmem, by simp⟩

theorem removeMin_nil (hnil : h.heap = []) : h.removeMin lt = none := by
  rw [removeMin, hnil]

theorem foldl_clear (l : List ℕ) (f : ℕ → Option ℕ) (z : ℕ) :
    l.foldl (fun f x => Function.update f x none) f z = if z ∈ l then none else f z := by
  induction l generalizing f with
  | nil => simp
  | cons x l ih =>
      rw [List.foldl_cons, ih]
      simp only [Function.update_apply, List.mem_cons]
      grind

theorem foldl_fill {l : List ℕ} (hl : l.Nodup) (k : ℕ) (f : ℕ → Option ℕ) (z i : ℕ) :
    (l.zipIdx k).foldl (fun (f : ℕ → Option ℕ) p => Function.update f p.1 (some p.2)) f z = some i ↔
      (k ≤ i ∧ l[i - k]? = some z) ∨ (z ∉ l ∧ f z = some i) := by
  induction l generalizing f k with
  | nil => simp
  | cons x l ih =>
      obtain ⟨hx, hl⟩ := List.nodup_cons.mp hl
      rw [List.zipIdx_cons, List.foldl_cons, ih hl]
      simp only [Function.update_apply, List.mem_cons]
      have hmem := List.mem_iff_getElem? (a := x) (l := l)
      rcases Nat.lt_trichotomy i k with hik | rfl | hik
      · grind
      · grind
      · rw [show i - k = i - (k + 1) + 1 by omega, List.getElem?_cons_succ]
        grind

variable (lt) in
theorem build_ok (hok : h.Ok) {ns : List ℕ} (hns : ns.Nodup) :
    (h.build lt ns).Ok ∧ ∀ z, z ∈ (h.build lt ns).heap ↔ z ∈ ns := by
  have hclear : ∀ z, h.heap.foldl (fun f x => Function.update f x none) h.indices z = none := by
    intro z
    rw [foldl_clear]
    split
    · rfl
    · next hz =>
        refine Option.eq_none_iff_forall_ne_some.mpr fun i hi => hz ?_
        exact List.mem_iff_getElem?.mpr ⟨i, (hok z i).mp hi⟩
  set start : Heap :=
    ⟨ns, ns.zipIdx.foldl (fun (f : ℕ → Option ℕ) p => Function.update f p.1 (some p.2))
    (h.heap.foldl (fun f x => Function.update f x none) h.indices)⟩ with hstart
  have hok₀ : start.Ok := by
    intro z i
    rw [hstart]
    simp only
    rw [foldl_fill hns]
    simp [hclear]
  have hrun : ∀ (l : List ℕ) (g : Heap), (∀ i ∈ l, i < ns.length) → Same start g →
      Same start (l.foldl (fun h i => h.percolateDown lt i) g) := by
    intro l
    induction l with
    | nil => exact fun g _ hg => hg
    | cons i l ih =>
        intro g hl hg
        obtain ⟨hi, hl⟩ := List.forall_mem_cons.mp hl
        refine ih _ hl (hg.trans (percolateDown_same lt hg.1 ?_))
        rw [hg.2.2]
        exact hi
  have hall := hrun (List.range (ns.length / 2)).reverse start (fun i hi => by
    rw [List.mem_reverse, List.mem_range] at hi
    omega) (Same.refl hok₀)
  exact ⟨hall.1, hall.2.1⟩

end Heap

end ExtFolding.Minisat
