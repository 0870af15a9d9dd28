import ExtFolding.Lib.Heap
import ExtFolding.Minisat.Heap
import ExtFolding.Minisat.Sort

/-!
# `memin/minisat/mtl/Heap.h`: the order of the heap

All operations keep the elements in the order of a heap, so that `removeMin` gives an element that
no other one is below.
-/

namespace ExtFolding.Minisat.Heap

open BinaryHeap

variable {lt : ℕ → ℕ → Bool} {h h' : Heap} {i j k n x : ℕ}

def entry (h : Heap) (i : ℕ) : ℕ := h.heap.getD i 0

/-- No element is below its parent. -/
def Ordered (lt : ℕ → ℕ → Bool) (h : Heap) : Prop := OrderedFrom (Less lt) 0 h.heap.length h.entry

theorem entry_place (hi : i < h.heap.length) : (h.place i x).entry =
    Function.update h.entry i x := by
  funext j
  unfold entry
  rw [List.getD_eq_getElem?_getD, getElem?_place hi, Function.update_apply]
  by_cases hij : i = j
  · rw [if_pos hij, if_pos hij.symm]
    rfl
  · rw [if_neg hij, if_neg (Ne.symm hij), List.getD_eq_getElem?_getD]

theorem ordered_empty : Ordered lt empty := fun _ _ _ hc => absurd hc (Nat.not_lt_zero _)

theorem entry_mem (hi : i < h.heap.length) : h.entry i ∈ h.heap :=
    List.mem_of_getElem? (getElem?_of_lt hi)

/-- Only how the elements of the heap compare is of interest. -/
theorem Ordered.mono (lt' : ℕ → ℕ → Bool) (ho : Ordered lt h)
    (hless : ∀ x ∈ h.heap, ∀ y ∈ h.heap, Less lt' x y → Less lt x y) : Ordered lt' h :=
  fun c i hc hcn hk hlt => ho c i hc hcn hk
    (hless _ (entry_mem hcn) _ (entry_mem (hc.gt.trans hcn)) hlt)

variable [Std.Asymm (Less lt)] [IsOrderConnected ℕ (Less lt)]

/-! ## Moving -/

theorem percolateUpLoop_ordered (hi : i < h.heap.length)
    (hole : UpHole (Less lt) h.heap.length h.entry i x) :
    Ordered lt ((percolateUpLoop lt x h i).1.place (percolateUpLoop lt x h i).2 x) := by
  fun_induction percolateUpLoop lt x h i with
  | case1 h i hcond ih =>
      have hp := (parent_lt hcond.1).trans hi
      refine ih (by rwa [length_place]) ?_
      rw [length_place, entry_place hi]
      exact hole.move hcond.1 hi hcond.2
  | case2 h i hcond =>
      unfold Ordered
      rw [length_place, entry_place hi]
      exact hole.fill (or_iff_not_imp_left.mpr fun h0 hlt => hcond ⟨h0, hlt⟩)

theorem percolateUp_ordered (hi : i < h.heap.length)
    (hole : UpHole (Less lt) h.heap.length h.entry i (h.entry i)) :
      Ordered lt (h.percolateUp lt i) :=
  percolateUpLoop_ordered hi hole

omit [Std.Asymm (Less lt)] [IsOrderConnected ℕ (Less lt)] in
theorem child_isChild : IsChild (h.child lt i) i := by
  rw [isChild_iff]
  unfold child left right
  split
  · omega
  · omega

omit [IsOrderConnected ℕ (Less lt)] in
/-- No child is below the one that is chosen. -/
theorem child_least {c : ℕ} (hc : IsChild c i) (hcn : c < h.heap.length) :
    ¬ Less lt (h.entry c) (h.entry (h.child lt i)) := by
  have hcase : c = left i ∨ c = right i := by
    unfold left right
    rcases isChild_iff.mp hc with rfl | rfl
    · exact Or.inl (by omega)
    · exact Or.inr (by omega)
  unfold child
  split
  · next hr =>
      rcases hcase with rfl | rfl
      · exact asymm_of (Less lt) hr.2
      · exact less_irrefl _
  · next hr =>
      rcases hcase with rfl | rfl
      · exact less_irrefl _
      · exact fun hlt => hr ⟨hcn, hlt⟩

theorem percolateDownLoop_ordered (hk : k ≤ i) (hi : i < h.heap.length)
    (hole : DownHole (Less lt) k h.heap.length h.entry i x) :
    OrderedFrom (Less lt) k h.heap.length
      ((percolateDownLoop lt x h i).1.place (percolateDownLoop lt x h i).2 x).entry := by
  fun_induction percolateDownLoop lt x h i with
  | case1 h i hcond ih =>
      have hc := child_lt lt hcond.1
      have hmove := hole.move hk child_isChild hc hcond.2 fun c hc hcn => child_least hc hcn
      have := ih (hk.trans (lt_child lt h i).le) (by rwa [length_place]) (by
        rw [length_place, entry_place hi]
        exact hmove)
      rwa [length_place] at this
  | case2 h i hcond =>
      rw [entry_place hi]
      refine hole.fill fun c hc hcn => ?_
      have hl : left i < h.heap.length := by
        unfold left
        rcases isChild_iff.mp hc with rfl | rfl <;> omega
      exact IsOrderConnected.neg_trans (child_least hc hcn) fun hlt => hcond ⟨hl, hlt⟩

theorem percolateDown_ordered (hk : k ≤ i) (hi : i < h.heap.length)
    (hole : DownHole (Less lt) k h.heap.length h.entry i (h.entry i)) :
    OrderedFrom (Less lt) k h.heap.length (h.percolateDown lt i).entry :=
  percolateDownLoop_ordered hk hi hole

omit [Std.Asymm (Less lt)] [IsOrderConnected ℕ (Less lt)] in
theorem length_percolateDownLoop :
    (percolateDownLoop lt x h i).1.heap.length = h.heap.length := by
  fun_induction percolateDownLoop lt x h i with
  | case1 h i hcond ih => rw [ih, length_place]
  | case2 h i hcond => rfl

omit [Std.Asymm (Less lt)] [IsOrderConnected ℕ (Less lt)] in
theorem length_percolateDown : (h.percolateDown lt i).heap.length = h.heap.length := by
  unfold percolateDown
  rw [length_place, length_percolateDownLoop]

/-! ## The operations -/

theorem insert_ordered (ho : Ordered lt h) : Ordered lt (h.insert lt n) := by
  have hlen : (h.heap ++ [n]).length = h.heap.length + 1 := by simp
  refine percolateUp_ordered (by rw [hlen]; exact Nat.lt_succ_self _) ?_
  rw [hlen]
  refine OrderedFrom.push ho (fun c hc => ?_) _
  show (h.heap ++ [n]).getD c 0 = h.heap.getD c 0
  rw [List.getD_eq_getElem?_getD, List.getD_eq_getElem?_getD, List.getElem?_append_left hc]

omit [Std.Asymm (Less lt)] in
/-- An element has come before some others, and nothing else has changed. -/
theorem decrease_ordered (lt' : ℕ → ℕ → Bool) [Std.Asymm (Less lt')] [IsOrderConnected ℕ (Less lt')]
    (hok : h.Ok) (ho : Ordered lt h) (hn : h.inHeap n)
    (hless : ∀ x ∈ h.heap, ∀ y ∈ h.heap, x ≠ n → Less lt' x y → Less lt x y) :
    Ordered lt' (h.decrease lt' n) := by
  obtain ⟨i, hi⟩ := Option.isSome_iff_exists.mp hn
  have hat := (hok n i).mp hi
  have hlt := (List.getElem?_eq_some_iff.mp hat).1
  rw [decrease, hi]
  refine percolateUp_ordered hlt (OrderedFrom.decrease ho hlt fun c j hc hj hci => ?_)
  refine hless _ (entry_mem hc) _ (entry_mem hj) fun heq => hci ?_
  have hidx := (hok n c).mpr (heq ▸ getElem?_of_lt hc)
  exact Option.some.inj (hidx.symm.trans hi)

/-- What comes out is below nothing that was in the heap. -/
theorem removeMin_ordered (ho : Ordered lt h) (hrun : h.removeMin lt = some (x, h')) :
    Ordered lt h' ∧ ∀ z ∈ h.heap, ¬ Less lt z x := by
  obtain ⟨heap, f⟩ := h
  cases heap with
  | nil => cases hrun
  | cons y ys =>
      obtain ⟨rfl, rfl⟩ := Prod.mk.inj (Option.some.inj hrun)
      refine ⟨?_, fun z hz => ?_⟩
      · set last := (y :: ys).getLast (List.cons_ne_nil y ys)
        set h' : Heap := ⟨((y :: ys).set 0 last).dropLast,
          Function.update (Function.update f last (some 0)) y none⟩
        have hlen : h'.heap.length = ys.length := by simp [h']
        have hsame : ∀ c < h'.heap.length, c ≠ 0 → h'.entry c = entry ⟨y :: ys, f⟩ c := by
          intro c hc h0
          show ((y :: ys).set 0 last).dropLast.getD c 0 = (y :: ys).getD c 0
          rw [List.getD_eq_getElem?_getD, List.getD_eq_getElem?_getD, List.getElem?_dropLast,
            List.getElem?_set_ne h0.symm, if_pos (by simpa using hlen ▸ hc)]
        show Ordered lt (if 1 < h'.heap.length then h'.percolateDown lt 0 else h')
        split
        · next hcond =>
            have hole := OrderedFrom.replaceTop ho (hlen.le.trans (Nat.le_succ _)) hsame
              (h'.entry 0)
            unfold Ordered
            rw [length_percolateDown]
            exact percolateDown_ordered (le_refl 0) (Nat.zero_lt_of_lt hcond) hole
        · next hcond =>
            intro c i hc hcn
            have := hc.gt
            omega
      · obtain ⟨i, hi⟩ := List.mem_iff_getElem?.mp hz
        have hlt := (List.getElem?_eq_some_iff.mp hi).1
        have htop := OrderedFrom.top ho hlt
        have hentry : entry ⟨y :: ys, f⟩ i = z := by
          rw [entry, List.getD_eq_getElem?_getD, hi]
          rfl
        rwa [hentry] at htop

/-- From the last parent to the first. -/
theorem foldl_percolateDown (m : ℕ) (ho : OrderedFrom (Less lt) m h.heap.length h.entry)
    (hm : m ≤ h.heap.length) :
    Ordered lt ((List.range m).reverse.foldl (fun h i => h.percolateDown lt i) h) := by
  induction m generalizing h with
  | zero => exact ho
  | succ m ih =>
      rw [List.range_succ, List.reverse_append, List.reverse_singleton, List.singleton_append,
        List.foldl_cons]
      have hstep := percolateDown_ordered le_rfl hm ho.extend
      refine ih ?_ ?_
      · rwa [length_percolateDown]
      · rw [length_percolateDown]
        exact (Nat.le_succ m).trans hm

theorem build_ordered (ns : List ℕ) : Ordered lt (h.build lt ns) := by
  refine foldl_percolateDown (ns.length / 2) (fun c i hc hcn hi => ?_) (Nat.div_le_self _ _)
  change c < ns.length at hcn
  rcases isChild_iff.mp hc with rfl | rfl
  · omega
  · omega

/-! ## Runs -/

/-- The heaps that come of any sequence of operations. `decrease` is called when an element has come
before some others. -/
inductive Built : (ℕ → ℕ → Bool) → Heap → Prop
  | empty {lt : ℕ → ℕ → Bool} [Std.Asymm (Less lt)] [IsOrderConnected ℕ (Less lt)] : Built lt empty
  | insert {lt : ℕ → ℕ → Bool} {h : Heap} {n : ℕ} (hb : Built lt h) (hn : ¬ h.inHeap n) :
      Built lt (h.insert lt n)
  | decrease {lt lt' : ℕ → ℕ → Bool} {h : Heap} {n : ℕ} [Std.Asymm (Less lt')]
      [IsOrderConnected ℕ (Less lt')] (hb : Built lt h) (hn : h.inHeap n)
      (hless : ∀ x ∈ h.heap, ∀ y ∈ h.heap, x ≠ n → Less lt' x y → Less lt x y) :
      Built lt' (h.decrease lt' n)
  | removeMin {lt : ℕ → ℕ → Bool} {h h' : Heap} {x : ℕ} (hb : Built lt h)
      (hrun : h.removeMin lt = some (x, h')) : Built lt h'
  | build {lt : ℕ → ℕ → Bool} {h : Heap} {ns : List ℕ} (hb : Built lt h) (hns : ns.Nodup) :
      Built lt (h.build lt ns)

omit [Std.Asymm (Less lt)] [IsOrderConnected ℕ (Less lt)] in
theorem Built.invariant (hb : Built lt h) :
    Std.Asymm (Less lt) ∧ IsOrderConnected ℕ (Less lt) ∧ h.Ok ∧ Ordered lt h := by
  induction hb with
  | empty => exact ⟨inferInstance, inferInstance, empty_ok, ordered_empty⟩
  | insert _ hn ih =>
      obtain ⟨hasymm, hconn, hok, hord⟩ := ih
      exact ⟨hasymm, hconn, (insert_ok _ hok hn).1, insert_ordered hord⟩
  | decrease _ hn hless ih =>
      obtain ⟨-, hconn, hok, hord⟩ := ih
      exact ⟨inferInstance, inferInstance, (decrease_same _ hok hn).1,
        decrease_ordered _ hok hord hn hless⟩
  | @removeMin lt h x h' _ hrun ih =>
      obtain ⟨hasymm, hconn, hok, hord⟩ := ih
      have hne : h.heap ≠ [] := fun hnil => by
        rw [removeMin_nil hnil] at hrun
        cases hrun
      obtain ⟨x', h'', hrun', -, hok', -⟩ := removeMin_ok lt hok hne
      rw [hrun] at hrun'
      cases hrun'
      exact ⟨hasymm, hconn, hok', (removeMin_ordered hord hrun).1⟩
  | build _ hns ih =>
      obtain ⟨hasymm, hconn, hok, -⟩ := ih
      exact ⟨hasymm, hconn, (build_ok _ hok hns).1, build_ordered _⟩

omit [Std.Asymm (Less lt)] [IsOrderConnected ℕ (Less lt)] in
/-- Whatever was done before, `removeMin` takes out an element that no other one is below. -/
theorem removeMin_least (hb : Built lt h) (hne : h.heap ≠ []) :
    ∃ x h', h.removeMin lt = some (x, h') ∧ Built lt h' ∧ x ∈ h.heap ∧
      (∀ z ∈ h.heap, ¬ Less lt z x) ∧
      ∀ z, z ∈ h'.heap ↔ z ∈ h.heap ∧ z ≠ x := by
  obtain ⟨hasymm, hconn, hok, hord⟩ := hb.invariant
  obtain ⟨x, h', hrun, htop, -, hmem, -⟩ := removeMin_ok lt hok hne
  exact ⟨x, h', hrun, hb.removeMin hrun, List.mem_of_getElem? htop,
    (removeMin_ordered hord hrun).2, hmem⟩

theorem removeMin_least_two : ∃ x h',
    ((empty.insert (fun a b => decide (a < b)) 5).insert (fun a b => decide (a < b)) 3).removeMin
      (fun a b => decide (a < b)) = some (x, h') ∧ Built (fun a b => decide (a < b)) h' ∧
      x ∈ [3, 5] ∧ (∀ z ∈ [3, 5], ¬ Less (fun a b => decide (a < b)) z x) ∧
      ∀ z, z ∈ h'.heap ↔ z ∈ [3, 5] ∧ z ≠ x := by
  have : Std.Asymm (Less fun a b : ℕ => decide (a < b)) :=
    ⟨fun a b h h' => Nat.lt_asymm (of_decide_eq_true h) (of_decide_eq_true h')⟩
  have : IsOrderConnected ℕ (Less fun a b : ℕ => decide (a < b)) := ⟨fun a b c h => by
    rcases Nat.lt_or_ge a b with hab | hba
    · exact Or.inl (decide_eq_true hab)
    · exact Or.inr (decide_eq_true (hba.trans_lt (of_decide_eq_true h)))⟩
  have hfive : Built (fun a b => decide (a < b)) (empty.insert (fun a b => decide (a < b)) 5) :=
    Built.empty.insert (by decide)
  have hboth : Built (fun a b => decide (a < b))
      ((empty.insert (fun a b => decide (a < b)) 5).insert (fun a b => decide (a < b)) 3) :=
    hfive.insert (by decide +kernel)
  have hheap :
    ((empty.insert (fun a b => decide (a < b)) 5).insert (fun a b => decide (a < b)) 3).heap =
      [3, 5] := by decide +kernel
  rw [← hheap]
  exact removeMin_least hboth (by decide +kernel)

end ExtFolding.Minisat.Heap
