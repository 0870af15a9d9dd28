import ExtFolding.Minisat.HeapOrder
import ExtFolding.Minisat.Propagate

/-!
# `memin/minisat/core/Solver.h`: the solver and its heuristics

The state of the solver around the core: activities, the order of the variables, the limits of the
search. `double` is a parameter: nothing the solver answers depends on how it rounds. Activities
only decide which variable comes next; what the order holds is kept by all operations.
-/

namespace ExtFolding.Minisat

open Cdcl LBool

/-! ## The code -/

/-- `double` with what the solver uses of it; `single` rounds to `float`. -/
class Double (F : Type) extends Add F, Mul F, Div F, OfScientific F where
  lt : F → F → Bool
  le : F → F → Bool
  ofInt : ℤ → F
  toInt : F → ℤ
  single : F → F
  pow : F → F → F

structure Solver (F : Type) extends Core where
  ok : Bool
  cla_inc : F
  claActivity : ℕ → F
  activity : ℕ → F
  var_inc : F
  polarity : ℕ → Bool
  decision : ℕ → Bool
  simpDB_assigns : ℤ
  simpDB_props : ℤ
  assumptions : List Lit
  order_heap : Heap
  seen : ℕ → Bool
  model : List LBool
  conflict : List Lit
  max_learnts : F
  learntsize_adjust_confl : F
  learntsize_adjust_cnt : ℤ

variable {F : Type} [Double F]

/-! The parameters, as the constructor sets them. -/

def var_decay : F := 0.95

def clause_decay : F := 0.999

def restart_first : ℤ := 100

def restart_inc : F := 2.0

def learntsize_factor : F := Double.ofInt 1 / Double.ofInt 3

def learntsize_inc : F := 1.1

def learntsize_adjust_start_confl : ℤ := 100

def learntsize_adjust_inc : F := 1.5

namespace Solver

/-- `Solver()` -/
def new : Solver F where
  nVars := 0
  assigns := fun _ => l_Undef
  vardata := fun _ => ⟨none, 0⟩
  trail := []
  trail_lim := []
  qhead := 0
  ca := fun _ => none
  nextRef := 0
  clauses := []
  learnts := []
  clauses_literals := 0
  learnts_literals := 0
  watches := fun _ => []
  dirty := fun _ => false
  dirties := []
  ok := true
  cla_inc := Double.ofInt 1
  claActivity := fun _ => Double.ofInt 0
  activity := fun _ => Double.ofInt 0
  var_inc := Double.ofInt 1
  polarity := fun _ => false
  decision := fun _ => false
  simpDB_assigns := -1
  simpDB_props := 0
  assumptions := []
  order_heap := .empty
  seen := fun _ => false
  model := []
  conflict := []
  max_learnts := Double.ofInt 0
  learntsize_adjust_confl := Double.ofInt 0
  learntsize_adjust_cnt := 0

variable (s : Solver F)

/-- `VarOrderLt` -/
def varOrderLt (x y : ℕ) : Bool := Double.lt (s.activity y) (s.activity x)

def insertVarOrder (x : ℕ) : Solver F :=
  if !s.order_heap.inHeap x && s.decision x then
    { s with order_heap := s.order_heap.insert s.varOrderLt x }
  else s

def varDecayActivity : Solver F :=
  { s with var_inc := s.var_inc * (Double.ofInt 1 / var_decay) }

/-- `activity[v] += inc`, with the rescaling. -/
def bumpActivity (v : ℕ) (inc : F) : Solver F :=
  let activity := Function.update s.activity v (s.activity v + inc)
  if Double.lt 1e100 (activity v) then
    { s with
      activity := fun i => if i < s.nVars then activity i * 1e-100 else activity i
      var_inc := s.var_inc * 1e-100 }
  else { s with activity := activity }

/-- `if (order_heap.inHeap(v)) order_heap.decrease(v);` -/
def updateOrder (v : ℕ) : Solver F :=
  if s.order_heap.inHeap v then { s with order_heap := s.order_heap.decrease s.varOrderLt v } else s

def varBumpActivity (v : ℕ) : Solver F := (s.bumpActivity v s.var_inc).updateOrder v

def claDecayActivity : Solver F :=
  { s with cla_inc := s.cla_inc * (Double.ofInt 1 / clause_decay) }

def claBumpActivity (cr : ℕ) : Solver F :=
  let act := Function.update s.claActivity cr (Double.single (s.claActivity cr + s.cla_inc))
  if Double.lt 1e20 (act cr) then
    { s with
      claActivity := fun x => if x ∈ s.learnts then Double.single (act x * 1e-20) else act x
      cla_inc := s.cla_inc * 1e-20 }
  else { s with claActivity := act }

def uncheckedEnqueue (p : Lit) (source : Option ℕ) : Solver F :=
  { s with toAssignment := s.toAssignment.uncheckedEnqueue p source }

def newDecisionLevel : Solver F := { s with toAssignment := s.toAssignment.newDecisionLevel }

/-- `polarity[x] = sign(trail[c]); insertVarOrder(x);` -/
def undo (p : Lit) : Solver F :=
  insertVarOrder { s with polarity := Function.update s.polarity p.var p.sign } p.var

def cancelUntil (level : ℕ) : Solver F :=
  if level < s.decisionLevel then
    { (s.undone level).foldl undo s with toAssignment := s.toAssignment.cancelUntil level }
  else s

/-- `propagate()` -/
def propagate : Option (Option ℕ × Solver F) :=
  s.toCore.propagate.map fun r =>
    (r.1, { s with toCore := r.2.2, simpDB_props := s.simpDB_props - r.2.1 })

def setDecisionVar (v : ℕ) (b : Bool) : Solver F :=
  insertVarOrder { s with decision := Function.update s.decision v b } v

/-- `newVar(sign, dvar)`; the lists of the new literals are empty. -/
def newVar (sign dvar : Bool) : ℕ × Solver F :=
  (s.nVars, setDecisionVar
    { s with
      nVars := s.nVars + 1
      assigns := Function.update s.assigns s.nVars l_Undef
      vardata := Function.update s.vardata s.nVars ⟨none, 0⟩
      activity := Function.update s.activity s.nVars (Double.ofInt 0)
      seen := Function.update s.seen s.nVars false
      polarity := Function.update s.polarity s.nVars sign } s.nVars dvar)

end Solver

/-! ## The order of the variables -/

/-- What the solver needs of the numbers, none of which is NaN: comparing makes sense, and adding
and scaling do not change an order. -/
class LawfulDouble (F : Type) [Double F] : Prop where
  asymm : ∀ a b : F, Double.lt a b = true → Double.lt b a = false
  connected : ∀ a b c : F, Double.lt a c = true → Double.lt a b = true ∨ Double.lt b c = true
  add_le : ∀ a b : F, Double.lt b (Double.ofInt 0) = false → Double.lt (a + b) a = false
  mul_le : ∀ a b c : F, Double.lt c (Double.ofInt 0) = false → Double.lt a b = false →
    Double.lt (a * c) (b * c) = false
  mul_nonneg : ∀ a b : F, Double.lt a (Double.ofInt 0) = false →
    Double.lt b (Double.ofInt 0) = false →
    Double.lt (a * b) (Double.ofInt 0) = false
  one_nonneg : Double.lt (Double.ofInt 1 : F) (Double.ofInt 0) = false
  decay_nonneg : Double.lt (Double.ofInt 1 / var_decay : F) (Double.ofInt 0) = false
  rescale_nonneg : Double.lt (1e-100 : F) (Double.ofInt 0) = false

/-- The order holds all variables that may be decided, the most active ones first. -/
structure OrderOk (s : Solver F) : Prop where
  ok : s.order_heap.Ok
  lt : ∀ x ∈ s.order_heap.heap, x < s.nVars
  mem : ∀ x < s.nVars, s.decision x = true → s.valueVar x = l_Undef → x ∈ s.order_heap.heap
  ordered : s.order_heap.Ordered s.varOrderLt
  inc : Double.lt s.var_inc (Double.ofInt 0) = false

/-- Nothing else matters to the order. -/
theorem OrderOk.congr {s s' : Solver F} (h : OrderOk s) (hheap : s'.order_heap = s.order_heap)
    (hn : s'.nVars = s.nVars) (hassigns : s'.assigns = s.assigns) (hdec : s'.decision = s.decision)
    (hact : s'.activity = s.activity) (hinc : s'.var_inc = s.var_inc) : OrderOk s' := by
  have hlt : s'.varOrderLt = s.varOrderLt := by
    unfold Solver.varOrderLt
    rw [hact]
  refine ⟨hheap ▸ h.ok, fun x hx => ?_, fun x hx hd hu => ?_, ?_, hinc ▸ h.inc⟩
  · rw [hn]
    exact h.lt x (hheap ▸ hx)
  · rw [Assignment.valueVar, hassigns] at hu
    rw [hheap]
    exact h.mem x (hn ▸ hx) (hdec ▸ hd) hu
  · rw [hheap, hlt]
    exact h.ordered

/-- Only the heuristics have changed, and the order is kept. -/
def Tuned (s s' : Solver F) : Prop :=
  ∃ activity var_inc claActivity cla_inc order_heap,
    s' = { s with
      activity := activity, var_inc := var_inc, claActivity := claActivity, cla_inc := cla_inc,
      order_heap := order_heap } ∧
    (OrderOk s → OrderOk s')

section

variable {s s' s'' : Solver F} {x v cr : ℕ}

theorem Tuned.refl (s : Solver F) : Tuned s s := ⟨_, _, _, _, _, rfl, id⟩

theorem Tuned.trans (h : Tuned s s') (h' : Tuned s' s'') : Tuned s s'' := by
  obtain ⟨a, i, ca, ci, o, rfl, hsame⟩ := h
  obtain ⟨a', i', ca', ci', o', rfl, hsame'⟩ := h'
  exact ⟨a', i', ca', ci', o', rfl, fun ho => hsame' (hsame ho)⟩

theorem Tuned.orderOk (h : Tuned s s') (ho : OrderOk s) : OrderOk s' := by
  obtain ⟨a, i, ca, ci, o, rfl, hsame⟩ := h
  exact hsame ho

variable [LawfulDouble F]

instance : Std.Asymm (Less s.varOrderLt) :=
  ⟨fun _ _ h h' => absurd h' (by rw [Less, Solver.varOrderLt, LawfulDouble.asymm _ _ h]; decide)⟩

instance : IsOrderConnected ℕ (Less s.varOrderLt) :=
  ⟨fun _ b _ h => (LawfulDouble.connected _ (s.activity b) _ h).symm⟩

theorem varDecayActivity_tuned : Tuned s s.varDecayActivity :=
  ⟨_, _, _, _, _, rfl, fun ho => ⟨ho.ok, ho.lt, ho.mem, ho.ordered,
    LawfulDouble.mul_nonneg _ _ ho.inc LawfulDouble.decay_nonneg⟩⟩

omit [LawfulDouble F] in
theorem bumpActivity_eq {inc : F} : ∃ activity var_inc,
    s.bumpActivity v inc = { s with activity := activity, var_inc := var_inc } := by
  unfold Solver.bumpActivity
  simp only
  split
  · exact ⟨_, _, rfl⟩
  · exact ⟨_, _, rfl⟩

/-- Only `v` comes before more of the others than it did. -/
theorem bumpActivity_less {inc : F} (hinc : Double.lt inc (Double.ofInt 0) = false) {y : ℕ}
    (hx : x < s.nVars) (hy : y < s.nVars) (hne : x ≠ v)
    (hlt : Less (s.bumpActivity v inc).varOrderLt x y) : Less s.varOrderLt x y := by
  have hadd : Double.lt (Function.update s.activity v (s.activity v + inc) y)
      (Function.update s.activity v (s.activity v + inc) x) = true →
      Double.lt (s.activity y) (s.activity x) = true := by
    intro hlt
    rw [Function.update_of_ne hne] at hlt
    by_cases hyv : y = v
    · subst hyv
      rw [Function.update_self] at hlt
      refine (LawfulDouble.connected _ (s.activity y) _ hlt).resolve_left fun h => ?_
      rw [LawfulDouble.add_le _ _ hinc] at h
      cases h
    · rwa [Function.update_of_ne hyv] at hlt
  unfold Solver.bumpActivity at hlt
  simp only at hlt
  split at hlt
  · simp only [Less, Solver.varOrderLt, if_pos hx, if_pos hy] at hlt ⊢
    refine hadd ?_
    by_contra hno
    rw [Bool.not_eq_true] at hno
    rw [LawfulDouble.mul_le _ _ _ LawfulDouble.rescale_nonneg hno] at hlt
    cases hlt
  · exact hadd hlt

theorem bumpActivity_inc {inc : F} (hi : Double.lt s.var_inc (Double.ofInt 0) = false) :
    Double.lt (s.bumpActivity v inc).var_inc (Double.ofInt 0) = false := by
  unfold Solver.bumpActivity
  simp only
  split
  · exact LawfulDouble.mul_nonneg _ _ hi LawfulDouble.rescale_nonneg
  · exact hi

theorem varBumpActivity_tuned : Tuned s (s.varBumpActivity v) := by
  obtain ⟨a, i, heq⟩ := @bumpActivity_eq F _ s v s.var_inc
  have hheap : (s.bumpActivity v s.var_inc).order_heap = s.order_heap := by rw [heq]
  unfold Solver.varBumpActivity Solver.updateOrder
  rw [hheap]
  split
  · next hin =>
      refine ⟨a, i, s.claActivity, s.cla_inc, s.order_heap.decrease
        (s.bumpActivity v s.var_inc).varOrderLt v, by rw [heq], fun ho => ?_⟩
      obtain ⟨hok, hmem, -⟩ := Heap.decrease_same (s.bumpActivity v s.var_inc).varOrderLt ho.ok hin
      have hord := Heap.decrease_ordered (s.bumpActivity v s.var_inc).varOrderLt ho.ok ho.ordered
        hin fun x hx y hy hne => bumpActivity_less ho.inc (ho.lt x hx) (ho.lt y hy) hne
      have hinc := @bumpActivity_inc F _ s v _ s.var_inc ho.inc
      rw [heq] at hok hmem hord hinc ⊢
      exact ⟨hok, fun x hx => ho.lt x ((hmem x).mp hx), fun x hx hd hu =>
        (hmem x).mpr (ho.mem x hx hd hu),
        hord, hinc⟩
  · next hin =>
      refine ⟨a, i, s.claActivity, s.cla_inc, s.order_heap, by rw [heq], fun ho => ?_⟩
      have hno : v ∉ s.order_heap.heap := mt ho.ok.inHeap_iff.mpr hin
      have hord := ho.ordered.mono (s.bumpActivity v s.var_inc).varOrderLt fun x hx y hy =>
        bumpActivity_less ho.inc (ho.lt x hx) (ho.lt y hy) fun hxv => hno (hxv ▸ hx)
      have hinc := @bumpActivity_inc F _ s v _ s.var_inc ho.inc
      rw [heq] at hord hinc ⊢
      exact ⟨ho.ok, ho.lt, ho.mem, hord, hinc⟩

omit [LawfulDouble F] in
theorem claBumpActivity_tuned (cr : ℕ) : Tuned s (s.claBumpActivity cr) := by
  unfold Solver.claBumpActivity
  simp only
  split
  · exact ⟨_, _, _, _, _, rfl, fun ho => ho.congr rfl rfl rfl rfl rfl rfl⟩
  · exact ⟨_, _, _, _, _, rfl, fun ho => ho.congr rfl rfl rfl rfl rfl rfl⟩

/-- A variable that may be decided is in the order afterwards. -/
theorem insertVarOrder_spec (hok : s.order_heap.Ok) (hord : s.order_heap.Ordered s.varOrderLt) :
    ∃ o, s.insertVarOrder x = { s with order_heap := o } ∧ o.Ok ∧ o.Ordered s.varOrderLt ∧
      ∀ z, z ∈ o.heap ↔ z ∈ s.order_heap.heap ∨ z = x ∧ s.decision x = true := by
  unfold Solver.insertVarOrder
  cases hin : s.order_heap.inHeap x
  · cases hd : s.decision x
    · exact ⟨_, rfl, hok, hord, fun z => by simp⟩
    · obtain ⟨hok', hmem⟩ := Heap.insert_ok s.varOrderLt hok (n := x) (by simp [hin])
      exact ⟨_, rfl, hok', Heap.insert_ordered hord, fun z => by rw [hmem]; simp [or_comm]⟩
  · refine ⟨_, rfl, hok, hord, fun z => ⟨Or.inl, ?_⟩⟩
    rintro (hz | ⟨rfl, -⟩)
    · exact hz
    · exact hok.inHeap_iff.mp hin

/-- The variables that are taken back are in the order again. -/
theorem foldl_undo (hok : s.order_heap.Ok) (hord : s.order_heap.Ordered s.varOrderLt)
    (l : List Lit) :
    ∃ o f, l.foldl Solver.undo s = { s with order_heap := o, polarity := f } ∧ o.Ok ∧
      o.Ordered s.varOrderLt ∧
      ∀ z, z ∈ o.heap ↔ z ∈ s.order_heap.heap ∨ (∃ p ∈ l, p.var = z) ∧ s.decision z = true := by
  induction l generalizing s with
  | nil => exact ⟨_, _, rfl, hok, hord, fun z => by simp⟩
  | cons p l ih =>
      obtain ⟨o, ho, hok', hord', hmem⟩ := insertVarOrder_spec (x := p.var)
        (s := { s with polarity := Function.update s.polarity p.var p.sign }) hok hord
      rw [List.foldl_cons, Solver.undo, ho]
      obtain ⟨o', f, hrun, hok'', hord'', hmem'⟩ := ih (s := { s with
        polarity := Function.update s.polarity p.var p.sign
        order_heap := o }) hok' hord'
      refine ⟨o', f, hrun, hok'', hord'', fun z => ?_⟩
      rw [hmem', hmem]
      simp only [List.exists_mem_cons_iff]
      constructor
      · rintro ((hz | ⟨rfl, hd⟩) | ⟨hex, hd⟩)
        · exact Or.inl hz
        · exact Or.inr ⟨Or.inl rfl, hd⟩
        · exact Or.inr ⟨Or.inr hex, hd⟩
      · rintro (hz | ⟨rfl | hex, hd⟩)
        · exact Or.inl (Or.inl hz)
        · exact Or.inl (Or.inr ⟨rfl, hd⟩)
        · exact Or.inr ⟨hex, hd⟩

/-- Taking back levels changes the assignment, the saved phases and the order. -/
theorem cancelUntil_spec (ht : TrailOk s.toAssignment) (ho : OrderOk s) (level : ℕ) :
    ∃ o f, s.cancelUntil level = { s with
        toAssignment := s.toAssignment.cancelUntil level, order_heap := o, polarity := f } ∧
      OrderOk (s.cancelUntil level) := by
  unfold Solver.cancelUntil
  split
  · next hlt =>
      obtain ⟨o, f, hrun, hok, hord, hmem⟩ := foldl_undo ho.ok ho.ordered (s.undone level)
      rw [hrun]
      have hundone : ∀ p ∈ s.undone level, p ∈ s.trail := fun p hp =>
        List.mem_of_mem_drop (List.mem_reverse.mp hp)
      refine ⟨o, f, rfl, hok, fun x hx => ?_, fun x hx hd hu => (hmem x).mpr ?_, hord, ho.inc⟩
      · rw [TrailOk.nVars_cancelUntil]
        rcases (hmem x).mp hx with hx | ⟨⟨p, hp, rfl⟩, -⟩
        · exact ho.lt x hx
        · exact ht.lt p (hundone p hp)
      · rw [TrailOk.nVars_cancelUntil] at hx
        change (s.toAssignment.cancelUntil level).valueVar x = l_Undef at hu
        rw [TrailOk.cancelUntil_of_lt hlt] at hu
        change (s.undone level).foldl (fun f p => Function.update f p.var l_Undef) s.assigns x =
          l_Undef at hu
        rw [TrailOk.foldl_undef] at hu
        split at hu
        · next hex => exact Or.inr ⟨hex, hd⟩
        · exact Or.inl (ho.mem x hx hd hu)
  · next hge =>
      rw [TrailOk.cancelUntil_of_le (Nat.le_of_not_lt hge)]
      exact ⟨_, _, rfl, ho⟩

end

end ExtFolding.Minisat
