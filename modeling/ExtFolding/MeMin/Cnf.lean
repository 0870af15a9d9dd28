import ExtFolding.Lib.Cover
import ExtFolding.Lib.Sat
import ExtFolding.MeMin.Incomp

/-!
# `memin/DIMACSWriter.cpp`: `buildCNF`

The formula that asks for a closed cover with a given number of classes. The members of the partial
solution stand in the first classes, one in each. Inputs under which all states have the same
successors are taken once. Literals are numbered without a bound: a solver that takes them all has
2^30 variables at most, which `int curLiteral` holds.
-/

namespace ExtFolding.MeMin

open Std.Sat ExtFolding.Sat

/-! ## The reduced alphabet -/

/-- `nextStatesList` -/
def nextStatesList (machineNextState : List (List (Option ℕ))) (input : ℕ) : List (Option ℕ) :=
  machineNextState.map fun curNextStates => curNextStates.getD input none

/-- `hash`, which wraps. -/
def listHash (nextStatesList : List (Option ℕ)) : BitVec 32 :=
  nextStatesList.foldl (fun hash succ => 31 * hash + BitVec.ofNat 32 (succ.getD 0)) 0

/-- `hashmap` and `reducedInputAlphabet`. -/
abbrev Alphabet := List (BitVec 32 × List (List (Option ℕ))) × List ℕ

/-- One more input; it is dropped when an equal list is in its bucket. -/
def alphabetStep (machineNextState : List (List (Option ℕ))) (p : Alphabet) (input : ℕ) :
    Alphabet :=
  let l := nextStatesList machineNextState input
  match p.1.lookup (listHash l) with
  | none => (p.1 ++ [(listHash l, [l])], p.2 ++ [input])
  | some statesListsWithSameHash =>
      if statesListsWithSameHash.any (· = l) then p
      else (p.1.map fun e => if e.1 = listHash l then (e.1, e.2 ++ [l]) else e, p.2 ++ [input])

/-- The inputs `0..maxInput` without those dropped; there are `numInputs` of them. -/
def computeReducedInputAlphabet (numInputs : ℕ) (machineNextState : List (List (Option ℕ))) :
    List ℕ :=
  ((List.range numInputs).foldl (alphabetStep machineNextState) ([], [])).2

/-! ## The formula -/

/-- A state is in a class, or the successors of a class under an input are in a class. -/
inductive CnfVar where
  | state (state sClass : ℕ)
  | aux (a i j : ℕ)
deriving DecidableEq

/-- The arguments of `buildCNF`. -/
structure CnfInput where
  numClasses : ℕ
  machineNextState : List (List (Option ℕ))
  incompMatrix : List Bool
  pairwiseIncStates : List ℕ
  numInputs : ℕ

/-- `possibleSuccClasses`, `smallestSuccClass` and `largestSuccClass`. -/
structure SuccClasses where
  possible : List Bool
  smallest : ℕ
  largest : ℕ

namespace CnfInput

variable (c : CnfInput)

def nStates : ℕ := c.machineNextState.length

/-- `machineNextState[s][a]` -/
def succ (s a : ℕ) : Option ℕ := (c.machineNextState.getD s []).getD a none

/-- `incompMatrix[ai(s, t, nStates)]` -/
def incomp (s t : ℕ) : Bool := c.incompMatrix.getD (ai s t c.nStates) false

/-- `i<pairwiseIncStates.size() && incompMatrix[ai(s, pairwiseIncStates[i], nStates)]` -/
def excluded (s i : ℕ) : Bool :=
  match c.pairwiseIncStates[i]? with
  | some p => c.incomp s p
  | none => false

/-- `statesThatCanBeInClass[i]` -/
def statesThatCanBeInClass (i : ℕ) : List ℕ :=
  (List.range c.nStates).filter fun s => !c.excluded s i

/-- The classes that a state can be in. -/
def classesOf (s : ℕ) : List ℕ := (List.range c.numClasses).filter fun i => !c.excluded s i

/-- add pairwise incompatible states to different classes -/
def fixedClauses : List (CNF.Clause CnfVar) :=
  c.pairwiseIncStates.zipIdx.map fun p => [pos (.state p.1 p.2)]

/-- each state must be in at least one class -/
def coverClauses : List (CNF.Clause CnfVar) :=
  (List.range c.nStates).map fun s => (c.classesOf s).map fun i => pos (.state s i)

/-- incompatible states must not be in the same class: those of the partial solution -/
def cliqueClauses : List (CNF.Clause CnfVar) :=
  c.pairwiseIncStates.zipIdx.flatMap fun p =>
    ((List.range c.nStates).filter (c.incomp p.1)).map fun incompS => [neg (.state incompS p.2)]

/-- and those of all pairs, `incompS` from `s+1` on -/
def pairClauses : List (CNF.Clause CnfVar) :=
  (List.range c.nStates).flatMap fun s => (c.classesOf s).flatMap fun i =>
    ((List.range' (s + 1) (c.nStates - (s + 1))).filter (c.incomp s)).map fun incompS =>
      [neg (.state s i), neg (.state incompS i)]

/-- The states that can be in class `i`, with their successors. -/
def succsOfClass (a i : ℕ) : List (ℕ × ℕ) :=
  (c.statesThatCanBeInClass i).filterMap fun s => (c.succ s a).map fun succS => (s, succS)

/-- Class `j` is noted as one that a successor can be in. -/
def noteClass (w : SuccClasses) (j : ℕ) : SuccClasses :=
  ⟨w.possible.set j true, if j < w.smallest then j else w.smallest,
    if j > w.largest then j else w.largest⟩

def succClasses (a i : ℕ) : SuccClasses :=
  (c.succsOfClass a i).foldl (fun w p => (c.classesOf p.2).foldl noteClass w)
    ⟨List.replicate c.numClasses false, c.numClasses + 1, 0⟩

/-- The classes from `smallestSuccClass` to `largestSuccClass` that are possible. -/
def window (w : SuccClasses) : List ℕ :=
  (List.range' w.smallest (w.largest + 1 - w.smallest)).filter fun j => w.possible.getD j false

/-- The closure constraint of one input and one class. -/
def closureClauses (a i : ℕ) : List (CNF.Clause CnfVar) :=
  let js := window (c.succClasses a i)
  if js = [] then []
  else (js.map fun j => pos (.aux a i j)) ::
    (c.succsOfClass a i).flatMap fun p => js.map fun j =>
      [neg (.aux a i j), neg (.state p.1 i), pos (.state p.2 j)]

/-- The clauses in the order in which they are added. -/
def buildCNF : List (CNF.Clause CnfVar) :=
  c.fixedClauses ++ c.coverClauses ++ c.cliqueClauses ++ c.pairClauses ++
    ((List.range c.numInputs).filter fun a =>
      (computeReducedInputAlphabet c.numInputs c.machineNextState).count a ≠ 0).flatMap fun a =>
        (List.range c.numClasses).flatMap (c.closureClauses a)

/-- `literalToStateClass`, by the number of the variable. -/
def literalToStateClass : List (Option (ℕ × ℕ)) :=
  (varsOf c.buildCNF).map fun
    | .state s i => some (s, i)
    | .aux _ _ _ => none

end CnfInput

/-! ## The reduced alphabet keeps a column of each kind -/

theorem lookup_map_update {K V : Type} [DecidableEq K] {f : V → V} {h k : K} (l : List (K × V)) :
    (l.map fun e => if e.1 = h then (e.1, f e.2) else e).lookup k =
      (l.lookup k).map fun v => if k = h then f v else v := by
  induction l with
  | nil => rfl
  | cons e l ih =>
      obtain ⟨x, v⟩ := e
      have hx : (if x = h then (x, f v) else (x, v)) = (x, if x = h then f v else v) := by
        split <;> rfl
      rw [List.map_cons, hx, List.lookup_cons, List.lookup_cons, ih]
      by_cases hkx : k = x
      · subst hkx
        simp
      · rw [beq_false_of_ne hkx]

/-- The buckets after the inputs `pre`. -/
structure AlphabetInv (next : List (List (Option ℕ))) (pre : List ℕ) (p : Alphabet) : Prop where
  seen : ∀ a ∈ pre, ∃ ls, p.1.lookup (listHash (nextStatesList next a)) = some ls ∧
    nextStatesList next a ∈ ls
  kept : ∀ h ls, p.1.lookup h = some ls → ∀ l ∈ ls, ∃ b ∈ p.2, nextStatesList next b = l
  sub : ∀ b ∈ p.2, b ∈ pre

variable {next : List (List (Option ℕ))}

theorem AlphabetInv.step {pre : List ℕ} {p : Alphabet} (h : AlphabetInv next pre p) (input : ℕ) :
    AlphabetInv next (pre ++ [input]) (alphabetStep next p input) := by
  unfold alphabetStep
  set l := nextStatesList next input with hl
  have hsub : ∀ b ∈ p.2 ++ [input], b ∈ pre ++ [input] := fun b hb => by
    rcases List.mem_append.mp hb with hb | hb
    · exact List.mem_append_left _ (h.sub b hb)
    · exact List.mem_append_right _ hb
  cases hlook : p.1.lookup (listHash l) with
  | none =>
      simp only [hlook]
      refine ⟨fun a ha => ?_, fun k ls hk x hx => ?_, hsub⟩
      · rw [List.lookup_append]
        rcases List.mem_append.mp ha with ha | ha
        · obtain ⟨ls, hls, hin⟩ := h.seen a ha
          exact ⟨ls, by rw [hls]; rfl, hin⟩
        · rw [List.mem_singleton.mp ha, ← hl, hlook]
          exact ⟨[l], by simp, List.mem_singleton_self l⟩
      · rw [List.lookup_append] at hk
        cases hold : p.1.lookup k with
        | some ls' =>
            rw [hold] at hk
            obtain rfl : ls' = ls := Option.some.inj hk
            obtain ⟨b, hb, heq⟩ := h.kept k ls' hold x hx
            exact ⟨b, List.mem_append_left _ hb, heq⟩
        | none =>
            rw [hold, Option.none_or, List.lookup_cons] at hk
            split at hk
            · obtain rfl : [l] = ls := Option.some.inj hk
              exact ⟨input, by simp, (hl.symm.trans (List.mem_singleton.mp hx).symm)⟩
            · exact absurd hk (by simp)
  | some ls =>
      simp only [hlook]
      by_cases hin : ls.any (· = l) = true
      · -- an equal list is there
        rw [if_pos hin]
        obtain ⟨x, hx, heq⟩ := List.any_eq_true.mp hin
        rw [decide_eq_true_eq] at heq
        subst heq
        refine ⟨fun a ha => ?_, h.kept, fun b hb => List.mem_append_left _ (h.sub b hb)⟩
        rcases List.mem_append.mp ha with ha | ha
        · exact h.seen a ha
        · rw [List.mem_singleton.mp ha, ← hl]
          exact ⟨ls, hlook, hx⟩
      · rw [if_neg hin]
        have hupdate : ∀ k,
            (p.1.map fun e => if e.1 = listHash l then (e.1, e.2 ++ [l]) else e).lookup k =
              (p.1.lookup k).map fun ls => if k = listHash l then ls ++ [l] else ls :=
          fun k => lookup_map_update (f := (· ++ [l])) p.1
        refine ⟨fun a ha => ?_, fun k ls' hk x hx => ?_, hsub⟩
        · rw [hupdate]
          rcases List.mem_append.mp ha with ha | ha
          · obtain ⟨ls', hls', hmem⟩ := h.seen a ha
            rw [hls']
            refine ⟨_, rfl, ?_⟩
            split
            · exact List.mem_append_left _ hmem
            · exact hmem
          · rw [List.mem_singleton.mp ha, ← hl, hlook]
            exact ⟨_, rfl, by simp⟩
        · rw [hupdate] at hk
          obtain ⟨old, hold, rfl⟩ := Option.map_eq_some_iff.mp hk
          have hcase : x ∈ old ∨ x = l := by
            split at hx
            · exact (List.mem_append.mp hx).imp_right List.mem_singleton.mp
            · exact Or.inl hx
          rcases hcase with hx | rfl
          · obtain ⟨b, hb, heq⟩ := h.kept k old hold x hx
            exact ⟨b, List.mem_append_left _ hb, heq⟩
          · exact ⟨input, by simp, rfl⟩

/-- A dropped input has the successors of one that is kept. -/
theorem exists_reduced (next : List (List (Option ℕ))) {numInputs a : ℕ} (ha : a < numInputs) :
    ∃ b < numInputs, b ∈ computeReducedInputAlphabet numInputs next ∧
      nextStatesList next b = nextStatesList next a := by
  have hinv : AlphabetInv next (List.range numInputs)
      ((List.range numInputs).foldl (alphabetStep next) ([], [])) :=
    foldl_inv (AlphabetInv next) (fun _ input _ _ _ h => h.step input)
      ⟨by simp, by simp, by simp⟩
  obtain ⟨ls, hls, hin⟩ := hinv.seen a (List.mem_range.mpr ha)
  obtain ⟨b, hb, heq⟩ := hinv.kept _ ls hls _ hin
  exact ⟨b, List.mem_range.mp (hinv.sub b hb), hb, heq⟩

namespace CnfInput

variable {c : CnfInput}

/-! ## Possible classes -/

theorem mem_classesOf {s i : ℕ} :
    i ∈ c.classesOf s ↔ i < c.numClasses ∧ c.excluded s i = false := by
  simp [classesOf]

theorem mem_statesThatCanBeInClass {s i : ℕ} :
    s ∈ c.statesThatCanBeInClass i ↔ s < c.nStates ∧ c.excluded s i = false := by
  simp [statesThatCanBeInClass]

theorem mem_succsOfClass {a i : ℕ} {p : ℕ × ℕ} :
    p ∈ c.succsOfClass a i ↔
      p.1 < c.nStates ∧ c.excluded p.1 i = false ∧ c.succ p.1 a = some p.2 := by
  obtain ⟨s, t⟩ := p
  unfold succsOfClass
  simp only [List.mem_filterMap, Option.map_eq_some_iff, mem_statesThatCanBeInClass]
  constructor
  · rintro ⟨x, ⟨hx, hex⟩, y, hy, heq⟩
    obtain ⟨rfl, rfl⟩ := Prod.mk.inj heq
    exact ⟨hx, hex, hy⟩
  · rintro ⟨hx, hex, hy⟩
    exact ⟨s, ⟨hx, hex⟩, t, hy, rfl⟩

/-- The classes noted so far, and bounds of them. -/
structure WindowInv (n : ℕ) (pre : List ℕ) (w : SuccClasses) : Prop where
  length : w.possible.length = n
  possible : ∀ j, w.possible.getD j false = true ↔ j ∈ pre
  bounds : ∀ j ∈ pre, w.smallest ≤ j ∧ j ≤ w.largest

theorem WindowInv.step {n j : ℕ} {pre : List ℕ} {w : SuccClasses} (h : WindowInv n pre w)
    (hj : j < n) : WindowInv n (pre ++ [j]) (noteClass w j) := by
  refine ⟨by simp [noteClass, h.length], fun x => ?_, fun x hx => ?_⟩
  · simp only [noteClass]
    rw [Marking.getD_set (h.length.symm ▸ hj), List.mem_append, List.mem_singleton, ← h.possible x]
    by_cases hxj : x = j <;> simp [hxj]
  · simp only [noteClass]
    rcases List.mem_append.mp hx with hx | hx
    · obtain ⟨hlo, hhi⟩ := h.bounds x hx
      constructor
      · split <;> omega
      · split <;> omega
    · rw [List.mem_singleton.mp hx]
      constructor
      · split <;> omega
      · split <;> omega

theorem mem_window {a i j : ℕ} :
    j ∈ window (c.succClasses a i) ↔ ∃ p ∈ c.succsOfClass a i, j ∈ c.classesOf p.2 := by
  have hinv : WindowInv c.numClasses ((c.succsOfClass a i).flatMap fun p => c.classesOf p.2)
      (c.succClasses a i) := by
    unfold succClasses
    rw [← List.foldl_flatMap]
    refine foldl_inv (WindowInv c.numClasses) (fun pre j post w hl h => h.step ?_)
      ⟨by simp, by simp, by simp⟩
    have hj : j ∈ (c.succsOfClass a i).flatMap fun p => c.classesOf p.2 := hl ▸ by simp
    obtain ⟨p, -, hp⟩ := List.mem_flatMap.mp hj
    exact (mem_classesOf.mp hp).1
  refine Iff.trans ?_ List.mem_flatMap
  unfold window
  rw [List.mem_filter, hinv.possible, List.mem_range'_1]
  constructor
  · exact And.right
  · intro hj
    have := hinv.bounds j hj
    exact ⟨by omega, hj⟩

/-! ## What the clauses say -/

variable {v : CnfVar → Bool}

theorem sat_fixedClauses : CNF.Sat v (formula c.fixedClauses) ↔
    ∀ i p, c.pairwiseIncStates[i]? = some p → v (.state p i) = true := by
  rw [sat_formula, fixedClauses, List.forall_mem_map]
  constructor
  · intro h i p hp
    simpa [pos] using h (p, i) (List.mk_mem_zipIdx_iff_getElem?.mpr hp)
  · rintro h ⟨p, i⟩ hp
    simpa [pos] using h i p (List.mk_mem_zipIdx_iff_getElem?.mp hp)

theorem sat_coverClauses : CNF.Sat v (formula c.coverClauses) ↔
    ∀ s < c.nStates, ∃ i ∈ c.classesOf s, v (.state s i) = true := by
  rw [sat_formula, coverClauses, List.forall_mem_map]
  simp [pos]

theorem sat_cliqueClauses : CNF.Sat v (formula c.cliqueClauses) ↔
    ∀ i p, c.pairwiseIncStates[i]? = some p → ∀ s < c.nStates, c.incomp p s = true →
      v (.state s i) = false := by
  rw [sat_formula, cliqueClauses]
  simp only [List.forall_mem_flatMap, List.forall_mem_map, List.mem_filter, List.mem_range, and_imp]
  constructor
  · intro h i p hp s hs hinc
    simpa [neg] using h (p, i) (List.mk_mem_zipIdx_iff_getElem?.mpr hp) s hs hinc
  · rintro h ⟨p, i⟩ hp s hs hinc
    simpa [neg] using h i p (List.mk_mem_zipIdx_iff_getElem?.mp hp) s hs hinc

theorem sat_pairClauses : CNF.Sat v (formula c.pairClauses) ↔
    ∀ s < c.nStates, ∀ i ∈ c.classesOf s, ∀ t, s < t → t < c.nStates → c.incomp s t = true →
      v (.state s i) = false ∨ v (.state t i) = false := by
  rw [sat_formula, pairClauses]
  simp only [List.forall_mem_flatMap, List.forall_mem_map, List.mem_filter, List.mem_range,
    List.mem_range'_1, and_imp]
  refine forall₄_congr fun s hs i hi => forall_congr' fun t => ?_
  constructor
  · intro h hst ht hinc
    simpa [neg] using h hst (by omega) hinc
  · intro h hst ht hinc
    simpa [neg] using h hst (by omega) hinc

theorem sat_closureClauses {a i : ℕ} : CNF.Sat v (formula (c.closureClauses a i)) ↔
    (window (c.succClasses a i) ≠ [] → ∃ j ∈ window (c.succClasses a i), v (.aux a i j) = true) ∧
      ∀ p ∈ c.succsOfClass a i, ∀ j ∈ window (c.succClasses a i), v (.aux a i j) = true →
        v (.state p.1 i) = true → v (.state p.2 j) = true := by
  unfold closureClauses
  by_cases hjs : window (c.succClasses a i) = []
  · simp [hjs, sat_formula]
  · simp only [if_neg hjs, sat_formula, List.forall_mem_cons, List.forall_mem_flatMap,
      List.forall_mem_map]
    refine and_congr ?_ (forall₂_congr fun p _ => forall₂_congr fun j _ => ?_)
    · simp [hjs, pos]
    · simp only [List.mem_cons, List.not_mem_nil, or_false, exists_eq_or_imp, exists_eq_left, neg,
        pos]
      cases v (.aux a i j) <;> cases v (.state p.1 i) <;> simp

theorem sat_buildCNF : CNF.Sat v (formula c.buildCNF) ↔
    CNF.Sat v (formula c.fixedClauses) ∧ CNF.Sat v (formula c.coverClauses) ∧
      CNF.Sat v (formula c.cliqueClauses) ∧ CNF.Sat v (formula c.pairClauses) ∧
      ∀ a < c.numInputs, a ∈ computeReducedInputAlphabet c.numInputs c.machineNextState →
        ∀ i < c.numClasses, CNF.Sat v (formula (c.closureClauses a i)) := by
  unfold buildCNF
  simp only [sat_append, and_assoc]
  refine and_congr_right' (and_congr_right' (and_congr_right' (and_congr_right' ?_)))
  simp only [sat_formula, List.forall_mem_flatMap, List.mem_filter, List.mem_range, and_imp,
    decide_eq_true_eq, ne_eq, List.count_eq_zero, not_not]

/-! ## Assignments and closed covers -/

/-- A symmetric matrix, and successors and members of the partial solution that are states. -/
structure Ok (c : CnfInput) : Prop where
  symm : ∀ s < c.nStates, ∀ t < c.nStates, c.incomp s t = c.incomp t s
  succ : ∀ {s a t}, c.succ s a = some t → a < c.numInputs ∧ t < c.nStates
  member : ∀ p ∈ c.pairwiseIncStates, p < c.nStates

/-- The states that must be kept apart. -/
def Apart (c : CnfInput) (s t : ℕ) : Prop := c.incomp s t = true

/-- The classes of an assignment. -/
def classes (v : CnfVar → Bool) (s i : ℕ) : Prop := v (.state s i) = true

/-- A closed cover that has the partial solution in the first classes. -/
def Solution (c : CnfInput) (mem : ℕ → ℕ → Prop) : Prop :=
  ClosedCover c.nStates c.numClasses c.succ c.Apart mem ∧
    Fixed c.nStates c.Apart mem c.pairwiseIncStates

theorem excluded_iff {s i : ℕ} :
    c.excluded s i = true ↔ ∃ p, c.pairwiseIncStates[i]? = some p ∧ c.Apart s p := by
  unfold excluded Apart
  cases c.pairwiseIncStates[i]? <;> simp

theorem Fixed.not_excluded {mem : ℕ → ℕ → Prop}
    (h : Fixed c.nStates c.Apart mem c.pairwiseIncStates) {s i : ℕ} (hs : s < c.nStates)
    (hm : mem s i) : c.excluded s i = false := by
  rw [← Bool.not_eq_true, excluded_iff]
  rintro ⟨p, hp, hinc⟩
  exact (h i p hp).2 s hs hinc hm

theorem succ_congr {a b : ℕ}
    (h : nextStatesList c.machineNextState b = nextStatesList c.machineNextState a) (s : ℕ) :
    c.succ s b = c.succ s a := by
  have hs := congrArg (fun l : List (Option ℕ) => l[s]?) h
  simp only [nextStatesList, List.getElem?_map] at hs
  unfold succ
  rw [List.getD_eq_getElem?_getD (l := c.machineNextState)]
  cases hrow : c.machineNextState[s]? with
  | none => rfl
  | some row =>
      rw [hrow] at hs
      exact Option.some.inj hs

theorem solution_of_sat (h : c.Ok) (hv : CNF.Sat v (formula c.buildCNF)) :
    c.Solution (classes v) := by
  obtain ⟨hfixed, hcover, hclique, hpair, hclosure⟩ := sat_buildCNF.mp hv
  rw [sat_fixedClauses] at hfixed
  rw [sat_coverClauses] at hcover
  rw [sat_cliqueClauses] at hclique
  rw [sat_pairClauses] at hpair
  have hfix : Fixed c.nStates c.Apart (classes v) c.pairwiseIncStates := by
    refine fun i p hp => ⟨hfixed i p hp, fun s hs hinc hm => ?_⟩
    have hno := hclique i p hp s hs
      (h.symm s hs p (h.member p (List.mem_of_getElem? hp)) ▸ hinc)
    rw [classes, hno] at hm
    exact Bool.noConfusion hm
  have hclass : ∀ {s i}, s < c.nStates → i < c.numClasses → classes v s i → i ∈ c.classesOf s :=
    fun hs hi hm => mem_classesOf.mpr ⟨hi, Fixed.not_excluded hfix hs hm⟩
  have hless : ∀ i < c.numClasses, ∀ s t, s < t → t < c.nStates → classes v s i →
      classes v t i → ¬ c.Apart s t := by
    intro i hi s t hst ht hs ht' hinc
    unfold classes at hs ht'
    rcases hpair s (hst.trans ht) i (hclass (hst.trans ht) hi hs) t hst ht hinc with hno | hno
    · exact Bool.noConfusion (hs.symm.trans hno)
    · exact Bool.noConfusion (ht'.symm.trans hno)
  refine ⟨⟨fun s hs => ?_, fun i hi s hs t ht hne hsi hti hinc => ?_, fun i hi a => ?_⟩, hfix⟩
  · obtain ⟨i, hi, hm⟩ := hcover s hs
    exact ⟨i, (mem_classesOf.mp hi).1, hm⟩
  · rcases Nat.lt_or_gt_of_ne hne with hlt | hlt
    · exact hless i hi s t hlt ht hsi hti hinc
    · exact hless i hi t s hlt hs hti hsi ((h.symm t ht s hs).trans hinc)
  · by_cases hmove : ∃ s < c.nStates, classes v s i ∧ ∃ t, c.succ s a = some t
    · -- the constraint stands under an input with the same successors
      obtain ⟨s, hs, hm, t, ht⟩ := hmove
      obtain ⟨b, hb, hred, hcol⟩ := exists_reduced c.machineNextState (h.succ ht).1
      have hin : ∀ {s t}, s < c.nStates → classes v s i → c.succ s a = some t →
          (s, t) ∈ c.succsOfClass b i := fun hs hm ht =>
        mem_succsOfClass.mpr ⟨hs, Fixed.not_excluded hfix hs hm, (succ_congr hcol _).trans ht⟩
      obtain ⟨hor, himp⟩ := sat_closureClauses.mp (hclosure b hb hred i hi)
      obtain ⟨j₀, hj₀, -⟩ := hcover t (h.succ ht).2
      have hwin := mem_window.mpr ⟨_, hin hs hm ht, hj₀⟩
      obtain ⟨j, hj, haux⟩ := hor (List.ne_nil_of_mem hwin)
      obtain ⟨p, -, hp⟩ := mem_window.mp hj
      exact ⟨j, (mem_classesOf.mp hp).1, fun s hs hm t ht => himp _ (hin hs hm ht) j hj haux hm⟩
    · exact ⟨i, hi, fun s hs hm t ht => absurd ⟨s, hs, hm, t, ht⟩ hmove⟩

open Classical in
/-- The assignment of a cover: an auxiliary variable says that all successors of one class are in
another. -/
noncomputable def assignOf (c : CnfInput) (mem : ℕ → ℕ → Prop) : CnfVar → Bool
  | .state s i => decide (mem s i)
  | .aux a i j => decide (∀ s < c.nStates, mem s i → ∀ t, c.succ s a = some t → mem t j)

theorem assignOf_state {mem : ℕ → ℕ → Prop} {s i : ℕ} :
    c.assignOf mem (.state s i) = true ↔ mem s i := by
  simp [assignOf]

theorem assignOf_aux {mem : ℕ → ℕ → Prop} {a i j : ℕ} : c.assignOf mem (.aux a i j) = true ↔
    ∀ s < c.nStates, mem s i → ∀ t, c.succ s a = some t → mem t j := by
  simp [assignOf]

theorem assignOf_state_false {mem : ℕ → ℕ → Prop} {s i : ℕ} :
    c.assignOf mem (.state s i) = false ↔ ¬ mem s i := by
  simp [assignOf]

theorem sat_of_solution {mem : ℕ → ℕ → Prop} (h : c.Ok) (hsol : c.Solution mem) :
    CNF.Sat (c.assignOf mem) (formula c.buildCNF) := by
  obtain ⟨hcov, hfix⟩ := hsol
  refine sat_buildCNF.mpr ⟨?_, ?_, ?_, ?_, fun a _ _ i hi => ?_⟩
  · rw [sat_fixedClauses]
    exact fun i p hp => assignOf_state.mpr (hfix i p hp).1
  · rw [sat_coverClauses]
    intro s hs
    obtain ⟨i, hi, hm⟩ := hcov.cover s hs
    exact ⟨i, mem_classesOf.mpr ⟨hi, Fixed.not_excluded hfix hs hm⟩, assignOf_state.mpr hm⟩
  · rw [sat_cliqueClauses]
    refine fun i p hp s hs hinc => assignOf_state_false.mpr ((hfix i p hp).2 s hs ?_)
    exact (h.symm s hs p (h.member p (List.mem_of_getElem? hp))).trans hinc
  · rw [sat_pairClauses]
    intro s hs i hi t hst ht hinc
    by_cases hm : mem s i
    · refine Or.inr (assignOf_state_false.mpr fun hm' => ?_)
      exact hcov.compat i (mem_classesOf.mp hi).1 s hs t ht hst.ne hm hm' hinc
    · exact Or.inl (assignOf_state_false.mpr hm)
  · rw [sat_closureClauses]
    constructor
    · intro hne
      by_cases hmove : ∃ s < c.nStates, mem s i ∧ ∃ t, c.succ s a = some t
      · obtain ⟨j, hj, hall⟩ := hcov.closed i hi a
        obtain ⟨s, hs, hm, t, ht⟩ := hmove
        have htn := (h.succ ht).2
        refine ⟨j, mem_window.mpr ⟨(s, t), ?_, ?_⟩, assignOf_aux.mpr hall⟩
        · exact mem_succsOfClass.mpr ⟨hs, Fixed.not_excluded hfix hs hm, ht⟩
        · exact mem_classesOf.mpr ⟨hj, Fixed.not_excluded hfix htn (hall s hs hm t ht)⟩
      · -- no member moves, so every class will do
        obtain ⟨j, hj⟩ := List.exists_mem_of_ne_nil _ hne
        exact ⟨j, hj, assignOf_aux.mpr fun s hs hm t ht => absurd ⟨s, hs, hm, t, ht⟩ hmove⟩
    · rintro ⟨s, t⟩ hp j - haux hm
      obtain ⟨hs, -, ht⟩ := mem_succsOfClass.mp hp
      exact assignOf_state.mpr (assignOf_aux.mp haux s hs (assignOf_state.mp hm) t ht)

/-- A member of the partial solution that is incompatible with itself is asked to be in its class
and out of it. -/
theorem not_satisfiable_of_self {p : ℕ} (hp : p ∈ c.pairwiseIncStates) (hlt : p < c.nStates)
    (hself : c.Apart p p) : ¬ Satisfiable (numbered c.buildCNF) := by
  rw [satisfiable_numbered]
  rintro ⟨v, hv⟩
  obtain ⟨hfixed, -, hclique, -⟩ := sat_buildCNF.mp hv
  obtain ⟨i, hi⟩ := List.mem_iff_getElem?.mp hp
  have hin := sat_fixedClauses.mp hfixed i p hi
  have hout := sat_cliqueClauses.mp hclique i p hi p hlt hself
  exact Bool.noConfusion (hin.symm.trans hout)

/-- The formula is satisfiable exactly when there is a closed cover of its size. -/
theorem satisfiable_iff (h : c.Ok) :
    Satisfiable (numbered c.buildCNF) ↔ ∃ mem, c.Solution mem := by
  rw [satisfiable_numbered]
  constructor
  · rintro ⟨v, hv⟩
    exact ⟨_, solution_of_sat h hv⟩
  · rintro ⟨mem, hmem⟩
    exact ⟨_, sat_of_solution h hmem⟩

end CnfInput

end ExtFolding.MeMin
