import ExtFolding.Lib.Marking
import ExtFolding.MeMin.Machine

/-!
# `memin/minimizer.cpp`: `removeUnreachableStates`

The states that the reset state reaches are flagged. Then the last flagged state is moved into each
hole, and what is left at the end is cut off; the numbers in the rows are renamed afterwards.
-/

namespace ExtFolding.MeMin

/-- A state that rows lead to from the reset state. -/
def Reachable (states : List (List Trans)) (resetState : ℕ) : ℕ → Prop :=
  Relation.ReflTransGen (fun s t => t ∈ nextStates states s) resetState

/-! ## The code -/

/-- `reachableStates` after the loop over the work list. -/
def reachableStates (machine : List (List Trans)) (resetState : ℕ) : Option (List Bool) :=
  (Marking.flags machine.length).drain (nextStates machine) machine.length [resetState]
    ((List.replicate machine.length false).set resetState true)

/-- `machine`, `reachableStates` and `stateRemapping`; an entry that has not been written is
`none`. -/
structure Compaction where
  machine : List (List Trans)
  reachable : List Bool
  stateRemapping : List (Option ℕ)

/-- The scan for `lastReachableState` below `k`; `none` where the index wraps. -/
def lastReachableState (reachable : List Bool) : ℕ → Option ℕ
  | 0 => none
  | k + 1 => if reachable.getD k false then some k else lastReachableState reachable k

/-- The body of the loop over the vector of states. -/
def compactStep (c : Compaction) (i : ℕ) : Option Compaction :=
  if c.reachable.getD i false then
    some { c with stateRemapping := c.stateRemapping.set i (some i) }
  else do
    let last ← lastReachableState c.reachable c.machine.length
    if last > i then
      some {
        machine := (c.machine.set i (rowsOf c.machine last)).dropLast
        reachable := (c.reachable.set i true).set last false
        stateRemapping := c.stateRemapping.set last (some i) }
    else
      some { c with machine := c.machine.take (last + 1) }

/-- The loop ends at the size that the vector then has; it never grows. -/
def compact (machine : List (List Trans)) (reachable : List Bool) : Option Compaction :=
  (List.range machine.length).foldlM
    (fun c i => if i < c.machine.length then compactStep c i else some c)
    ⟨machine, reachable, List.replicate machine.length none⟩

/-- `p.first = stateRemapping[p.first]` -/
def remapRow (stateRemapping : List (Option ℕ)) (t : Trans) : Option Trans := do
  return (t.1, ← stateRemapping.getD t.2.1 none, t.2.2)

def removeUnreachableStates (machine : List (List Trans)) (resetState : ℕ) :
    Option (List (List Trans) × ℕ) := do
  let c ← compact machine (← reachableStates machine resetState)
  let machine ← c.machine.mapM fun trans => trans.mapM (remapRow c.stateRemapping)
  return (machine, ← c.stateRemapping.getD resetState none)

/-! ## The flags -/

variable {machine : List (List Trans)} {resetState : ℕ}

theorem NextOk.reachable_lt (h : NextOk machine) (hr : resetState < machine.length) {s : ℕ}
    (hs : Reachable machine resetState s) : s < machine.length := by
  cases hs with
  | refl => exact hr
  | tail _ hstep => exact h.lt hstep

/-- The work list flags the reachable states. -/
theorem reachableStates_spec (h : NextOk machine) (hr : resetState < machine.length) :
    ∃ fl, reachableStates machine resetState = some fl ∧ fl.length = machine.length ∧
      ∀ s < machine.length, (fl.getD s false = true ↔ Reachable machine resetState s) := by
  set M := Marking.flags machine.length
  set start := (List.replicate machine.length false).set resetState true
  have hok : M.ok start := by
    show start.length = machine.length
    simp [start]
  have hget : ∀ s < machine.length, (M.marked start s = true ↔ s = resetState) := by
    intro s hs
    show start.getD s false = true ↔ s = resetState
    rw [Marking.getD_set (by simpa using hr)]
    by_cases hsr : s = resetState <;> simp [hsr, hs]
  have hg : M.Graph (nextStates machine) :=
    ⟨fun _ hc => Finset.mem_range.mpr (h.lt hc), fun _ hc => hc⟩
  have hcard : (M.unmarked start).card < machine.length := by
    have hsub : M.unmarked start ⊂ M.nodes := by
      refine Finset.ssubset_iff_subset_ne.mpr ⟨Finset.filter_subset .., fun heq => ?_⟩
      have hin : resetState ∈ M.unmarked start := heq ▸ Finset.mem_range.mpr hr
      have hfalse := (Finset.mem_filter.mp hin).2
      rw [(hget resetState hr).mpr rfl] at hfalse
      exact Bool.noConfusion hfalse
    simpa [M, Marking.flags] using Finset.card_lt_card hsub
  obtain ⟨fl, hrun, hfl⟩ := Marking.drain_spec hg machine.length [resetState] start hok
    (fun _ _ hm => hm) (fun a ha => by rw [List.mem_singleton.mp ha]; exact Finset.mem_range.mpr hr)
    (by rw [List.length_singleton]; omega)
  refine ⟨fl, hrun, hfl.ok, fun s hs => ⟨fun hm => ?_, fun hreach => ?_⟩⟩
  · refine hfl.sound (Reachable machine resetState)
      ⟨fun _ hP hc => Relation.ReflTransGen.tail hP hc, fun _ hP => hP⟩
      (fun a ha => ?_) (fun b hb hm => ?_) s (Finset.mem_range.mpr hs) hm
    · rw [List.mem_singleton.mp ha]
      exact Relation.ReflTransGen.refl
    · rw [(hget b (Finset.mem_range.mp hb)).mp hm]
      exact Relation.ReflTransGen.refl
  · induction hreach with
    | refl => exact hfl.sub resetState (Finset.mem_range.mpr hr) ((hget resetState hr).mpr rfl)
    | @tail b c hprev hstep ih =>
        have hb := h.reachable_lt hr hprev
        have hbm := ih hb
        rcases hfl.closed b (Finset.mem_range.mpr hb) hbm with hm | hcl
        · rw [(hget b hb).mp hm] at hstep
          exact hfl.start resetState (List.mem_singleton_self _) c hstep
        · exact hcl c hstep

/-! ## The compaction -/

theorem lastReachableState_spec {fl : List Bool} {k : ℕ} (h : ∃ r < k, fl.getD r false = true) :
    ∃ last, lastReachableState fl k = some last ∧ last < k ∧ fl.getD last false = true ∧
      ∀ r, last < r → r < k → fl.getD r false = false := by
  induction k with
  | zero =>
      obtain ⟨r, hr, -⟩ := h
      exact absurd hr (Nat.not_lt_zero r)
  | succ k ih =>
      unfold lastReachableState
      by_cases hk : fl.getD k false = true
      · exact ⟨k, if_pos hk, Nat.lt_succ_self k, hk, fun r h₁ h₂ => by omega⟩
      · obtain ⟨last, hlast, hlt, hm, hnone⟩ := ih (by
          obtain ⟨r, hr, hm⟩ := h
          refine ⟨r, Nat.lt_of_le_of_ne (Nat.lt_succ_iff.mp hr) ?_, hm⟩
          rintro rfl
          exact hk hm)
        refine ⟨last, by rw [if_neg hk, hlast], by omega, hm, fun r h₁ h₂ => ?_⟩
        rcases Nat.lt_succ_iff_lt_or_eq.mp h₂ with h₂ | rfl
        · exact hnone r h₁ h₂
        · simpa using hk

/-- The loop before index `i`: place `j` holds the state `src[j]` of the old machine, and the
flagged states that are not placed are still where they were. -/
structure Packed (machine : List (List Trans)) (fl : List Bool) (i : ℕ) (c : Compaction)
    (src : List ℕ) : Prop where
  nodup : src.Nodup
  flagged : ∀ r ∈ src, r < machine.length ∧ fl.getD r false = true
  le : src.length ≤ i
  size : src.length ≤ c.machine.length
  shrunk : c.machine.length ≤ machine.length
  stop : src.length = i ∨ src.length = c.machine.length
  reachable : c.reachable.length = machine.length
  remapping : c.stateRemapping.length = machine.length
  placed : ∀ (j : ℕ) r, src[j]? = some r → rowsOf c.machine j = rowsOf machine r ∧
    c.reachable.getD j false = true ∧ c.stateRemapping.getD r none = some j
  waiting : ∀ r, src.length ≤ r → c.reachable.getD r false = true →
    r < c.machine.length ∧ r ∉ src ∧ fl.getD r false = true ∧ rowsOf c.machine r = rowsOf machine r
  all : ∀ r < machine.length, fl.getD r false = true →
    r ∈ src ∨ (src.length ≤ r ∧ c.reachable.getD r false = true)

variable {fl : List Bool} {i : ℕ} {c : Compaction} {src : List ℕ}

theorem Packed.start (hfl : fl.length = machine.length) :
    Packed machine fl 0 ⟨machine, fl, List.replicate machine.length none⟩ [] :=
  ⟨List.nodup_nil, by simp, Nat.le_refl 0, Nat.zero_le _, Nat.le_refl _, Or.inl rfl, hfl, by simp,
    by simp, fun r _ hm => ⟨hfl ▸ Marking.lt_of_flag hm, by simp, hm, rfl⟩,
    fun r _ hm => Or.inr ⟨Nat.zero_le r, hm⟩⟩

/-- Past the end of the vector. -/
theorem Packed.skip (h : Packed machine fl i c src) (hi : c.machine.length ≤ i) :
    Packed machine fl (i + 1) c src := by
  have hsize : src.length = c.machine.length := by
    rcases h.stop with hs | hs
    · exact Nat.le_antisymm h.size (hs ▸ hi)
    · exact hs
  exact { h with le := Nat.le_succ_of_le h.le, stop := Or.inr hsize }

/-- A flagged state stays in its place. -/
theorem Packed.keep (h : Packed machine fl i c src) (hi : i < c.machine.length)
    (hm : c.reachable.getD i false = true) :
    Packed machine fl (i + 1) { c with stateRemapping := c.stateRemapping.set i (some i) }
      (src ++ [i]) := by
  have hlen : src.length = i := h.stop.resolve_right fun hs => by have := h.le; omega
  obtain ⟨-, hnot, hfl, hrow⟩ := h.waiting i hlen.le hm
  have hremap : ∀ r, (c.stateRemapping.set i (some i)).getD r none =
      if r = i then some i else c.stateRemapping.getD r none := fun r =>
    Marking.getD_set (by rw [h.remapping]; exact hi.trans_le h.shrunk)
  have hlen' : (src ++ [i]).length = i + 1 := by simp [hlen]
  refine ⟨h.nodup.append (List.nodup_singleton i) (by simpa using hnot), fun r hr => ?_, hlen'.le,
    hlen'.trans_le hi, h.shrunk, Or.inl hlen', h.reachable, by simp [h.remapping],
    fun j r hj => ?_, fun r hr hmr => ?_, fun r hr hmr => ?_⟩
  · rcases List.mem_append.mp hr with hr | hr
    · exact h.flagged r hr
    · rw [List.mem_singleton.mp hr]
      exact ⟨hi.trans_le h.shrunk, hfl⟩
  · rw [hremap]
    by_cases hji : j < i
    · rw [List.getElem?_append_left (hlen.symm ▸ hji)] at hj
      obtain ⟨hp, hmj, hrm⟩ := h.placed j r hj
      exact ⟨hp, hmj, by rw [if_neg (by rintro rfl; exact hnot (List.mem_of_getElem? hj)), hrm]⟩
    · obtain rfl : j = i := by
        have := (List.getElem?_eq_some_iff.mp hj).1
        omega
      obtain rfl : r = j := by
        rw [List.getElem?_append_right hlen.le, hlen, Nat.sub_self] at hj
        exact (Option.some.inj hj).symm
      exact ⟨hrow, hm, if_pos rfl⟩
  · obtain ⟨hlt, hin, hflr, hrr⟩ := h.waiting r (by omega) hmr
    exact ⟨hlt, by simp [hin]; omega, hflr, hrr⟩
  · rcases h.all r hr hmr with hin | ⟨hle, hmr'⟩
    · exact Or.inl (List.mem_append_left _ hin)
    · by_cases hri : r = i
      · exact Or.inl (by simp [hri])
      · exact Or.inr ⟨by omega, hmr'⟩

/-- The last flagged state is moved into a hole. -/
theorem Packed.move (h : Packed machine fl i c src) (hi : i < c.machine.length)
    (hm : c.reachable.getD i false ≠ true) {last : ℕ} (hlast : last < c.machine.length)
    (hml : c.reachable.getD last false = true) (hil : i < last)
    (hnone : ∀ r, last < r → r < c.machine.length → c.reachable.getD r false = false) :
    Packed machine fl (i + 1)
      { machine := (c.machine.set i (rowsOf c.machine last)).dropLast
        reachable := (c.reachable.set i true).set last false
        stateRemapping := c.stateRemapping.set last (some i) } (src ++ [last]) := by
  have hlen : src.length = i := h.stop.resolve_right fun hs => by have := h.le; omega
  obtain ⟨-, hnot, hfl, hrow⟩ := h.waiting last (by omega) hml
  have hshrunk := h.shrunk
  have hremap : ∀ r, (c.stateRemapping.set last (some i)).getD r none =
      if r = last then some i else c.stateRemapping.getD r none := fun r =>
    Marking.getD_set (by rw [h.remapping]; omega)
  have hflag : ∀ r, ((c.reachable.set i true).set last false).getD r false =
      if r = last then false else if r = i then true else c.reachable.getD r false := by
    intro r
    rw [Marking.getD_set (by rw [List.length_set, h.reachable]; omega),
      Marking.getD_set (by rw [h.reachable]; omega)]
  have hsize : (c.machine.set i (rowsOf c.machine last)).dropLast.length =
    c.machine.length - 1 := by
    simp
  have hrows : ∀ r, r < c.machine.length - 1 →
      rowsOf (c.machine.set i (rowsOf c.machine last)).dropLast r =
        if r = i then rowsOf c.machine last else rowsOf c.machine r := by
    intro r hr
    unfold rowsOf
    rw [List.getD_eq_getElem?_getD, List.getElem?_dropLast, if_pos (by simpa using hr),
      ← List.getD_eq_getElem?_getD, Marking.getD_set hi]
  have hlen' : (src ++ [last]).length = i + 1 := by simp [hlen]
  refine ⟨h.nodup.append (List.nodup_singleton last) (by simpa using hnot),
    fun r hr => ?_, hlen'.le,
    by rw [hlen', hsize]; omega, by rw [hsize]; omega, Or.inl hlen', by simp [h.reachable],
    by simp [h.remapping], fun j r hj => ?_, fun r hr hmr => ?_, fun r hr hmr => ?_⟩
  · rcases List.mem_append.mp hr with hr | hr
    · exact h.flagged r hr
    · rw [List.mem_singleton.mp hr]
      exact ⟨by omega, hfl⟩
  · rw [hremap, hflag]
    by_cases hji : j < i
    · rw [List.getElem?_append_left (hlen.symm ▸ hji)] at hj
      obtain ⟨hp, hmj, hrm⟩ := h.placed j r hj
      rw [hrows j (by omega), if_neg hji.ne, if_neg (by omega), if_neg hji.ne,
        if_neg (by rintro rfl; exact hnot (List.mem_of_getElem? hj))]
      exact ⟨hp, hmj, hrm⟩
    · obtain rfl : j = i := by
        have := (List.getElem?_eq_some_iff.mp hj).1
        omega
      obtain rfl : r = last := by
        rw [List.getElem?_append_right hlen.le, hlen, Nat.sub_self] at hj
        exact (Option.some.inj hj).symm
      rw [hrows j (by omega), if_pos rfl, if_neg hil.ne, if_pos rfl, if_pos rfl]
      exact ⟨hrow, rfl, rfl⟩
  · rw [hlen'] at hr
    change ((c.reachable.set i true).set last false).getD r false = true at hmr
    rw [hflag] at hmr
    have hrl : r ≠ last := by
      rintro rfl
      simp at hmr
    rw [if_neg hrl, if_neg (by omega)] at hmr
    obtain ⟨hlt, hin, hflr, hrr⟩ := h.waiting r (by omega) hmr
    -- nothing is flagged behind the last one
    have hbefore : r < last := by
      by_contra hge
      rw [hnone r (by omega) hlt] at hmr
      exact Bool.noConfusion hmr
    refine ⟨by rw [hsize]; omega, by simp [hin, hrl], hflr, ?_⟩
    rw [hrows r (by omega), if_neg (by omega), hrr]
  · rcases h.all r hr hmr with hin | ⟨hle, hmr'⟩
    · exact Or.inl (List.mem_append_left _ hin)
    · by_cases hrl : r = last
      · exact Or.inl (by simp [hrl])
      · have hri : r ≠ i := by
          rintro rfl
          exact hm hmr'
        refine Or.inr ⟨by omega, ?_⟩
        rw [hflag, if_neg hrl, if_neg hri]
        exact hmr'

/-- Behind the last flagged state everything is cut off. -/
theorem Packed.cut (h : Packed machine fl i c src) (hi : i < c.machine.length)
    (hm : c.reachable.getD i false ≠ true) {last : ℕ} (hlast : last < c.machine.length)
    (hml : c.reachable.getD last false = true) (hli : last ≤ i)
    (hnone : ∀ r, last < r → r < c.machine.length → c.reachable.getD r false = false) :
    Packed machine fl (i + 1) { c with machine := c.machine.take (last + 1) } src := by
  have hlen : src.length = i := h.stop.resolve_right fun hs => by have := h.le; omega
  have hne : last ≠ i := by
    rintro rfl
    exact hm hml
  -- the places before `i` are all flagged
  have hlast' : last + 1 = i := by
    by_contra hgap
    obtain ⟨r, hj⟩ : ∃ r, src[last + 1]? = some r := ⟨_, List.getElem?_eq_getElem (by omega)⟩
    have := (h.placed _ r hj).2.1
    rw [hnone (last + 1) (Nat.lt_succ_self last) (by omega)] at this
    exact Bool.noConfusion this
  have hsize : (c.machine.take (last + 1)).length = i := by
    rw [List.length_take, hlast']
    omega
  have hwait : ∀ r, src.length ≤ r → c.reachable.getD r false = true → False := by
    intro r hr hmr
    obtain ⟨hlt, -⟩ := h.waiting r hr hmr
    rw [hnone r (by omega) hlt] at hmr
    exact Bool.noConfusion hmr
  refine ⟨h.nodup, h.flagged, by omega, by rw [hsize, hlen], by rw [hsize]; have := h.shrunk; omega,
    Or.inr (by rw [hsize, hlen]), h.reachable, h.remapping, fun j r hj => ?_,
    fun r hr hmr => (hwait r hr hmr).elim, h.all⟩
  obtain ⟨hp, hmj, hrm⟩ := h.placed j r hj
  have hji : j < last + 1 := by
    have := (List.getElem?_eq_some_iff.mp hj).1
    omega
  refine ⟨?_, hmj, hrm⟩
  unfold rowsOf at hp ⊢
  rw [← hp, List.getD_eq_getElem?_getD, List.getElem?_take_of_lt hji,
    ← List.getD_eq_getElem?_getD]

/-- While the loop runs something is flagged, so the scan stops. -/
theorem Packed.step (h : Packed machine fl i c src) (hi : i < c.machine.length)
    (hsome : ∃ r < machine.length, fl.getD r false = true) :
    ∃ c' src', compactStep c i = some c' ∧ Packed machine fl (i + 1) c' src' := by
  unfold compactStep
  by_cases hm : c.reachable.getD i false = true
  · exact ⟨_, _, if_pos hm, h.keep hi hm⟩
  · have hflag : ∃ r < c.machine.length, c.reachable.getD r false = true := by
      obtain ⟨r, hr, hmr⟩ := hsome
      rcases h.all r hr hmr with hin | ⟨hle, hmr'⟩
      · obtain ⟨j, hj⟩ := List.mem_iff_getElem?.mp hin
        exact ⟨j, (List.getElem?_eq_some_iff.mp hj).1.trans_le h.size, (h.placed j r hj).2.1⟩
      · exact ⟨r, (h.waiting r hle hmr').1, hmr'⟩
    obtain ⟨last, hscan, hlast, hml, hnone⟩ := lastReachableState_spec hflag
    rw [if_neg hm, hscan]
    by_cases hil : last > i
    · exact ⟨_, _, if_pos hil, h.move hi hm hlast hml hil hnone⟩
    · exact ⟨_, _, if_neg hil, h.cut hi hm hlast hml (Nat.le_of_not_lt hil) hnone⟩

/-- What the loop leaves: the flagged states, each in one place. -/
theorem compact_spec (hfl : fl.length = machine.length)
    (hsome : ∃ r < machine.length, fl.getD r false = true) :
    ∃ (c : Compaction) (src : List ℕ), compact machine fl = some c ∧ src.Nodup ∧
      c.machine.length = src.length ∧
      (∀ r, r ∈ src ↔ r < machine.length ∧ fl.getD r false = true) ∧
      ∀ (j : ℕ) r, src[j]? = some r →
        rowsOf c.machine j = rowsOf machine r ∧ c.stateRemapping.getD r none = some j := by
  obtain ⟨s, -, hinv, -, hrun⟩ := foldlM_range
    (f := fun c i => if i < c.machine.length then compactStep c i else some c)
    (fun i c => ∃ src, Packed machine fl i c src)
    (fun i _ c ⟨src, h⟩ => by
      by_cases hlt : i < c.machine.length
      · obtain ⟨c', src', hstep, h'⟩ := h.step hlt hsome
        exact ⟨c', (if_pos hlt).trans hstep, src', h'⟩
      · exact ⟨c, if_neg hlt, src, h.skip (Nat.le_of_not_lt hlt)⟩)
    ⟨[], Packed.start hfl⟩
  obtain ⟨src, h⟩ := hinv machine.length (Nat.le_refl _)
  have hsize : src.length = (s machine.length).machine.length := by
    rcases h.stop with hs | hs
    · exact Nat.le_antisymm h.size (hs ▸ h.shrunk)
    · exact hs
  refine ⟨_, src, hrun, h.nodup, hsize.symm, fun r => ⟨h.flagged r, fun ⟨hr, hmr⟩ => ?_⟩,
    fun j r hj => ⟨(h.placed j r hj).1, (h.placed j r hj).2.2⟩⟩
  refine (h.all r hr hmr).resolve_right fun ⟨hle, hmr'⟩ => ?_
  have := (h.waiting r hle hmr').1
  omega

/-! ## The result -/

/-- A row after the states have been renamed. -/
def renameRow (f : ℕ → ℕ) (t : Trans) : Trans := (t.1, f t.2.1, t.2.2)

/-- The reachable machine under new names for its states. -/
structure Renamed (machine : List (List Trans)) (resetState : ℕ) (machine' : List (List Trans))
    (f : ℕ → ℕ) : Prop where
  bij : Set.BijOn f {s | Reachable machine resetState s} {t | t < machine'.length}
  rows : ∀ s, Reachable machine resetState s →
    machine'[f s]? = (machine[s]?).map fun rows => rows.map (renameRow f)

theorem exists_renamed (h : NextOk machine) (hr : resetState < machine.length) :
    ∃ machine' f, removeUnreachableStates machine resetState = some (machine', f resetState) ∧
      Renamed machine resetState machine' f := by
  obtain ⟨fl, hbfs, hfl, hmark⟩ := reachableStates_spec h hr
  obtain ⟨c, src, hrun, hnd, hlen, hmem, hplace⟩ := compact_spec hfl
    ⟨resetState, hr, (hmark resetState hr).mpr Relation.ReflTransGen.refl⟩
  have hin : ∀ s, Reachable machine resetState s → s ∈ src := fun s hs =>
    (hmem s).mpr ⟨h.reachable_lt hr hs, (hmark s (h.reachable_lt hr hs)).mpr hs⟩
  have hreach : ∀ s ∈ src, Reachable machine resetState s := fun s hs =>
    (hmark s ((hmem s).mp hs).1).mp ((hmem s).mp hs).2
  set f : ℕ → ℕ := fun s => src.idxOf s
  have hat : ∀ s ∈ src, src[f s]? = some s := fun s hs => List.getElem?_idxOf hs
  have hremap : ∀ s ∈ src, c.stateRemapping.getD s none = some (f s) := fun s hs =>
    (hplace _ s (hat s hs)).2
  have hrow : ∀ trans ∈ c.machine, ∀ t ∈ trans,
      remapRow c.stateRemapping t = some (renameRow f t) := by
    intro trans htrans t ht
    obtain ⟨j, hj⟩ := List.mem_iff_getElem?.mp htrans
    have hjlen := (List.getElem?_eq_some_iff.mp hj).1
    obtain ⟨r, hjr⟩ : ∃ r, src[j]? = some r := ⟨_, List.getElem?_eq_getElem (hlen ▸ hjlen)⟩
    obtain rfl : trans = rowsOf machine r := by
      rw [← (hplace j r hjr).1]
      exact Option.some.inj (hj.symm.trans (getElem?_rowsOf hjlen))
    have hnext : t.2.1 ∈ src := hin _ (Relation.ReflTransGen.tail
      (hreach r (List.mem_of_getElem? hjr)) (List.mem_map.mpr ⟨t, ht, rfl⟩))
    unfold remapRow
    rw [hremap _ hnext]
    rfl
  refine ⟨c.machine.map fun trans => trans.map (renameRow f), f, ?_,
    ⟨fun s hs => ?_, fun s hs t ht heq => ?_, fun t ht => ?_⟩, fun s hs => ?_⟩
  · unfold removeUnreachableStates
    rw [hbfs, Option.bind_eq_bind, Option.bind_some, hrun, Option.bind_eq_bind, Option.bind_some,
      mapM_eq_map fun trans htrans => mapM_eq_map (hrow trans htrans),
      hremap _ (hin _ Relation.ReflTransGen.refl)]
    rfl
  · show f s < _
    rw [List.length_map, hlen]
    exact List.idxOf_lt_length_of_mem (hin s hs)
  · have heq' : f s = f t := heq
    have := hat s (hin s hs)
    rw [heq', hat t (hin t ht)] at this
    exact (Option.some.inj this).symm
  · have ht' : t < src.length := by
      have : t < (c.machine.map _).length := ht
      rwa [List.length_map, hlen] at this
    exact ⟨src[t], hreach _ (List.getElem_mem ht'), hnd.idxOf_getElem t ht'⟩
  · have hs' := hin s hs
    have hf : f s < c.machine.length := hlen ▸ List.idxOf_lt_length_of_mem hs'
    rw [List.getElem?_map, getElem?_rowsOf hf, (hplace _ s (hat s hs')).1,
      getElem?_rowsOf ((hmem s).mp hs').1]

/-- A row of the new machine is a renamed row of a reachable state. -/
theorem Renamed.row {machine' : List (List Trans)} {f : ℕ → ℕ}
    (hf : Renamed machine resetState machine' f) {trans : List Trans} (htrans : trans ∈ machine')
    {t : Trans} (ht : t ∈ trans) :
    ∃ s, Reachable machine resetState s ∧ ∃ t' ∈ rowsOf machine s, renameRow f t' = t := by
  obtain ⟨j, hj⟩ := List.mem_iff_getElem?.mp htrans
  obtain ⟨s, hs, rfl⟩ := hf.bij.surjOn (List.getElem?_eq_some_iff.mp hj).1
  rw [hf.rows s hs] at hj
  obtain ⟨rows, hrows, rfl⟩ := Option.map_eq_some_iff.mp hj
  obtain ⟨t', ht', rfl⟩ := List.mem_map.mp ht
  exact ⟨s, hs, t', by rwa [rowsOf, List.getD_eq_getElem?_getD, hrows], rfl⟩

theorem Renamed.machOk {ni no : ℕ} {machine' : List (List Trans)} {f : ℕ → ℕ}
    (h : MachOk ni no machine) (hf : Renamed machine resetState machine' f) :
    MachOk ni no machine' := by
  refine ⟨fun trans htrans t ht => ?_, fun trans htrans t ht => ?_, fun trans htrans t ht => ?_⟩
  · obtain ⟨s, hs, t', ht', rfl⟩ := hf.row htrans ht
    exact hf.bij.mapsTo (Relation.ReflTransGen.tail hs (List.mem_map.mpr ⟨t', ht', rfl⟩))
  · obtain ⟨s, -, t', ht', rfl⟩ := hf.row htrans ht
    exact (h.input_wf ht' :)
  · obtain ⟨s, -, t', ht', rfl⟩ := hf.row htrans ht
    exact (h.output_wf ht' :)

theorem Renamed.reset_lt {machine' : List (List Trans)} {f : ℕ → ℕ}
    (hf : Renamed machine resetState machine' f) : f resetState < machine'.length :=
  hf.bij.mapsTo Relation.ReflTransGen.refl

/-- What is left is the reachable machine, under new names for its states. -/
theorem removeUnreachableStates_exact (h : NextOk machine) (hr : resetState < machine.length) :
    ∃ machine' resetState' f, removeUnreachableStates machine resetState =
        some (machine', resetState') ∧
      Set.BijOn f {s | Reachable machine resetState s} {t | t < machine'.length} ∧
      (∀ s, Reachable machine resetState s →
        machine'[f s]? = (machine[s]?).map fun rows => rows.map (renameRow f)) ∧
      resetState' = f resetState := by
  obtain ⟨machine', f, hrun, hf⟩ := exists_renamed h hr
  exact ⟨machine', f resetState, f, hrun, hf.bij, hf.rows, rfl⟩

/-- Three states; the first leads to the last, nothing to the one between them. -/
def holeMachine : List (List Trans) :=
  let bit := IncSpecSeq.ofString ['1']
  [[(bit, 2, bit)], [(bit, 1, bit)], [(bit, 0, bit)]]

theorem removeUnreachableStates_hole :
    ∃ machine' resetState' f, removeUnreachableStates holeMachine 0 =
        some (machine', resetState') ∧
      Set.BijOn f {s | Reachable holeMachine 0 s} {t | t < machine'.length} ∧
      (∀ s, Reachable holeMachine 0 s →
        machine'[f s]? = (holeMachine[s]?).map fun rows => rows.map (renameRow f)) ∧
      resetState' = f 0 :=
  removeUnreachableStates_exact (by unfold NextOk; decide) (by decide)

example : (removeUnreachableStates holeMachine 0).map (fun p => (p.1.map (·.map (·.2.1)), p.2)) =
    some ([[1], [0]], 0) := by decide

end ExtFolding.MeMin
