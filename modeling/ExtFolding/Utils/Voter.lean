import ExtFolding.Lib.Loop
import ExtFolding.Utils.AigUtils
import Mathlib.Data.Nat.Count

/-!
# `utils/aigUtils.cpp`: the voter

A chain of latches counts the ones on a single input; latch `i` is set once `i + 1` ones have been
seen. The voter of `n` inputs is the last output of the expansion of the chain by `n` frames.
-/

namespace ExtFolding.Utils

open ExtFolding.Aig

/-! ## The code -/

/-- The number of latches, `n/2 + (n%2 ? 1 : (1-tieVal))`. -/
def voterLatches (n : ℕ) (tieVal : Bool) : ℕ :=
  n / 2 + if n % 2 ≠ 0 then 1 else 1 - tieVal.toNat

/-- The network under construction, and the object to read at `pLat_prev`; `none` is `NULL`. -/
structure VoterSt where
  graph : Graph
  latches : List Latch
  prev : Option Lit

/-- `(i == 0) ? pPi : Abc_AigAnd(pMan, Abc_ObjFanout0(pLat_prev), pPi)` -/
def voterCarry (abc : AbcAig) (st : VoterSt) (i : ℕ) : Option (Graph × Lit) :=
  if i = 0 then some (st.graph, (Obj.pi 0).lit)
  else st.prev.map fun p => abc.and st.graph p (Obj.pi 0).lit

/-- Latch `i`: its input is its own output or the conjunction of the latch before and the pin. -/
def voterStep (abc : AbcAig) (nn : ℕ) (st : VoterSt) (i : ℕ) : Option VoterSt := do
  let pLat := (Obj.bo i).lit
  let r ← voterCarry abc st i
  let r := abc.or r.1 pLat r.2
  return {
    graph := r.1
    latches := st.latches ++ [⟨.zero, r.2⟩]
    prev := some (if i = nn - 1 then r.2 else pLat) }

def aigGenVoterN_seq (abc : AbcAig) (n : ℕ) (tieVal : Bool) : Option Ntk := do
  let nn := voterLatches n tieVal
  let st ← (List.range nn).foldlM (voterStep abc nn) ⟨[], [], none⟩
  return { nPi := 1, graph := st.graph, latches := st.latches, pos := [← st.prev] }

def aigBuildVoter (abc : AbcNtk) (n : ℕ) (tieVal : Bool) : Option Ntk := do
  let pNtkSeq ← aigGenVoterN_seq abc.toAbcAig n tieVal
  let pNtkExp := abc.frames pNtkSeq n
  aigSingleCone abc pNtkExp (pNtkExp.pos.length - 1)

/-! ## The chain -/

/-- The number of latches is the least majority. -/
theorem voterLatches_le_iff (n k : ℕ) (tieVal : Bool) :
    voterLatches n tieVal ≤ k ↔ n < 2 * k ∨ (n = 2 * k ∧ tieVal = true) := by
  unfold voterLatches
  cases tieVal <;> split <;> simp <;> omega

theorem voterLatches_pos {n : ℕ} (hn : 1 ≤ n) (tieVal : Bool) : 0 < voterLatches n tieVal := by
  by_contra h0
  have := (voterLatches_le_iff n 0 tieVal).mp (Nat.le_of_not_lt h0)
  omega

/-- The value on the input of latch `k`. -/
def latchIn (e : Env) (k : ℕ) : Bool := e.bo k || ((k = 0 || e.bo (k - 1)) && e.pi 0)

/-- The network after `i` of `nn` latches. -/
structure VoterInv (nn i : ℕ) (st : VoterSt) : Prop where
  graph : st.graph.Ok (Ntk.IsLeaf 1 nn)
  length : st.latches.length = i
  latch : ∀ (k : ℕ) l, st.latches[k]? = some l → l.init = .zero ∧
    l.input.obj.Ok (Ntk.IsLeaf 1 nn) st.graph.length ∧
    ∀ e, st.graph.eval e l.input = latchIn e k
  prev : 0 < i → ∃ p, st.prev = some p ∧ if i = nn then
      ∃ l, st.latches[i - 1]? = some l ∧ p = l.input
    else p = (Obj.bo (i - 1)).lit

theorem voterStep_inv (abc : AbcAig) {nn i : ℕ} (hi : i < nn) {st : VoterSt}
    (h : VoterInv nn i st) :
    ∃ st', voterStep abc nn st i = some st' ∧ VoterInv nn (i + 1) st' := by
  have hP : Ntk.IsLeaf 1 nn .const1 := trivial
  have hpi : (Obj.pi 0).lit.obj.Ok (Ntk.IsLeaf 1 nn) st.graph.length := Nat.one_pos
  -- the signal from the latch before
  obtain ⟨r, hr, hcomp⟩ : ∃ r, voterCarry abc st i = some r ∧
      st.graph.Computes (Ntk.IsLeaf 1 nn) r fun e => (i = 0 || e.bo (i - 1)) && e.pi 0 := by
    by_cases h0 : i = 0
    · exact ⟨_, if_pos h0, List.suffix_refl _, h.graph, hpi, fun e => by simp [h0, Obj.lit]⟩
    · obtain ⟨p, hp, hprev⟩ := h.prev (Nat.pos_of_ne_zero h0)
      rw [if_neg hi.ne] at hprev
      subst hprev
      have hand := abc.and_computes (a := (Obj.bo (i - 1)).lit) (b := (Obj.pi 0).lit) hP h.graph
        (show i - 1 < nn by omega) hpi
      refine ⟨_, by rw [voterCarry, if_neg h0, hp, Option.map_some], hand.suffix, hand.ok, hand.lit,
        fun e => ?_⟩
      rw [hand.eval]
      simp [h0, Obj.lit]
  have hor := abc.or_computes (a := (Obj.bo i).lit) (b := r.2) hP hcomp.ok
    (show i < nn from hi) hcomp.lit
  have hnew : ∀ e, (abc.or r.1 (Obj.bo i).lit r.2).1.eval e (abc.or r.1 (Obj.bo i).lit r.2).2 =
      latchIn e i := by
    intro e
    rw [hor.eval, hcomp.eval, Obj.lit, Graph.eval_bo, Bool.xor_false]
    rfl
  refine ⟨_, by rw [voterStep, hr]; rfl, hor.ok, by simp [h.length], fun k l hk => ?_, fun _ => ?_⟩
  · by_cases hki : k < i
    · rw [List.getElem?_append_left (h.length.symm ▸ hki)] at hk
      obtain ⟨hinit, hok, hev⟩ := h.latch k l hk
      refine ⟨hinit, hok.mono (hcomp.length_le.trans hor.length_le), fun e => ?_⟩
      rw [Graph.eval_of_suffix (hcomp.suffix.trans hor.suffix) e hok.below, hev]
    · have hkeq : k = i := by
        have := (List.getElem?_eq_some_iff.mp hk).1
        simp only [List.length_append, h.length, List.length_singleton] at this
        omega
      subst hkeq
      rw [List.getElem?_append_right h.length.le, h.length, Nat.sub_self] at hk
      obtain rfl := Option.some.inj hk
      exact ⟨rfl, hor.lit, hnew⟩
  · refine ⟨_, rfl, ?_⟩
    by_cases hlast : i + 1 = nn
    · rw [if_pos hlast, if_pos (by omega)]
      refine ⟨⟨.zero, (abc.or r.1 (Obj.bo i).lit r.2).2⟩, ?_, rfl⟩
      show (st.latches ++ [_])[i]? = _
      rw [List.getElem?_append_right h.length.le, h.length, Nat.sub_self]
      rfl
    · rw [if_neg hlast, if_neg (by omega)]
      rfl

/-- The chain of latches. -/
structure IsChain (nn : ℕ) (M : Ntk) : Prop where
  ok : M.Ok
  nPi : M.nPi = 1
  length : M.latches.length = nn
  pos : M.pos.length = 1
  init : ∀ l ∈ M.latches, l.init = .zero
  next : ∀ e, ∀ k < nn, M.next e k = latchIn e k
  out : ∀ s inp c, M.outAt s inp c 0 = M.stateAt s inp (c + 1) (nn - 1)

theorem aigGenVoterN_seq_chain (abc : AbcAig) {n : ℕ} (hn : 1 ≤ n) (tieVal : Bool) :
    ∃ M, aigGenVoterN_seq abc n tieVal = some M ∧ IsChain (voterLatches n tieVal) M := by
  set nn := voterLatches n tieVal with hnn
  have hpos : 0 < nn := voterLatches_pos hn tieVal
  obtain ⟨st, h0, hinv, -, hrun⟩ := foldlM_range (VoterInv nn)
    (fun i hi st h => voterStep_inv abc hi h)
    (b := ⟨[], [], none⟩) (n := nn) ⟨trivial, rfl, by simp, by simp⟩
  have h := hinv nn (Nat.le_refl nn)
  obtain ⟨p, hp, hlast⟩ := h.prev hpos
  rw [if_pos rfl] at hlast
  obtain ⟨l, hl, rfl⟩ := hlast
  have hlatch : ∀ l ∈ (st nn).latches, l.init = .zero ∧
      l.input.obj.Ok (Ntk.IsLeaf 1 nn) (st nn).graph.length := by
    intro l hl
    obtain ⟨k, hk⟩ := List.mem_iff_getElem?.mp hl
    exact ⟨(h.latch k l hk).1, (h.latch k l hk).2.1⟩
  refine ⟨{ nPi := 1, graph := (st nn).graph, latches := (st nn).latches, pos := [l.input] },
    by rw [aigGenVoterN_seq, ← hnn, Option.bind_eq_bind, hrun, Option.bind_some, hp]; rfl,
    ⟨h.length.symm ▸ h.graph, fun l hl => h.length.symm ▸ (hlatch l hl).2, fun q hq => ?_⟩,
    rfl, h.length, rfl, fun l hl => (hlatch l hl).1, fun e k hk => ?_, fun s inp c => ?_⟩
  · rw [List.mem_singleton.mp hq]
    exact h.length.symm ▸ (hlatch l (List.mem_of_getElem? hl)).2
  · obtain ⟨l', hl'⟩ : ∃ l', (st nn).latches[k]? = some l' :=
      ⟨_, List.getElem?_eq_getElem (h.length.symm ▸ hk)⟩
    simp only [Ntk.next, hl']
    exact (h.latch k l' hl').2.2 e
  · rw [Ntk.stateAt_succ]
    simp only [Ntk.outAt, Ntk.next, List.getElem?_cons_zero, hl]

/-! ## Counting -/

/-- Latch `k` is set from the cycle on in which the `k + 1`-th one has been read. -/
theorem IsChain.stateAt {nn : ℕ} {M : Ntk} (h : IsChain nn M) {s : ℕ → Bool} (hs : M.IsInit s)
    (inp : ℕ → ℕ → Bool) (c : ℕ) {k : ℕ} (hk : k < nn) :
    M.stateAt s inp c k = decide (k + 1 ≤ Nat.count (fun t => inp t 0 = true) c) := by
  induction c generalizing k with
  | zero =>
      have hl := List.getElem?_eq_getElem (l := M.latches) (h.length.symm ▸ hk)
      rw [Nat.count_zero, decide_eq_false (by omega)]
      exact (hs k _ hl).1 (h.init _ (List.mem_of_getElem? hl))
  | succ c ih =>
      have hprev : (k = 0 || M.stateAt s inp c (k - 1)) =
          decide (k ≤ Nat.count (fun t => inp t 0 = true) c) := by
        cases k with
        | zero => simp
        | succ k =>
            show (decide (k + 1 = 0) || M.stateAt s inp c k) = _
            rw [ih (Nat.lt_of_succ_lt hk)]
            simp
      rw [Ntk.stateAt_succ, h.next _ k hk]
      show (M.stateAt s inp c k || ((k = 0 || M.stateAt s inp c (k - 1)) && inp c 0)) = _
      rw [hprev, ih hk, Nat.count_succ]
      by_cases hin : inp c 0 = true
      · simp [hin]
        omega
      · simp [hin]

/-- The voter is the majority function, with `tieVal` deciding when exactly half are set. -/
theorem aigBuildVoter_majority (abc : AbcNtk) {n : ℕ} (hn : 1 ≤ n) (tieVal : Bool) :
    ∃ N, aigBuildVoter abc n tieVal = some N ∧ N.nPi = n ∧ N.latches = [] ∧ N.pos.length = 1 ∧
      ∀ x, (N.fn x 0 = true ↔ n < 2 * Nat.count (fun i => x i = true) n ∨
        (n = 2 * Nat.count (fun i => x i = true) n ∧ tieVal = true)) := by
  obtain ⟨M, hM, hchain⟩ := aigGenVoterN_seq_chain abc.toAbcAig hn tieVal
  set nn := voterLatches n tieVal
  obtain ⟨s, hs⟩ := M.exists_isInit
  have hframes := abc.frames_spec (M := M) n hchain.ok
    fun l hl => by rw [hchain.init l hl]; exact LatchInit.noConfusion
  have hlen : (abc.frames M n).pos.length = n := by rw [hframes.pos, hchain.pos, Nat.one_mul]
  obtain ⟨C, hC, hCok, hClat, hCpi, hCpos, hCfn⟩ := aigSingleCone_spec abc hframes.ok
    hframes.latches (n := (abc.frames M n).pos.length - 1) (by omega)
  refine ⟨C, by rw [aigBuildVoter, hM]; exact hC, ?_, hClat, hCpos, fun x => ?_⟩
  · rw [hCpi, hframes.nPi, hchain.nPi, Nat.one_mul]
  · have hpos : 0 < nn := voterLatches_pos hn tieVal
    have hfn := hframes.fn s hs x (n - 1) 0 (by omega) (by rw [hchain.pos]; exact Nat.one_pos)
    rw [hchain.pos, hchain.nPi, hchain.out, hchain.stateAt hs _ _ (by omega)] at hfn
    simp only [Nat.mul_one, Nat.add_zero, Nat.sub_add_cancel hn, Nat.sub_add_cancel hpos] at hfn
    rw [hCfn, hlen, hfn, decide_eq_true_eq, voterLatches_le_iff]

theorem aigBuildVoter_majority_three :
    ∃ N, aigBuildVoter strashNtk 3 false = some N ∧ N.nPi = 3 ∧ N.latches = [] ∧
      N.pos.length = 1 ∧
      ∀ x, (N.fn x 0 = true ↔ 3 < 2 * Nat.count (fun i => x i = true) 3 ∨
        (3 = 2 * Nat.count (fun i => x i = true) 3 ∧ false = true)) :=
  aigBuildVoter_majority strashNtk (by decide) false

end ExtFolding.Utils
