import ExtFolding.TimeMux2.Perm
import ExtFolding.Utils.AigUtils

/-!
# `timeMux2/checkEqv2.cpp`: the network compared with the original circuit

`M` is the sequential circuit read back from the BLIF file. It is expanded,
its inputs and outputs are permuted, and the first `nCo` outputs are kept.
The result computes, on the original input order, the values that `M` shows
at the scheduled cycles and pins, so the equivalence check decides the
folding law.
-/

namespace ExtFolding.TimeMux2

open ExtFolding.Aig ExtFolding.Utils

/-- `prepNtkToCheck`, from the strashed network `M` on. -/
def prepNtkToCheck (abc : AbcNtk) (M : Ntk) (nTimeFrame nCo : ℕ) (iPerm oPerm : List ℕ) :
    Option Ntk :=
  let pNtk := abc.frames M nTimeFrame
  let pNtkStr := aigPermCi abc.toAbcAig pNtk iPerm
  aigCone abc (aigPermCo pNtkStr oPerm) 0 nCo

/-- `checkEqv`: the verdict that is printed. -/
def checkEqv (abc : AbcNtk) (pNtk M : Ntk) (iPerm oPerm : List ℕ) (nTimeFrame : ℕ) :
    Option Bool := do
  let oPerm2 ← extendPerm oPerm (M.pos.length * nTimeFrame)
  let pNtkCheck ← prepNtkToCheck abc M nTimeFrame oPerm.length iPerm oPerm2
  return abc.cec pNtk pNtkCheck

/-- The pins `inp` carry the input vector `x`: input `j` is on pin `k` of cycle `t`
where `iPerm[j] = t * nPi + k`. -/
def Feeds (iPerm : List ℕ) (nPi : ℕ) (x : ℕ → Bool) (inp : ℕ → ℕ → Bool) : Prop :=
  ∀ j < iPerm.length, inp (iPerm.getD j 0 / nPi) (iPerm.getD j 0 % nPi) = x j

/-- Run from its initial state, `M` shows the outputs of `C` at the scheduled slots. -/
def FoldingLaw (C M : Ntk) (iPerm oPerm : List ℕ) : Prop :=
  ∀ s, M.IsInit s → ∀ x inp, Feeds iPerm M.nPi x inp → ∀ o < oPerm.length,
    C.fn x o =
      M.outAt s inp (oPerm.getD o 0 / M.pos.length) (oPerm.getD o 0 % M.pos.length)

/-- Pins that carry a given input vector. -/
theorem exists_feeds {iPerm : List ℕ} {nPi T : ℕ} (hi : iPerm.Perm (List.range (nPi * T)))
    (x : ℕ → Bool) : ∃ inp, Feeds iPerm nPi x inp := by
  refine ⟨fun c i => x (iPerm.idxOf (c * nPi + i)), fun j hj => ?_⟩
  have hnd : iPerm.Nodup := hi.nodup_iff.mpr List.nodup_range
  show x (iPerm.idxOf _) = x j
  rw [Nat.mul_comm, Nat.div_add_mod, List.getD_eq_getElem _ _ hj, hnd.idxOf_getElem j hj]

section

variable (abc : AbcNtk) {M : Ntk} {T : ℕ} {iPerm : List ℕ}

/-- The expanded and permuted network before the outputs are cut. -/
theorem permuted_frames_fn (hM : M.Ok) (hdc : ∀ l ∈ M.latches, l.init ≠ .dc)
    (hi : iPerm.Perm (List.range (M.nPi * T))) {s : ℕ → Bool} (hs : M.IsInit s)
    {x : ℕ → Bool} {inp : ℕ → ℕ → Bool} (hx : Feeds iPerm M.nPi x inp) {p : ℕ}
    (hp : p < M.pos.length * T) :
    (aigPermCi abc.toAbcAig (abc.frames M T) iPerm).fn x p =
      M.outAt s inp (p / M.pos.length) (p % M.pos.length) := by
  have hF := abc.frames_spec T hM hdc
  have hlen : iPerm.length = M.nPi * T := by simpa using hi.length_eq
  have hpos : 0 < M.pos.length := Nat.pos_of_ne_zero fun h => by simp [h] at hp
  have hperm := aigPermCi_spec abc.toAbcAig hF.ok hF.latches iPerm (by rwa [hF.nPi])
  rw [hperm.2.2 x (fun q => inp (q / M.nPi) (q % M.nPi)) fun j hj => ?_]
  · have hdiv : p / M.pos.length < T := Nat.div_lt_of_lt_mul hp
    have hfn := hF.fn s hs (fun q => inp (q / M.nPi) (q % M.nPi)) (p / M.pos.length)
      (p % M.pos.length) hdiv (Nat.mod_lt _ hpos)
    rw [Nat.mul_comm, Nat.div_add_mod] at hfn
    rw [hfn]
    refine hM.outAt_congr (fun _ _ => rfl) (fun d _ i hi => ?_) _
    have hdm : (d * M.nPi + i) / M.nPi = d := by
      rw [Nat.mul_comm, Nat.mul_add_div (by omega), Nat.div_eq_of_lt hi, Nat.add_zero]
    have hmm : (d * M.nPi + i) % M.nPi = i := by
      rw [Nat.mul_comm, Nat.mul_add_mod, Nat.mod_eq_of_lt hi]
    show inp ((d * M.nPi + i) / M.nPi) ((d * M.nPi + i) % M.nPi) = inp d i
    rw [hdm, hmm]
  · exact hx j (by rw [hlen, ← hF.nPi]; exact hj)

/-- The network that is handed to the equivalence check. -/
theorem prepNtkToCheck_spec (hM : M.Ok) (hdc : ∀ l ∈ M.latches, l.init ≠ .dc)
    (hi : iPerm.Perm (List.range (M.nPi * T))) {oPerm oPerm2 : List ℕ} (hne : oPerm ≠ [])
    (ho : oPerm2.Perm (List.range (M.pos.length * T))) (hpre : oPerm <+: oPerm2) :
    ∃ N, prepNtkToCheck abc M T oPerm.length iPerm oPerm2 = some N ∧ N.Ok ∧ N.latches = [] ∧
      N.nPi = M.nPi * T ∧ N.pos.length = oPerm.length ∧ FoldingLaw N M iPerm oPerm := by
  have hF := abc.frames_spec T hM hdc
  obtain ⟨hciOk, hciLen, _⟩ :=
    aigPermCi_spec abc.toAbcAig hF.ok hF.latches iPerm (by rwa [hF.nPi])
  obtain ⟨hcoOk, hcoLen, hcoFn⟩ := aigPermCo_spec hciOk oPerm2
    (by rwa [hciLen, hF.pos])
  have hlen2 : oPerm2.length = M.pos.length * T := by simpa using ho.length_eq
  have hle : oPerm.length ≤ M.pos.length * T := hlen2 ▸ hpre.length_le
  obtain ⟨C, hC, hok, hlat, hpi, hpos, hfn⟩ := aigCone_spec abc hcoOk rfl 0
    oPerm.length (List.length_pos_iff.mpr hne) (by rwa [hcoLen, hciLen, hF.pos])
  refine ⟨C, hC, hok, hlat, hpi.trans hF.nPi, hpos, fun s hs x inp hx o hlt => ?_⟩
  have hget : oPerm2.getD o 0 = oPerm.getD o 0 := by
    rw [List.getD_eq_getElem _ _ hlt, List.getD_eq_getElem _ _ (by omega)]
    exact (hpre.getElem hlt).symm
  have hmem : oPerm.getD o 0 < M.pos.length * T := by
    rw [← hget, List.getD_eq_getElem _ _ (by omega)]
    exact List.mem_range.mp (ho.mem_iff.mp (List.getElem_mem _))
  rw [hfn x o hlt, Nat.zero_add, hcoFn x o (by rw [hciLen, hF.pos]; omega), hget]
  exact permuted_frames_fn abc hM hdc hi hs hx hmem

/-- The checker compares the right network: `extendPerm` completes `oPerm`, the prepared
network shows on each output the scheduled slot of `M`, and the check passes exactly when
the folding law holds. -/
theorem checkEqv_decides_folding (hM : M.Ok) (hdc : ∀ l ∈ M.latches, l.init ≠ .dc)
    (hi : iPerm.Perm (List.range (M.nPi * T))) {oPerm : List ℕ} (hne : oPerm ≠ [])
    (hnd : oPerm.Nodup) (hlt : ∀ p ∈ oPerm, p < M.pos.length * T) :
    ∃ oPerm2 N, extendPerm oPerm (M.pos.length * T) = some oPerm2 ∧
      oPerm2.Perm (List.range (M.pos.length * T)) ∧ oPerm <+: oPerm2 ∧
      prepNtkToCheck abc M T oPerm.length iPerm oPerm2 = some N ∧
      N.pos.length = oPerm.length ∧ FoldingLaw N M iPerm oPerm ∧
      ∀ C : Ntk, C.Ok → C.latches = [] → C.nPi = M.nPi * T → C.pos.length = oPerm.length →
        ∃ verdict, checkEqv abc C M iPerm oPerm T = some verdict ∧
          (verdict = true ↔ FoldingLaw C M iPerm oPerm) := by
  obtain ⟨oPerm2, hext, hperm2, hpre⟩ := extendPerm_spec hnd hlt
  obtain ⟨N, hN, hok, hlat, hpi, hpos, hlaw⟩ :=
    prepNtkToCheck_spec abc hM hdc hi hne hperm2 hpre
  refine ⟨oPerm2, N, hext, hperm2, hpre, hN, hpos, hlaw, fun C hC hCl hCpi hCpos => ?_⟩
  refine ⟨abc.cec C N, by simp [checkEqv, hext, hN], ?_⟩
  rw [abc.cec_spec hC hok hCl hlat (by rw [hCpi, hpi])]
  constructor
  · intro h s hs x inp hx o ho
    rw [h.2 x o (by omega), hlaw s hs x inp hx o ho]
  · intro h
    refine ⟨by omega, fun x o ho => ?_⟩
    obtain ⟨s, hs⟩ := M.exists_isInit
    obtain ⟨inp, hx⟩ := exists_feeds hi x
    rw [h s hs x inp hx o (by omega), hlaw s hs x inp hx o (by omega)]

end

/-- A circuit that shows its input and, one cycle later, shows it again. -/
def delayNtk : Ntk :=
  { nPi := 1, graph := [], latches := [⟨.zero, (Obj.pi 0).lit⟩],
    pos := [(Obj.bo 0).lit, (Obj.pi 0).lit] }

/-- Two wires. -/
def wiresNtk : Ntk :=
  { nPi := 2, graph := [], latches := [], pos := [(Obj.pi 0).lit, (Obj.pi 1).lit] }

theorem delayNtk_ok : delayNtk.Ok where
  graph := trivial
  latches := by simp [delayNtk, Obj.Ok, Ntk.IsLeaf]
  pos := by simp [delayNtk, Obj.Ok, Ntk.IsLeaf]

theorem wiresNtk_ok : wiresNtk.Ok where
  graph := trivial
  latches := by simp [wiresNtk]
  pos := by simp [wiresNtk, Obj.Ok, Ntk.IsLeaf]

/-- The delay, fed with the inputs in reverse, folds the two wires. -/
theorem checkEqv_delayNtk :
    checkEqv strashNtk wiresNtk delayNtk [1, 0] [3, 2] 2 = some true ∧
      FoldingLaw wiresNtk delayNtk [1, 0] [3, 2] := by
  obtain ⟨_, _, _, _, _, _, _, _, h⟩ := checkEqv_decides_folding strashNtk delayNtk_ok
    (by decide) (show [1, 0].Perm (List.range (delayNtk.nPi * 2)) by decide)
    (show [3, 2] ≠ [] by decide) (by decide) (by decide)
  obtain ⟨verdict, hv, hiff⟩ := h wiresNtk wiresNtk_ok rfl rfl rfl
  have htrue : checkEqv strashNtk wiresNtk delayNtk [1, 0] [3, 2] 2 = some true := by
    decide +kernel
  rw [htrue, Option.some.injEq] at hv
  exact ⟨htrue, hiff.mp hv.symm⟩

end ExtFolding.TimeMux2
