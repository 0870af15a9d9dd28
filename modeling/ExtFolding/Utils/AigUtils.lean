import ExtFolding.Lib.Frames
import Mathlib.Data.List.GetD

/-!
# `utils/aigUtils.cpp`: permuting and cutting combinational networks

`aigPermCi` and `aigPermCo` read their array in opposite directions: new
input `i` takes the place of old input `perm[i]`, new output `i` is old output
`perm[i]`.
-/

namespace ExtFolding.Utils

open ExtFolding.Aig

/-- `pCopy` of the inputs in `aigPermCi`: old input `perm[i]` is copied to new input `i`. -/
def permCiCopy (perm : List ℕ) (nCi : ℕ) : Obj → Lit :=
  (List.range nCi).foldl
    (fun copy i => Function.update copy (.pi (perm.getD i 0)) (Obj.pi i).lit)
    fun _ => Obj.const1.lit

def aigPermCi (abc : AbcAig) (pNtk : Ntk) (perm : List ℕ) : Ntk :=
  let r := copyAnds abc pNtk.graph (permCiCopy perm pNtk.nPi) []
  { nPi := pNtk.nPi, graph := r.1, latches := [], pos := pNtk.pos.map (childCopy r.2) }

/-- `aigPermCo` exchanges the fanins of the outputs in place. -/
def aigPermCo (pNtk : Ntk) (perm : List ℕ) : Ntk :=
  { pNtk with
    pos := (List.range pNtk.pos.length).map fun i =>
      pNtk.pos.getD (perm.getD i 0) Obj.const1.lit }

/-- The cone of one output; the complement of its driver moves to the new output. -/
def aigSingleCone (abc : AbcNtk) (pNtk : Ntk) (n : ℕ) : Option Ntk :=
  match pNtk.pos[n]? with
  | none => none
  | some l =>
      let pNtkRes := abc.createCone pNtk l.obj
      some { pNtkRes with
        pos := pNtkRes.pos.map fun p => if l.compl then p.not else p }

/-- The cone of the outputs in `[start, stop)`, keeping all inputs. -/
def aigCone (abc : AbcNtk) (pNtk : Ntk) (start stop : ℕ) : Option Ntk :=
  if ¬ (start < stop ∧ start < pNtk.pos.length ∧ stop ≤ pNtk.pos.length) then none
  else if start + 1 = stop then aigSingleCone abc pNtk start
  else
    let r := copyAnds abc.toAbcAig pNtk.graph (fun o => o.lit) []
    some { nPi := pNtk.nPi, graph := r.1, latches := [],
           pos := ((pNtk.pos.take stop).drop start).map (childCopy r.2) }

/-! ## Inputs -/

theorem permCiCopy_foldl_ne {perm : List ℕ} {n : ℕ} {o : Obj}
    (h : ∀ i < n, o ≠ .pi (perm.getD i 0)) : permCiCopy perm n o = Obj.const1.lit := by
  induction n with
  | zero => rfl
  | succ n ih =>
      rw [permCiCopy, List.range_succ, List.foldl_append, List.foldl_cons, List.foldl_nil,
        Function.update_of_ne (h n (Nat.lt_succ_self n))]
      exact ih fun i hi => h i (Nat.lt_succ_of_lt hi)

/-- In a permutation every old input is the copy of the one new input that names it. -/
theorem permCiCopy_pi {perm : List ℕ} (hnd : perm.Nodup) {n i : ℕ} (hn : n ≤ perm.length)
    (hi : i < n) : permCiCopy perm n (.pi (perm.getD i 0)) = (Obj.pi i).lit := by
  induction n with
  | zero => omega
  | succ n ih =>
      rw [permCiCopy, List.range_succ, List.foldl_append, List.foldl_cons, List.foldl_nil]
      by_cases h : i = n
      · subst h
        rw [Function.update_self]
      · have hne : Obj.pi (perm.getD i 0) ≠ .pi (perm.getD n 0) := by
          intro heq
          simp only [Obj.pi.injEq] at heq
          rw [List.getD_eq_getElem _ _ (by omega), List.getD_eq_getElem _ _ (by omega)] at heq
          exact h ((List.Nodup.getElem_inj_iff hnd).mp heq)
        rw [Function.update_of_ne hne]
        exact ih (by omega) (by omega)

/-- `aigPermCi` with a permutation: the new network on `z` is the old one on any `y`
with `y[perm[i]] = z[i]`. -/
theorem aigPermCi_spec (abc : AbcAig) {N : Ntk} (hN : N.Ok) (hl : N.latches = [])
    (perm : List ℕ) (hperm : perm.Perm (List.range N.nPi)) :
    (aigPermCi abc N perm).Ok ∧ (aigPermCi abc N perm).pos.length = N.pos.length ∧
      ∀ z y : ℕ → Bool, (∀ i < N.nPi, y (perm.getD i 0) = z i) →
        ∀ o, (aigPermCi abc N perm).fn z o = N.fn y o := by
  have hlen : perm.length = N.nPi := by simpa using hperm.length_eq
  have hnd : perm.Nodup := hperm.nodup_iff.mpr List.nodup_range
  have hidx : ∀ j < N.nPi, ∃ i < N.nPi, perm.getD i 0 = j := by
    intro j hj
    obtain ⟨i, hi, rfl⟩ := List.getElem_of_mem (hperm.mem_iff.mpr (List.mem_range.mpr hj))
    exact ⟨i, hlen ▸ hi, List.getD_eq_getElem _ _ hi⟩
  have hg := hN.graph
  have hp := hN.pos
  rw [hl] at hg hp
  -- the old inputs that a valuation of the new inputs describes
  obtain ⟨_, hc⟩ := copyAnds_spec abc (d := []) (Q := Ntk.IsLeaf N.nPi 0)
    (permCiCopy perm N.nPi) (fun e => ⟨fun j => e.pi (perm.idxOf j), e.bo⟩) hg trivial trivial
    (by
      intro o ho
      cases o with
      | const1 => rw [permCiCopy_foldl_ne (by simp)]; trivial
      | pi j =>
          obtain ⟨i, hi, rfl⟩ := hidx j ho
          rw [permCiCopy_pi hnd hlen.ge hi]
          exact hi
      | bo j => exact absurd ho (Nat.not_lt_zero j)
      | node k => exact absurd ho (Nat.not_lt_zero k))
    (by
      intro o ho e
      cases o with
      | const1 => rw [permCiCopy_foldl_ne (by simp)]; simp [Env.leaf, Obj.lit]
      | pi j =>
          obtain ⟨i, hi, rfl⟩ := hidx j ho
          rw [permCiCopy_pi hnd hlen.ge hi]
          have hidxOf : perm.idxOf (perm.getD i 0) = i := by
            rw [List.getD_eq_getElem _ _ (by omega)]
            exact hnd.idxOf_getElem i (by omega)
          simp [Env.leaf, Obj.lit, hidxOf, -List.getD_eq_getElem?_getD]
      | bo j => exact absurd ho (Nat.not_lt_zero j)
      | node k => exact absurd ho (Nat.not_lt_zero k))
  refine ⟨⟨hc.ok, by simp [aigPermCi], ?_⟩, by simp [aigPermCi], ?_⟩
  · intro l hl'
    obtain ⟨m, hm, rfl⟩ := List.mem_map.mp hl'
    exact hc.lit _ (hp m hm)
  · intro z y hzy o
    cases ho : N.pos[o]? with
    | none => simp [Ntk.fn, aigPermCi, ho]
    | some l =>
        have hl' := hp l (List.mem_of_getElem? ho)
        simp only [Ntk.fn, aigPermCi, List.getElem?_map, ho, Option.map_some]
        rw [hc.child hl']
        refine hg.eval_congr (fun j hj => ?_) (by simp) hl'
        obtain ⟨i, hi, rfl⟩ := hidx j hj
        have hidxOf : perm.idxOf (perm.getD i 0) = i := by
          rw [List.getD_eq_getElem _ _ (by omega)]
          exact hnd.idxOf_getElem i (by omega)
        show z (perm.idxOf (perm.getD i 0)) = y (perm.getD i 0)
        rw [hidxOf, hzy i hi]

/-! ## Outputs -/

theorem aigPermCo_spec {N : Ntk} (hN : N.Ok) (perm : List ℕ)
    (hperm : perm.Perm (List.range N.pos.length)) :
    (aigPermCo N perm).Ok ∧ (aigPermCo N perm).pos.length = N.pos.length ∧
      ∀ x, ∀ o < N.pos.length, (aigPermCo N perm).fn x o = N.fn x (perm.getD o 0) := by
  have hlen : perm.length = N.pos.length := by simpa using hperm.length_eq
  have hlt : ∀ o < N.pos.length, perm.getD o 0 < N.pos.length := by
    intro o ho
    rw [List.getD_eq_getElem _ _ (by omega)]
    exact List.mem_range.mp (hperm.mem_iff.mp (List.getElem_mem _))
  refine ⟨⟨hN.graph, hN.latches, ?_⟩, by simp [aigPermCo], fun x o ho => ?_⟩
  · intro l hl
    obtain ⟨i, hi, rfl⟩ := List.mem_map.mp hl
    rw [List.getD_eq_getElem _ _ (hlt i (List.mem_range.mp hi))]
    exact hN.pos _ (List.getElem_mem _)
  · have hlt' := hlt o ho
    simp only [Ntk.fn, aigPermCo, List.getElem?_map, List.getElem?_range ho, Option.map_some,
      List.getElem?_eq_getElem hlt', List.getD_eq_getElem _ _ hlt']

/-- `aigSingleCone` keeps the function of the output, complement included. -/
theorem aigSingleCone_spec (abc : AbcNtk) {N : Ntk} (hN : N.Ok) (hl : N.latches = []) {n : ℕ}
    (hn : n < N.pos.length) :
    ∃ C, aigSingleCone abc N n = some C ∧ C.Ok ∧ C.latches = [] ∧ C.nPi = N.nPi ∧
      C.pos.length = 1 ∧ ∀ x, C.fn x 0 = N.fn x n := by
  have hget := List.getElem?_eq_getElem hn
  have hok := hN.pos _ (List.getElem_mem hn)
  rw [hl] at hok
  have hcone := abc.createCone_spec hN hl hok
  obtain ⟨p, hp⟩ := List.length_eq_one_iff.mp hcone.pos
  refine ⟨{ abc.createCone N N.pos[n].obj with
      pos := (abc.createCone N N.pos[n].obj).pos.map fun p =>
        if N.pos[n].compl then p.not else p }, by simp only [aigSingleCone, hget],
          ⟨hcone.ok.graph, hcone.ok.latches, ?_⟩,
    hcone.latches, hcone.nPi, by simp [hp], fun x => ?_⟩
  · intro l hl'
    obtain ⟨m, hm, rfl⟩ := List.mem_map.mp hl'
    have hmok := hcone.ok.pos m hm
    split <;> exact hmok
  · have hfn := hcone.fn x
    simp only [Ntk.fn, hp, List.map_cons, List.map_nil, List.getElem?_cons_zero, hget] at hfn ⊢
    rw [Graph.eval_eq_lit N.graph _ N.pos[n]]
    cases hc : N.pos[n].compl with
    | false => simp [hfn]
    | true => simp [hfn]

/-- `aigCone` keeps the functions of the outputs in the range. -/
theorem aigCone_spec (abc : AbcNtk) {N : Ntk} (hN : N.Ok) (hl : N.latches = [])
    (start stop : ℕ) (hlt : start < stop) (hle : stop ≤ N.pos.length) :
    ∃ C, aigCone abc N start stop = some C ∧ C.Ok ∧ C.latches = [] ∧ C.nPi = N.nPi ∧
      C.pos.length = stop - start ∧
      ∀ x, ∀ o < stop - start, C.fn x o = N.fn x (start + o) := by
  have hcond : start < stop ∧ start < N.pos.length ∧ stop ≤ N.pos.length := ⟨hlt, by omega, hle⟩
  by_cases h1 : start + 1 = stop
  · obtain ⟨C, hC, hok, hlat, hpi, hlen, hfn⟩ :=
      aigSingleCone_spec abc hN hl (n := start) (by omega)
    refine ⟨C, by simp [aigCone, hcond, h1, hC], hok, hlat, hpi, by omega, fun x o ho => ?_⟩
    have : o = 0 := by omega
    subst this
    exact hfn x
  · have hg := hN.graph
    have hp := hN.pos
    rw [hl] at hg hp
    obtain ⟨_, hc⟩ := copyAnds_spec abc.toAbcAig (d := []) (Q := Ntk.IsLeaf N.nPi 0)
      (fun o => o.lit) (fun e => e) hg trivial trivial (fun o ho => ho)
      (fun o ho e => by
        cases o with
        | const1 => simp [Env.leaf, Obj.lit]
        | pi j => simp [Env.leaf, Obj.lit]
        | bo j => simp [Env.leaf, Obj.lit]
        | node k => exact absurd ho (Nat.not_lt_zero k))
    let r := copyAnds abc.toAbcAig N.graph (fun o => o.lit) []
    refine ⟨⟨N.nPi, r.1, [], ((N.pos.take stop).drop start).map (childCopy r.2)⟩,
      by rw [aigCone, if_neg (not_not.mpr hcond), if_neg h1], ⟨hc.ok, by simp, ?_⟩,
      rfl, rfl, by simp; omega, ?_⟩
    · intro l hl'
      obtain ⟨m, hm, rfl⟩ := List.mem_map.mp hl'
      exact hc.lit _ (hp m (List.mem_of_mem_take (List.mem_of_mem_drop hm)))
    intro x o ho
    have hget : ((N.pos.take stop).drop start)[o]? = N.pos[start + o]? := by
      rw [List.getElem?_drop, List.getElem?_take_of_lt (by omega)]
    have hl' : N.pos[start + o]? = some N.pos[start + o] :=
      List.getElem?_eq_getElem (by omega)
    simp only [Ntk.fn, List.getElem?_map, hget, hl', Option.map_some]
    exact hc.child (hp _ (List.getElem_mem _)) _

end ExtFolding.Utils
