import ExtFolding.TimeMux4.Rounds
import Mathlib.Data.List.GetD

/-!
# Outputs, and the theorem

`buildPoFuncs` gives output `i` of the sorted list of frame `t` the slot `(t, i)`.
Its two loops are one loop over the list of `tasks`; in a cycle of frame `t`, pin
`i` is the disjunction of the literals that were given this slot, and there is at
most one.
-/

namespace ExtFolding.TimeMux4

open ExtFolding.Aig ExtFolding.TimeMux2 ExtFolding.TimeMux3 ExtFolding.Uint

/-- The slot assignments `(t, (output, literal), i)` in the order in which they are made. -/
def tasks (poInfos : List (List (ℕ × Lit))) : List (ℕ × ((ℕ × Lit) × ℕ)) :=
  poInfos.zipIdx.flatMap fun info => (sortInfo info.1).zipIdx.map fun p => (info.2, p)

theorem mem_tasks {poInfos : List (List (ℕ × Lit))} {a : ℕ × ((ℕ × Lit) × ℕ)} :
    a ∈ tasks poInfos ↔
      ∃ info, poInfos[a.1]? = some info ∧ (sortInfo info)[a.2.2]? = some a.2.1 := by
  obtain ⟨t, x, c⟩ := a
  simp only [tasks, List.mem_flatMap, List.mem_map]
  constructor
  · rintro ⟨⟨info, t'⟩, hi, ⟨x', c'⟩, hp, h⟩
    cases h
    exact ⟨info, List.mem_zipIdx_iff_getElem?.mp hi, List.mem_zipIdx_iff_getElem?.mp hp⟩
  · rintro ⟨info, hi, hp⟩
    exact ⟨(info, t), List.mem_zipIdx_iff_getElem?.mpr hi, (x, c),
      List.mem_zipIdx_iff_getElem?.mpr hp, rfl⟩

theorem buildPoFuncs_eq (abc : AbcAig) (poInfos : List (List (ℕ × Lit))) (graph : Graph)
    (oPerm : List ℤ) :
    buildPoFuncs abc poInfos graph oPerm =
      (tasks poInfos).foldl (fun s a => poStep abc (getPoNum poInfos) a.1 s a.2)
        ⟨graph, List.replicate (getPoNum poInfos) ⟨.const1, true⟩, oPerm⟩ := by
  simp only [buildPoFuncs, tasks, List.foldl_flatMap, List.foldl_map]

theorem sortInfo_perm (info : List (ℕ × Lit)) : (sortInfo info).Perm info :=
  List.mergeSort_perm _ _

theorem length_le_getPoNum {poInfos : List (List (ℕ × Lit))} {info : List (ℕ × Lit)}
    (h : info ∈ poInfos) : info.length ≤ getPoNum poInfos := by
  have key : ∀ (l : List (List (ℕ × Lit))) n,
      n ≤ l.foldl (fun n info => max n info.length) n ∧
        ∀ info ∈ l, info.length ≤ l.foldl (fun n info => max n info.length) n := by
    intro l
    induction l with
    | nil => simp
    | cons a l ih =>
        intro n
        obtain ⟨h₁, h₂⟩ := ih (max n a.length)
        refine ⟨(le_max_left _ _).trans h₁, fun info hi => ?_⟩
        rcases List.mem_cons.mp hi with rfl | hi
        · exact (le_max_right _ _).trans h₁
        · exact h₂ info hi
  exact (key poInfos 0).2 info h

theorem getPoNum_le {poInfos : List (List (ℕ × Lit))} {n : ℕ}
    (h : ∀ info ∈ poInfos, info.length ≤ n) : getPoNum poInfos ≤ n :=
  foldl_inv (l := poInfos) (fun _ m => m ≤ n)
    (fun pre info post m hl hm => max_le hm (h info (hl ▸ by simp))) (Nat.zero_le n)

/-- The accumulators after the assignments in `pre`. -/
structure PoInv (nPi nl T nPo nCo : ℕ) (g₀ : Graph) (pre : List (ℕ × ((ℕ × Lit) × ℕ)))
    (s : PoSt) : Prop where
  ok : s.graph.Ok (Ntk.IsLeaf nPi nl)
  suffix : g₀ <:+ s.graph
  length : s.poVec.length = nPo
  lit : ∀ l ∈ s.poVec, l.obj.Ok (Ntk.IsLeaf nPi nl) s.graph.length
  val : ∀ {e r c}, OneHot T r e.bo → c < nPo →
    s.graph.eval e (s.poVec.getD c Obj.const1.lit) =
      pre.any fun a => a.1 == r && a.2.2 == c && g₀.eval e a.2.1.2
  permLength : s.oPerm.length = nCo
  perm : ∀ a ∈ pre, s.oPerm[a.2.1.1]? = some (toInt (a.1 * nPo + a.2.2))

theorem PoInv.step (abc : AbcAig) {nPi nl T nPo nCo : ℕ} {g₀ : Graph}
    {pre : List (ℕ × ((ℕ × Lit) × ℕ))} {s : PoSt} (h : PoInv nPi nl T nPo nCo g₀ pre s)
    {a : ℕ × ((ℕ × Lit) × ℕ)} (ht : a.1 < T) (hT : T ≤ nl) (hc : a.2.2 < nPo)
    (ho : a.2.1.1 < nCo) (hl : a.2.1.2.obj.Ok (Ntk.IsLeaf nPi nl) g₀.length)
    (huniq : ∀ a' ∈ pre, a'.2.1.1 = a.2.1.1 → a'.1 = a.1 ∧ a'.2.2 = a.2.2) :
    PoInv nPi nl T nPo nCo g₀ (pre ++ [a]) (poStep abc nPo a.1 s a.2) := by
  obtain ⟨t, ⟨o, l⟩, c⟩ := a
  simp only at ht hc ho hl huniq
  have hlen := h.length
  have hand := abc.and_computes (P := Ntk.IsLeaf nPi nl) (a := (Obj.bo t).lit) (b := l) trivial
    h.ok (Nat.lt_of_lt_of_le ht hT) (hl.mono h.suffix.length_le)
  have hold : (s.poVec.getD c Obj.const1.lit).obj.Ok (Ntk.IsLeaf nPi nl) s.graph.length := by
    rw [List.getD_eq_getElem _ _ (by omega)]
    exact h.lit _ (List.getElem_mem _)
  have hor := abc.or_computes (P := Ntk.IsLeaf nPi nl) trivial hand.ok
    (hold.mono hand.length_le) hand.lit
  have hsuf := hand.suffix.trans hor.suffix
  refine ⟨hor.ok, h.suffix.trans hsuf, by simp [poStep, hlen], fun l' hl' => ?_,
    fun {e r c'} he hc' => ?_, by simp [poStep, h.permLength], fun a' ha' => ?_⟩
  · rcases List.mem_or_eq_of_mem_set hl' with hl' | rfl
    · exact (h.lit l' hl').mono hsuf.length_le
    · exact hor.lit
  · have hval := h.val he hc'
    rw [List.any_append, ← hval]
    by_cases hcc : c' = c
    · subst hcc
      have hget : ((poStep abc nPo t s ((o, l), c')).poVec.getD c' Obj.const1.lit) =
          (abc.or (abc.and s.graph (Obj.bo t).lit l).1 (s.poVec.getD c' Obj.const1.lit)
            (abc.and s.graph (Obj.bo t).lit l).2).2 := by
        simp [poStep, List.getD, hlen, hc]
      rw [hget]
      change (abc.or _ _ _).1.eval e _ = _
      rw [hor.eval, hand.eval, Graph.eval_of_suffix hand.suffix e hold.below]
      by_cases hr : r = t
      · subst hr
        simp [he.self ht, Graph.eval_of_suffix h.suffix e hl.below, Obj.lit]
      · simp [he.other ht hr, Obj.lit, Ne.symm hr]
    · have hget : ((poStep abc nPo t s ((o, l), c)).poVec.getD c' Obj.const1.lit) =
          s.poVec.getD c' Obj.const1.lit := by
        simp [poStep, List.getD, List.getElem?_set_ne (Ne.symm hcc)]
      have hok : (s.poVec.getD c' Obj.const1.lit).obj.Ok (Ntk.IsLeaf nPi nl) s.graph.length := by
        rw [List.getD_eq_getElem _ _ (by omega)]
        exact h.lit _ (List.getElem_mem _)
      rw [hget]
      change (abc.or _ _ _).1.eval e _ = _
      rw [Graph.eval_of_suffix hsuf e hok.below]
      simp [Ne.symm hcc]
  · simp only [poStep]
    rcases List.mem_append.mp ha' with ha' | ha'
    · by_cases hoo : a'.2.1.1 = o
      · obtain ⟨h₁, h₂⟩ := huniq a' ha' hoo
        rw [hoo, List.getElem?_set_self (by rw [h.permLength]; exact ho), h₁, h₂]
      · rw [List.getElem?_set_ne (Ne.symm hoo), h.perm a' ha']
    · obtain rfl : a' = (t, (o, l), c) := by simpa using ha'
      exact List.getElem?_set_self (by rw [h.permLength]; exact ho)

/-! ## Slots -/

/-- The outputs whose latest input comes in frame `t`. -/
def CombNtk.outputsAt (N : CombNtk) (nPi t : ℕ) : Finset ℕ :=
  (Finset.range N.pos.length).filter fun o =>
    (N.support (N.pos.getD o Obj.const1.lit).obj).sup (· / nPi) = t

/-- The number of output pins: the most outputs of one frame. -/
def CombNtk.poNum (N : CombNtk) (nPi T : ℕ) : ℕ :=
  (Finset.range T).sup fun t => (N.outputsAt nPi t).card

variable {N : CombNtk} {nPi T : ℕ} {mff : Bool} {b : BuildSt}

/-- Every output has a slot. -/
theorem BuildInv.exists_task (hN : N.Strashed) (hT : 1 ≤ T) (hci : N.nCi = nPi * T)
    (hb : BuildInv N nPi T mff T b) {o : ℕ} {l : Lit} (ho : N.pos[o]? = some l) :
    ∃ a ∈ tasks b.poInfos, a.2.1.1 = o ∧ a.1 = N.frameOf nPi l.obj := by
  have hhas : N.Has l.obj := hN.posOk l (List.mem_of_getElem? ho)
  have hlt : N.frameOf nPi l.obj < b.poInfos.length := by
    rw [hb.infos]
    exact hN.frameOf_lt hT hci hhas
  obtain ⟨info, hinfo⟩ : ∃ info, b.poInfos[N.frameOf nPi l.obj]? = some info :=
    ⟨_, List.getElem?_eq_getElem hlt⟩
  have hmem : o ∈ info.map Prod.fst := (hb.mem_outs hinfo).mpr ⟨l.obj, ⟨l, ho, rfl⟩, rfl⟩
  obtain ⟨x, hx, rfl⟩ := List.mem_map.mp hmem
  obtain ⟨c, hc⟩ := List.getElem?_of_mem ((sortInfo_perm info).mem_iff.mpr hx)
  exact ⟨(N.frameOf nPi l.obj, x, c), mem_tasks.mpr ⟨info, hinfo, hc⟩, rfl, rfl⟩

theorem BuildInv.length_info (hb : BuildInv N nPi T mff T b) {r : ℕ} {info : List (ℕ × Lit)}
    (hinfo : b.poInfos[r]? = some info) : info.length = (N.outputsAt nPi r).card := by
  rw [← List.length_map (f := Prod.fst), ← List.toFinset_card_of_nodup (hb.nodup hinfo)]
  congr 1
  ext o
  rw [List.mem_toFinset, hb.mem_outs hinfo, CombNtk.outputsAt, Finset.mem_filter, Finset.mem_range]
  constructor
  · rintro ⟨d, ⟨l, hl, rfl⟩, hr⟩
    rw [List.getD, hl, Option.getD_some, ← CombNtk.frameOf_eq_sup]
    exact ⟨(List.getElem?_eq_some_iff.mp hl).1, hr⟩
  · rintro ⟨ho, hr⟩
    rw [List.getD_eq_getElem _ _ ho, ← CombNtk.frameOf_eq_sup] at hr
    exact ⟨_, ⟨_, List.getElem?_eq_getElem ho, rfl⟩, hr⟩

theorem BuildInv.getPoNum_eq_poNum (hb : BuildInv N nPi T mff T b) :
    getPoNum b.poInfos = N.poNum nPi T := by
  apply le_antisymm
  · refine getPoNum_le fun info hi => ?_
    obtain ⟨r, hr⟩ := List.mem_iff_getElem?.mp hi
    rw [hb.length_info hr]
    refine Finset.le_sup (f := fun t => (N.outputsAt nPi t).card) (Finset.mem_range.mpr ?_)
    exact hb.infos ▸ (List.getElem?_eq_some_iff.mp hr).1
  · refine Finset.sup_le fun r hr => ?_
    rw [Finset.mem_range, ← hb.infos] at hr
    rw [← hb.length_info (List.getElem?_eq_getElem hr)]
    exact length_le_getPoNum (List.getElem_mem hr)

/-- What an assignment looks like. -/
theorem BuildInv.task (hb : BuildInv N nPi T mff T b) {a : ℕ × ((ℕ × Lit) × ℕ)}
    (ha : a ∈ tasks b.poInfos) :
    a.1 < T ∧ a.2.2 < getPoNum b.poInfos ∧ a.2.1.1 < N.pos.length ∧
      a.2.1.2.obj.Ok (Ntk.IsLeaf nPi b.latches.length) b.graph.length ∧
      ∃ info, b.poInfos[a.1]? = some info ∧ a.2.1 ∈ info := by
  obtain ⟨info, hinfo, hc⟩ := mem_tasks.mp ha
  have hmem : a.2.1 ∈ info := (sortInfo_perm info).mem_iff.mp (List.mem_of_getElem? hc)
  refine ⟨?_, ?_, ?_, hb.lit hinfo _ hmem, info, hinfo, hmem⟩
  · rw [← hb.infos]
    exact (List.getElem?_eq_some_iff.mp hinfo).1
  · have hlt := (List.getElem?_eq_some_iff.mp hc).1
    rw [(sortInfo_perm info).length_eq] at hlt
    exact hlt.trans_le (length_le_getPoNum (List.mem_of_getElem? hinfo))
  · obtain ⟨d, ⟨l, hl, -⟩, -⟩ := (hb.mem_outs hinfo).mp (List.mem_map_of_mem (f := Prod.fst) hmem)
    exact (List.getElem?_eq_some_iff.mp hl).1

/-- An output has only one slot. -/
theorem BuildInv.task_unique (hb : BuildInv N nPi T mff T b) {a a' : ℕ × ((ℕ × Lit) × ℕ)}
    (ha : a ∈ tasks b.poInfos) (ha' : a' ∈ tasks b.poInfos) (ho : a'.2.1.1 = a.2.1.1) :
    a'.1 = a.1 ∧ a'.2.2 = a.2.2 := by
  obtain ⟨info, hinfo, hc⟩ := mem_tasks.mp ha
  obtain ⟨info', hinfo', hc'⟩ := mem_tasks.mp ha'
  have hmem : a.2.1.1 ∈ info.map Prod.fst := List.mem_map_of_mem
    ((sortInfo_perm info).mem_iff.mp (List.mem_of_getElem? hc))
  have hmem' : a'.2.1.1 ∈ info'.map Prod.fst := List.mem_map_of_mem
    ((sortInfo_perm info').mem_iff.mp (List.mem_of_getElem? hc'))
  obtain ⟨d, hd, hr⟩ := (hb.mem_outs hinfo).mp hmem
  obtain ⟨d', hd', hr'⟩ := (hb.mem_outs hinfo').mp hmem'
  rw [ho] at hd'
  obtain rfl := hd.po_unique hd'
  have ht : a'.1 = a.1 := by rw [← hr, ← hr']
  refine ⟨ht, ?_⟩
  obtain rfl : info' = info := by
    rw [ht, hinfo] at hinfo'
    exact (Option.some.inj hinfo').symm
  have hnd : ((sortInfo info').map Prod.fst).Nodup :=
    ((sortInfo_perm info').map Prod.fst).nodup_iff.mpr (hb.nodup hinfo)
  have hfst : ((sortInfo info').map Prod.fst)[a'.2.2]? =
      ((sortInfo info').map Prod.fst)[a.2.2]? := by
    rw [List.getElem?_map, List.getElem?_map, hc, hc', Option.map_some, Option.map_some, ho]
  have hlt : a'.2.2 < ((sortInfo info').map Prod.fst).length := by
    rw [List.length_map]
    exact (List.getElem?_eq_some_iff.mp hc').1
  exact (List.getElem?_inj hlt hnd).mp hfst

/-- A slot carries only one output. -/
theorem task_lit_unique {infos : List (List (ℕ × Lit))} {a a' : ℕ × ((ℕ × Lit) × ℕ)}
    (ha : a ∈ tasks infos) (ha' : a' ∈ tasks infos) (ht : a'.1 = a.1)
    (hc : a'.2.2 = a.2.2) : a'.2.1 = a.2.1 := by
  obtain ⟨info, hinfo, hget⟩ := mem_tasks.mp ha
  obtain ⟨info', hinfo', hget'⟩ := mem_tasks.mp ha'
  rw [ht, hinfo] at hinfo'
  obtain rfl := Option.some.inj hinfo'
  rw [hc, hget] at hget'
  exact (Option.some.inj hget').symm

/-- The disjunction over a slot in use is the value of its literal. -/
theorem any_slot {infos : List (List (ℕ × Lit))} {a : ℕ × ((ℕ × Lit) × ℕ)}
    (ha : a ∈ tasks infos) (v : Lit → Bool) :
    ((tasks infos).any fun a' => a'.1 == a.1 && a'.2.2 == a.2.2 && v a'.2.1.2) =
      v a.2.1.2 := by
  rw [Bool.eq_iff_iff, List.any_eq_true]
  simp only [Bool.and_eq_true, beq_iff_eq]
  constructor
  · rintro ⟨a', ha', ⟨ht, hc⟩, hv⟩
    rwa [task_lit_unique ha ha' ht hc] at hv
  · exact fun hv => ⟨a, ha, ⟨rfl, rfl⟩, hv⟩

theorem buildPoFuncs_spec (abc : AbcAig) (hb : BuildInv N nPi T mff T b) {oPerm : List ℤ}
    (hlen : oPerm.length = N.pos.length) :
    PoInv nPi b.latches.length T (getPoNum b.poInfos) N.pos.length b.graph (tasks b.poInfos)
      (buildPoFuncs abc b.poInfos b.graph oPerm) := by
  rw [buildPoFuncs_eq]
  refine foldl_inv (PoInv nPi b.latches.length T (getPoNum b.poInfos) N.pos.length b.graph)
    (fun pre a post s hl h => ?_) ⟨hb.ok.graph, List.suffix_refl _, by simp, fun l hl => ?_,
      fun {e r c} _ hc => ?_, hlen, by simp⟩
  · have ha : a ∈ tasks b.poInfos := by simp [← hl]
    obtain ⟨ht, hc, ho, hlit, -⟩ := hb.task ha
    exact h.step abc ht hb.length hc ho hlit fun a' ha' hoo =>
      hb.task_unique ha (by simp [← hl, ha']) hoo
  · obtain ⟨-, rfl⟩ := List.mem_replicate.mp hl
    trivial
  · simp [List.getD, hc]

theorem BuildInv.slot_div_mod (hb : BuildInv N nPi T mff T b) {a : ℕ × ((ℕ × Lit) × ℕ)}
    (ha : a ∈ tasks b.poInfos) :
    (a.1 * getPoNum b.poInfos + a.2.2) / getPoNum b.poInfos = a.1 ∧
      (a.1 * getPoNum b.poInfos + a.2.2) % getPoNum b.poInfos = a.2.2 := by
  obtain ⟨-, hc, -⟩ := hb.task ha
  rw [Nat.mul_comm, Nat.mul_add_div (by omega), Nat.div_eq_of_lt hc, Nat.mul_add_mod,
    Nat.mod_eq_of_lt hc]
  exact ⟨rfl, rfl⟩

theorem BuildInv.slot_lt (hb : BuildInv N nPi T mff T b) {a : ℕ × ((ℕ × Lit) × ℕ)}
    (ha : a ∈ tasks b.poInfos) :
    a.1 * getPoNum b.poInfos + a.2.2 < getPoNum b.poInfos * T := by
  obtain ⟨ht, hc, -⟩ := hb.task ha
  calc a.1 * getPoNum b.poInfos + a.2.2
      < (a.1 + 1) * getPoNum b.poInfos := by rw [Nat.add_mul]; omega
    _ ≤ T * getPoNum b.poInfos := Nat.mul_le_mul_right _ ht
    _ = getPoNum b.poInfos * T := Nat.mul_comm _ _

section Perm

variable {p : PoSt}
  (hp : PoInv nPi b.latches.length T (getPoNum b.poInfos) N.pos.length b.graph (tasks b.poInfos) p)

include hp

/-- Every entry of `oPerm` is the slot of its output. -/
theorem PoInv.exists_slot (hN : N.Strashed) (hT : 1 ≤ T) (hci : N.nCi = nPi * T)
    (hb : BuildInv N nPi T mff T b) {o : ℕ} {l : Lit} (ho : N.pos[o]? = some l) :
    ∃ a ∈ tasks b.poInfos, a.2.1.1 = o ∧ a.1 = N.frameOf nPi l.obj ∧
      p.oPerm[o]? = some (toInt (a.1 * getPoNum b.poInfos + a.2.2)) := by
  obtain ⟨a, ha, rfl, hframe⟩ := hb.exists_task hN hT hci ho
  exact ⟨a, ha, rfl, hframe, hp.perm a ha⟩

/-- When the slots are `int`s, the entries are the slots. -/
theorem PoInv.oPerm_nat (hN : N.Strashed) (hT : 1 ≤ T) (hci : N.nCi = nPi * T)
    (hb : BuildInv N nPi T mff T b) (hsize : getPoNum b.poInfos * T ≤ 2 ^ 31) :
    ∃ l : List ℕ, p.oPerm = l.map Nat.cast ∧ l.length = N.pos.length ∧
      ∀ a ∈ tasks b.poInfos, l[a.2.1.1]? = some (a.1 * getPoNum b.poInfos + a.2.2) := by
  have hcast : ∀ a ∈ tasks b.poInfos,
      toInt (a.1 * getPoNum b.poInfos + a.2.2) = (a.1 * getPoNum b.poInfos + a.2.2 : ℕ) :=
    fun a ha => toInt_eq ((hb.slot_lt ha).trans_le hsize)
  refine ⟨p.oPerm.map Int.toNat, ?_, by rw [List.length_map, hp.permLength], fun a ha => ?_⟩
  · refine List.ext_getElem? fun o => ?_
    rw [List.map_map, List.getElem?_map]
    rcases Nat.lt_or_ge o N.pos.length with ho | ho
    · obtain ⟨a, ha, -, -, hget⟩ := hp.exists_slot hN hT hci hb (List.getElem?_eq_getElem ho)
      rw [hget, hcast a ha, Option.map_some, Function.comp_apply, Int.toNat_natCast]
    · rw [List.getElem?_eq_none (hp.permLength.trans_le ho)]
      rfl
  · rw [List.getElem?_map, hp.perm a ha, hcast a ha, Option.map_some, Int.toNat_natCast]

/-- `oPerm` passes `checkPerm`. -/
theorem PoInv.checkPerm (hN : N.Strashed) (hT : 1 ≤ T) (hci : N.nCi = nPi * T)
    (hb : BuildInv N nPi T mff T b) (hsize : getPoNum b.poInfos * T ≤ 2 ^ 31) :
    checkPerm p.oPerm (p.poVec.length * T % 2 ^ 32) = true := by
  obtain ⟨l, hl, hlen, hget⟩ := hp.oPerm_nat hN hT hci hb hsize
  have hslot : ∀ {o c : ℕ}, l[o]? = some c → ∃ a ∈ tasks b.poInfos, a.2.1.1 = o ∧
      c = a.1 * getPoNum b.poInfos + a.2.2 := by
    intro o c hc
    have ho : o < N.pos.length := by
      rw [← hlen]
      exact (List.getElem?_eq_some_iff.mp hc).1
    obtain ⟨a, ha, hao, -⟩ := hp.exists_slot hN hT hci hb (List.getElem?_eq_getElem ho)
    rw [← hao, hget a ha] at hc
    exact ⟨a, ha, hao, (Option.some.inj hc).symm⟩
  rw [hl, checkPerm_natCast, hp.length, Nat.mod_eq_of_lt (hsize.trans_lt (by norm_num))]
  constructor
  · rw [List.nodup_iff_injective_getElem]
    intro i j hij
    obtain ⟨a, ha, hai, hac⟩ := hslot (List.getElem?_eq_getElem i.isLt)
    obtain ⟨a', ha', haj, hac'⟩ := hslot (List.getElem?_eq_getElem j.isLt)
    simp only at hij
    rw [hac, hac'] at hij
    have h₁ := hb.slot_div_mod ha
    have h₂ := hb.slot_div_mod ha'
    rw [hij] at h₁
    have hlit := task_lit_unique ha ha' (h₂.1.symm.trans h₁.1) (h₂.2.symm.trans h₁.2)
    exact Fin.ext (by rw [← hai, ← haj, hlit])
  · intro c hc
    obtain ⟨o, ho⟩ := List.getElem?_of_mem hc
    obtain ⟨a, ha, -, rfl⟩ := hslot ho
    exact hb.slot_lt ha

/-- The network around the accumulators is well formed. -/
theorem PoInv.ntk_ok (hb : BuildInv N nPi T mff T b) :
    (⟨nPi, p.graph, b.latches, p.poVec⟩ : Ntk).Ok :=
  ⟨hp.ok, fun l hl => (hb.ok.latches l hl).mono hp.suffix.length_le, hp.lit⟩

theorem PoInv.final (hb : BuildInv N nPi T mff T b) :
    Final T T b ⟨nPi, p.graph, b.latches, p.poVec⟩ :=
  ⟨hp.suffix, fun {e _ i} _ _ _ => hb.ok.next_of_suffix hp.suffix b.copy e i⟩

end Perm

/-! ## Structural folding preserves the circuit -/

/-- The folding law over all rounds: `x k` is the input vector of round `k`, output `o`
appears on its pin in its cycle of every round, and the other slots carry 0. -/
structure FoldsRounds (N : CombNtk) (T : ℕ) (M : Ntk) (oPerm : List ℕ) (s : ℕ → Bool)
    (x inp : ℕ → ℕ → Bool) : Prop where
  out : ∀ k, ∀ o < N.pos.length,
    M.outAt s inp (k * T + oPerm.getD o 0 / M.pos.length) (oPerm.getD o 0 % M.pos.length) =
      N.fn (x k) o
  idle : ∀ k, ∀ t < T, ∀ i < M.pos.length, t * M.pos.length + i ∉ oPerm →
    M.outAt s inp (k * T + t) i = false

/-- The cycles `k * T, …, k * T + T - 1` of a run form a round. -/
theorem round_of_run {M : Ntk} (hring : HasRing T M.latches) (hT : 1 ≤ T) {s : ℕ → Bool}
    (hs : M.IsInit s) {x inp : ℕ → ℕ → Bool}
    (hinp : ∀ k, ∀ t < T, ∀ i < nPi, inp (k * T + t) i = x k (t * nPi + i)) (k : ℕ) :
    Round nPi T M (x k) fun t => M.envAt s inp (k * T + t) := by
  refine ⟨fun t ht => ?_, fun t ht i hi => hinp k t ht i hi, fun t => rfl⟩
  have h := hring.oneHot_stateAt hT (hring.oneHot_init hs) inp (k * T + t)
  rwa [Nat.mul_comm, Nat.mul_add_mod, Nat.mod_eq_of_lt ht, Nat.mul_comm] at h

/-- In a cycle of frame `t` a pin shows the disjunction of the literals with its slot. -/
theorem PoInv.outAt {p : PoSt}
    (hp : PoInv nPi b.latches.length T (getPoNum b.poInfos) N.pos.length b.graph
      (tasks b.poInfos) p) {s : ℕ → Bool} {x inp : ℕ → ℕ → Bool} {k t i : ℕ}
    (hr : Round nPi T ⟨nPi, p.graph, b.latches, p.poVec⟩ (x k) fun t =>
      Ntk.envAt ⟨nPi, p.graph, b.latches, p.poVec⟩ s inp (k * T + t))
    (ht : t < T) (hi : i < getPoNum b.poInfos) :
    Ntk.outAt ⟨nPi, p.graph, b.latches, p.poVec⟩ s inp (k * T + t) i =
      (tasks b.poInfos).any fun a => a.1 == t && a.2.2 == i && b.graph.eval
        (Ntk.envAt ⟨nPi, p.graph, b.latches, p.poVec⟩ s inp (k * T + t)) a.2.1.2 := by
  rw [← hp.val (hr.oneHot t ht) hi]
  have hlt : i < p.poVec.length := by rwa [hp.length]
  rw [List.getD_eq_getElem _ _ hlt, Ntk.outAt, List.getElem?_eq_getElem hlt]

/-- `aigStrMux` succeeds when the slots are `int`s; `oPerm` is injective into the slots and
schedules every output in the latest frame of its support; and the folded network obeys the
folding law in every round. -/
theorem aigStrMux_preserves (abc : AbcAig) (ord : HashOrder) (hN : N.Strashed) (hT : 1 ≤ T)
    (hci : N.nCi = nPi * T) (hsize : N.poNum nPi T * T ≤ 2 ^ 31) (mff : Bool) {oPerm₀ : List ℤ}
    (hlen : oPerm₀.length = N.pos.length) :
    ∃ M oPerm, aigStrMux abc ord N T oPerm₀ mff = some (M, oPerm) ∧ M.nPi = nPi ∧ M.Ok ∧
      oPerm.length = N.pos.length ∧ oPerm.Nodup ∧ (∀ c ∈ oPerm, c < M.pos.length * T) ∧
      (∀ o l, N.pos[o]? = some l →
        oPerm.getD o 0 / M.pos.length = (N.support l.obj).sup (· / nPi)) ∧
      ∀ s, M.IsInit s → ∀ x inp : ℕ → ℕ → Bool,
        (∀ k, ∀ t < T, ∀ i < nPi, inp (k * T + t) i = x k (t * nPi + i)) →
        FoldsRounds N T M oPerm s x inp := by
  have hnPi : N.nCi / T = nPi := by rw [hci, Nat.mul_div_cancel _ hT]
  obtain ⟨b, hrun, hb, hruns⟩ := buildFrames_spec abc ord hN hT hci mff le_rfl
  have hp := buildPoFuncs_spec abc hb hlen
  generalize hpo : buildPoFuncs abc b.poInfos b.graph oPerm₀ = p at hp
  have hslots : getPoNum b.poInfos * T ≤ 2 ^ 31 := hb.getPoNum_eq_poNum.symm ▸ hsize
  have hcheck := hp.checkPerm hN hT hci hb hslots
  obtain ⟨l, hl, hllen, hget⟩ := hp.oPerm_nat hN hT hci hb hslots
  have htoNat : p.oPerm.map Int.toNat = l := by rw [hl, map_toNat_natCast]
  obtain ⟨hnodup, hlt⟩ := checkPerm_toNat hcheck
  rw [htoNat] at hnodup hlt
  rw [hp.length, Nat.mod_eq_of_lt (hslots.trans_lt (by norm_num))] at hlt
  have slot : ∀ {o l'}, N.pos[o]? = some l' → ∃ a ∈ tasks b.poInfos, a.2.1.1 = o ∧
      a.1 = N.frameOf nPi l'.obj ∧ l.getD o 0 / p.poVec.length = a.1 ∧
      l.getD o 0 % p.poVec.length = a.2.2 := by
    intro o l' ho
    obtain ⟨a, ha, hao, hframe, -⟩ := hp.exists_slot hN hT hci hb ho
    obtain ⟨hd, hm⟩ := hb.slot_div_mod ha
    refine ⟨a, ha, hao, hframe, ?_, ?_⟩ <;>
      rw [List.getD, ← hao, hget a ha, hp.length, Option.getD_some]
    · exact hd
    · exact hm
  refine ⟨⟨nPi, p.graph, b.latches, p.poVec⟩, l, ?_, rfl, hp.ntk_ok hb, hllen,
    hnodup, fun c hc => hp.length.symm ▸ hlt c hc, fun o l' ho => ?_, fun s hs x inp hinp => ?_⟩
  · simp only [aigStrMux, hnPi, hrun, Option.bind_eq_bind, Option.bind_some, hpo, hcheck, htoNat]
    rfl
  · obtain ⟨a, -, -, hframe, hd, -⟩ := slot ho
    rw [hd, hframe, CombNtk.frameOf_eq_sup]
  · have hround := round_of_run (M := ⟨nPi, p.graph, b.latches, p.poVec⟩) hb.ring hT hs hinp
    have hF := hruns _ (hp.final hb)
    constructor
    · intro k o ho
      obtain ⟨a, ha, hao, -, hd, hm⟩ := slot (List.getElem?_eq_getElem ho)
      obtain ⟨ht, hc, -, hlit, info, hinfo, hmem⟩ := hb.task ha
      simp only
      rw [hd, hm, hp.outAt (hround k) ht hc, ← hao, ← hF.out (hround k) hinfo _ hmem, any_slot ha]
      exact (Graph.eval_of_suffix hp.suffix _ hlit.below).symm
    · intro k t ht i hi hnot
      simp only [hp.length] at hi hnot
      rw [hp.outAt (hround k) ht hi, List.any_eq_false]
      intro a ha hav
      simp only [Bool.and_eq_true, beq_iff_eq] at hav
      obtain ⟨⟨rfl, rfl⟩, -⟩ := hav
      exact hnot (List.mem_of_getElem? (hget a ha))

/-- Outputs `¬(x₀ ∧ ¬x₁)` and `x₀` over two inputs. -/
def andNtk : CombNtk where
  nCi := 2
  graph := [((Obj.pi 0).lit, ⟨.pi 1, true⟩)]
  pos := [⟨.node 0, true⟩, (Obj.pi 0).lit]
  fanouts := fun o => match o with
    | .pi 0 => [.node 0, .po 1]
    | .pi 1 => [.node 0]
    | .node 0 => [.po 0]
    | _ => []

theorem andNtk_fanins {k : ℕ} {a b : Lit} (h : andNtk.graph.fanins? k = some (a, b)) :
    k = 0 ∧ a = (Obj.pi 0).lit ∧ b = ⟨.pi 1, true⟩ := by
  simp only [andNtk, Graph.fanins?, List.length_nil] at h
  split at h
  · next hk =>
      cases h
      exact ⟨hk, rfl, rfl⟩
  · cases h

theorem andNtk_edge {o : Obj} {f : Fanout} : andNtk.Edge o f ↔
    (o, f) ∈ [(Obj.pi 0, Fanout.node 0), (.pi 0, .po 1), (.pi 1, .node 0), (.node 0, .po 0)] := by
  cases f with
  | node k =>
      constructor
      · rintro ⟨q, a, b, hk, h⟩
        obtain ⟨rfl, rfl, rfl⟩ := andNtk_fanins hk
        rcases h with ⟨rfl, -⟩ | ⟨-, rfl⟩ <;> decide
      · intro h
        have : k = 0 ∧ (o = .pi 0 ∨ o = .pi 1) := by
          simp at h
          tauto
        obtain ⟨rfl, rfl | rfl⟩ := this
        · exact ⟨.pi 1, _, _, rfl, Or.inl ⟨rfl, rfl⟩⟩
        · exact ⟨.pi 0, _, _, rfl, Or.inr ⟨rfl, rfl⟩⟩
  | po p =>
      constructor
      · rintro ⟨l, hl, rfl⟩
        match p, hl with
        | 0, hl => cases hl; decide
        | 1, hl => cases hl; decide
      · intro h
        have : p = 1 ∧ o = .pi 0 ∨ p = 0 ∧ o = .node 0 := by
          simp at h
          tauto
        obtain ⟨rfl, rfl⟩ | ⟨rfl, rfl⟩ := this
        · exact ⟨_, rfl, rfl⟩
        · exact ⟨_, rfl, rfl⟩

theorem andNtk_strashed : andNtk.Strashed where
  ok := ⟨Nat.two_pos, Nat.one_lt_two, trivial⟩
  posOk := by
    intro l hl
    simp only [andNtk, List.mem_cons, List.not_mem_nil, or_false] at hl
    rcases hl with rfl | rfl
    · exact Nat.one_pos
    · exact Nat.two_pos
  distinct h := by
    obtain ⟨-, rfl, rfl⟩ := andNtk_fanins h
    decide
  not_const h := by
    obtain ⟨-, rfl, rfl⟩ := andNtk_fanins h
    decide
  hashed h h' := by
    obtain ⟨rfl, -, -⟩ := andNtk_fanins h
    rcases h' with h' | h' <;> exact (andNtk_fanins h').1.symm
  nodup o := by
    simp only [andNtk]
    split <;> decide
  mem_fanouts o f := by
    rw [andNtk_edge]
    simp only [andNtk]
    split <;> simp_all

theorem andNtk_size : andNtk.poNum 1 2 * 2 ≤ 2 ^ 31 := by decide

/-- Hash containers that iterate in the order in which they store. -/
def HashOrder.id : HashOrder := ⟨fun _ l => l, fun _ l => l, fun _ _ => .refl _, fun _ _ => .refl _⟩

theorem aigStrMux_andNtk :
    ∃ M oPerm, aigStrMux strash .id andNtk 2 [0, 0] true = some (M, oPerm) ∧ oPerm.Nodup ∧
      ∀ s, M.IsInit s → ∀ x : ℕ → ℕ → Bool,
        FoldsRounds andNtk 2 M oPerm s x fun c i => x (c / 2) (c % 2 + i) := by
  obtain ⟨M, oPerm, hrun, -, -, -, hnodup, -, -, hfolds⟩ :=
    aigStrMux_preserves strash .id andNtk_strashed (by decide) (show andNtk.nCi = 1 * 2 from rfl)
      andNtk_size true (show ([0, 0] : List ℤ).length = andNtk.pos.length from rfl)
  refine ⟨M, oPerm, hrun, hnodup, fun s hs x => hfolds s hs x _ fun k t ht i hi => ?_⟩
  have hdiv : (k * 2 + t) / 2 = k := by omega
  have hmod : (k * 2 + t) % 2 = t := by omega
  simp [hdiv, hmod]

/-! ## Too many slots -/

/-- As many outputs as inputs, all of them the last input. -/
def lastNtk (n : ℕ) : CombNtk where
  nCi := n + 1
  graph := []
  pos := List.replicate (n + 1) (Obj.pi n).lit
  fanouts o := if o = .pi n then (List.range (n + 1)).map .po else []

theorem lastNtk_edge {n : ℕ} {o : Obj} {f : Fanout} :
    (lastNtk n).Edge o f ↔ o = .pi n ∧ ∃ p < n + 1, f = .po p := by
  cases f with
  | node k =>
      constructor
      · rintro ⟨q, a, b, hk, -⟩
        cases hk
      · rintro ⟨-, p, -, h⟩
        cases h
  | po p =>
      constructor
      · rintro ⟨l, hl, rfl⟩
        obtain ⟨hp, rfl⟩ := List.getElem?_eq_some_iff.mp hl
        refine ⟨?_, p, by simpa [lastNtk] using hp, rfl⟩
        simp [lastNtk]
      · rintro ⟨rfl, q, hq, h⟩
        cases h
        exact ⟨(Obj.pi n).lit, by simp [lastNtk, hq], rfl⟩

theorem lastNtk_strashed (n : ℕ) : (lastNtk n).Strashed where
  ok := trivial
  posOk l hl := by
    obtain rfl := List.eq_of_mem_replicate hl
    exact Nat.lt_succ_self n
  distinct h := by cases h
  not_const h := by cases h
  hashed h := by cases h
  nodup o := by
    simp only [lastNtk]
    split
    · exact List.Nodup.map (fun _ _ h => Fanout.po.inj h) List.nodup_range
    · exact List.nodup_nil
  mem_fanouts o f := by
    rw [lastNtk_edge]
    simp only [lastNtk]
    split
    · next h => simp [h, eq_comm]
    · next h => simp [h]

/-- All outputs are in the last of `n + 1` frames with one input each. -/
theorem lastNtk_outputsAt (n : ℕ) : (lastNtk n).outputsAt 1 n = Finset.range (n + 1) := by
  have hlen : (lastNtk n).pos.length = n + 1 := List.length_replicate
  rw [CombNtk.outputsAt, hlen, Finset.filter_eq_self]
  intro o ho
  have ho : o < (lastNtk n).pos.length := hlen.symm ▸ Finset.mem_range.mp ho
  rw [List.getD_eq_getElem _ _ ho]
  simp [lastNtk, CombNtk.support]

/-- The last output of the last frame gets a slot that is no `int`. -/
theorem aigStrMux_lastNtk (abc : AbcAig) (ord : HashOrder) {n : ℕ}
    (hge : 2 ^ 31 < (n + 1) * (n + 1)) (hlt : (n + 1) * (n + 1) < 2 ^ 32) (mff : Bool)
    {oPerm₀ : List ℤ} (hlen : oPerm₀.length = n + 1) :
    aigStrMux abc ord (lastNtk n) (n + 1) oPerm₀ mff = none := by
  have hci : (lastNtk n).nCi = 1 * (n + 1) := (Nat.one_mul _).symm
  have hpos : oPerm₀.length = (lastNtk n).pos.length := by
    rw [hlen]; exact List.length_replicate.symm
  have hnPi : (lastNtk n).nCi / (n + 1) = 1 := Nat.div_self (Nat.succ_pos n)
  obtain ⟨b, hrun, hb, -⟩ :=
    buildFrames_spec abc ord (lastNtk_strashed n) (Nat.succ_pos n) hci mff le_rfl
  have hp := buildPoFuncs_spec abc hb hpos
  have hframe : n < b.poInfos.length := hb.infos.symm ▸ Nat.lt_succ_self n
  have hinfo := List.getElem?_eq_getElem hframe
  have hcount : b.poInfos[n].length = n + 1 := by
    rw [hb.length_info hinfo, lastNtk_outputsAt, Finset.card_range]
  have hnum : getPoNum b.poInfos = n + 1 := by
    refine le_antisymm ?_ (hcount.symm.trans_le (length_le_getPoNum (List.getElem_mem hframe)))
    refine getPoNum_le fun info hi => ?_
    obtain ⟨r, hr⟩ := List.mem_iff_getElem?.mp hi
    rw [hb.length_info hr, CombNtk.outputsAt]
    refine (Finset.card_filter_le _ _).trans_eq ?_
    rw [Finset.card_range]
    exact List.length_replicate
  have hsorted : n < (sortInfo b.poInfos[n]).length := by
    rw [(sortInfo_perm _).length_eq, hcount]
    exact Nat.lt_succ_self n
  have htask : (n, (sortInfo b.poInfos[n])[n], n) ∈ tasks b.poInfos :=
    mem_tasks.mpr ⟨_, hinfo, List.getElem?_eq_getElem hsorted⟩
  have hentry := List.mem_of_getElem? (hp.perm _ htask)
  have hslot : n * (n + 1) + n + 1 = (n + 1) * (n + 1) := by ring
  rw [hnum] at hentry
  have hneg : toInt (n * (n + 1) + n) < 0 := toInt_neg (by omega) (by omega)
  have hcheck := fun cap => @checkPerm_neg _ cap _ hentry hneg
  simp only [aigStrMux, hnPi, hrun, Option.bind_eq_bind, Option.bind_some, hcheck]
  rfl

/-- `46341` outputs in the last of as many frames: their slots end with `46341 ^ 2 - 1`. -/
theorem aigStrMux_46341 :
    (lastNtk 46340).Strashed ∧ (lastNtk 46340).nCi = 1 * 46341 ∧
      ∀ mff, aigStrMux strash .id (lastNtk 46340) 46341 (List.replicate 46341 0) mff = none :=
  ⟨lastNtk_strashed _, rfl, fun mff =>
    aigStrMux_lastNtk strash .id (by norm_num) (by norm_num) mff List.length_replicate⟩

end ExtFolding.TimeMux4
