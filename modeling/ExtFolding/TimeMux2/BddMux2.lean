import ExtFolding.TimeFold.Accepted
import ExtFolding.TimeMux2.CheckEqv
import ExtFolding.TimeMux2.Reord
import ExtFolding.Utils.Robdd

/-!
# `timeMux2::bddMux2`

Functional folding of an arbitrary circuit: the outputs and inputs are scheduled first, then
the frames are folded as in `bddFold`. Slots without an output stay empty.
-/

namespace ExtFolding.TimeMux2

open ExtFolding.Aig ExtFolding.Utils ExtFolding.TimeFold

/-- `initSupVecs` -/
def initSupVecs (abc : AbcBdd) (C : Ntk) (nCi : ℕ) : List SupVec :=
  (abc.globalBdds C).map fun node => (Finset.range nCi).filter (· ∈ abc.support node)

/-- `nodeVec`: the outputs by slot. -/
def slotNodes {α : Type} (cap : ℕ) (oPerm : List ℕ) (cos : List α) : List (Option α) :=
  (oPerm.zip cos).foldl (fun v p => v.set p.1 (some p.2)) (List.replicate cap none)

/-- `bddMux2`: the graph and the schedule. -/
def bddMux2 (abc : AbcBdd) (sort : CountSort) (ro : Reorder) (fp : Fp)
    (manual : ℕ → Option Schedule) (C : Ntk) (nTimeFrame : ℕ) (oPerm : List ℤ) (expConfig : ℕ) :
    Option (STG × Schedule) := do
  let nCi := C.nPi
  let nCo := C.pos.length
  let nPi := nCi / nTimeFrame
  let r ← reordIO sort ro fp manual (initSupVecs abc C nCi) nCi nTimeFrame oPerm expConfig
  let stg : STG := ⟨nCi, nCo, nPi, r.nPo, nTimeFrame, 0, []⟩
  let nodeVec := slotNodes (r.nPo * nTimeFrame) r.oPerm (abc.globalBdds C)
  let nB := if r.nPo ≠ 0 then Nat.clog 2 (r.nPo * 2) else 0
  let (B, size) ← bddComputeSign abc.toCudd nCi (r.nPo * 2)
  if nCi + nB = size then
    let G ← foldFrames abc.toCudd r.order nCi nodeVec B nB nPi r.nPo size nTimeFrame stg
    return (G, r)
  else none

/-! ## The outputs by slot -/

theorem slotNodes_spec {α : Type} {cap : ℕ} {oPerm : List ℕ} {cos : List α}
    (hnd : oPerm.Nodup) (hlen : oPerm.length = cos.length) (hlt : ∀ p ∈ oPerm, p < cap) (p : ℕ)
    (f : α) : (slotNodes cap oPerm cos).getD p none = some f ↔
      ∃ o : ℕ, oPerm[o]? = some p ∧ cos[o]? = some f := by
  unfold slotNodes
  have hinv := foldl_inv (l := oPerm.zip cos) (b := List.replicate cap (none : Option α))
    (f := fun (v : List (Option α)) (q : ℕ × α) => v.set q.1 (some q.2))
    (fun pre v => v.length = cap ∧ ∀ p f, v.getD p none = some f ↔ (p, f) ∈ pre) ?_ ?_
  · rw [hinv.2, List.mem_iff_getElem?]
    exact exists_congr fun o => List.getElem?_zip_eq_some
  · rintro pre ⟨q, g⟩ post v hl ⟨hv, hI⟩
    have hqmem : q ∈ oPerm :=
      (List.of_mem_zip (hl ▸ List.mem_append_right pre List.mem_cons_self)).1
    have hqlt := hlt q hqmem
    refine ⟨by simp [hv], fun p f => ?_⟩
    show (v.set q (some g)).getD p none = some f ↔ _
    by_cases hpq : p = q
    · subst hpq
      -- `p` has not been written before
      have hnew : ∀ f', (p, f') ∉ pre := by
        intro f' hf'
        have hmap : (oPerm.zip cos).map Prod.fst = oPerm := by
          rw [List.map_fst_zip hlen.le]
        rw [← hmap, ← hl, List.map_append, List.map_cons, List.nodup_append] at hnd
        exact hnd.2.2 p (List.mem_map_of_mem (f := Prod.fst) hf') p List.mem_cons_self rfl
      rw [List.getD, List.getElem?_set_self (by omega), Option.getD_some, Option.some.injEq,
        List.mem_append]
      constructor
      · rintro rfl
        exact Or.inr List.mem_cons_self
      · rintro (h | h)
        · exact absurd h (hnew f)
        · cases List.mem_singleton.mp h
          rfl
    · rw [List.getD, List.getElem?_set_ne (Ne.symm hpq), ← List.getD, hI, List.mem_append]
      constructor
      · exact Or.inl
      · rintro (h | h)
        · exact h
        · cases List.mem_singleton.mp h
          exact absurd rfl hpq
  · refine ⟨List.length_replicate, fun p f => ?_⟩
    simp [List.getD, List.getElem?_replicate]
    split <;> simp

/-! ## Folding -/

/-- Inputs fed by a list of their levels arrive level by level. -/
theorem carries_of_feeds {order level : List ℕ} {nPi T : ℕ}
    (hord : order.Perm (List.range order.length)) (hlen : order.length = nPi * T)
    (hlevel : level.length = order.length)
    (hget : ∀ m < order.length, level.getD m 0 = cuddI order m) {x : ℕ → Bool}
    {inp : ℕ → ℕ → Bool} (h : Feeds level nPi x inp) : Carries order nPi T x inp := by
  intro c hc m hm
  have hmlt : m < order.length := by
    refine (cuddI_lt hord).mp (hm.2.trans_le ?_)
    rw [hlen, Nat.mul_comm nPi]
    exact Nat.mul_le_mul_right _ hc
  have hx := h m (hlevel.symm ▸ hmlt)
  rw [hget m hmlt] at hx
  obtain ⟨d, hd⟩ := Nat.exists_eq_add_of_le hm.1
  have hdlt : d < nPi := by
    have := hm.2
    rw [hd, Nat.add_mul] at this
    omega
  rw [hd, Nat.mul_comm c, Nat.mul_add_div (by omega), Nat.div_eq_of_lt hdlt, Nat.mul_add_mod,
    Nat.mod_eq_of_lt hdlt, Nat.add_zero] at hx
  rw [hd, Nat.add_sub_cancel_left]
  exact hx

section

variable (abc : AbcBdd) {C : Ntk}

theorem mem_initSupVecs (hC : C.Ok) (hl : C.latches = []) {o : ℕ} {f : abc.Node}
    (hf : (abc.globalBdds C)[o]? = some f) :
    (initSupVecs abc C C.nPi).getD o ∅ = abc.support f := by
  unfold initSupVecs
  rw [List.getD, List.getElem?_map, hf]
  show (Finset.range C.nPi).filter (· ∈ abc.support f) = abc.support f
  ext j
  rw [Finset.mem_filter, Finset.mem_range, and_iff_right_iff_imp]
  intro hj
  have hdep : DependsOn (abc.eval f) { m | m < C.nPi } := by
    intro x y hxy
    rw [abc.eval_globalBdds C hC hl o f hf, abc.eval_globalBdds C hC hl o f hf]
    exact hC.fn_congr hl (fun i hi => hxy i hi) o
  exact abc.support_subset f _ hdep hj

section Scheduled

variable {r : Schedule} {nPi T : ℕ} (hpi : C.nPi = nPi * T)
  (hok : r.Checked (initSupVecs abc C C.nPi) nPi T)
include hpi hok

theorem order_length : r.order.length = C.nPi := by
  rw [hok.order.length_eq, List.length_range, hpi]

theorem order_perm : r.order.Perm (List.range r.order.length) := by
  rw [order_length abc hpi hok, hpi]
  exact hok.order

/-- `iPerm` holds the levels. -/
theorem cuddI_order {m : ℕ} (hm : m < C.nPi) : cuddI r.order m = r.iPerm.getD m 0 := by
  rw [hok.iPerm_eq m (hpi ▸ hm), cuddI, if_pos (order_length abc hpi hok ▸ hm)]

omit hpi in
theorem oPerm_length : r.oPerm.length = (abc.globalBdds C).length := by
  rw [hok.oPerm_length, initSupVecs, List.length_map]

omit hpi in
theorem slotNodes_iff (p : ℕ) (f : abc.Node) :
    (slotNodes (r.nPo * T) r.oPerm (abc.globalBdds C)).getD p none = some f ↔
      ∃ o : ℕ, r.oPerm[o]? = some p ∧ (abc.globalBdds C)[o]? = some f :=
  slotNodes_spec hok.oPerm_nodup (oPerm_length abc hok) hok.oPerm_lt p f

omit hpi in
/-- An output reads inputs only. -/
theorem dependsOn_inputs (hC : C.Ok) (hl : C.latches = []) {p : ℕ} {f : abc.Node}
    (hf : (slotNodes (r.nPo * T) r.oPerm (abc.globalBdds C)).getD p none = some f) :
    DependsOn (abc.eval f) { m | m < C.nPi } := by
  obtain ⟨o, -, hfo⟩ := (slotNodes_iff abc hok _ f).mp hf
  intro x y hxy
  rw [abc.eval_globalBdds C hC hl o f hfo, abc.eval_globalBdds C hC hl o f hfo]
  exact hC.fn_congr hl (fun i hi => hxy i hi) o

/-- In a causal schedule an output reads only levels up to its frame. -/
theorem dependsOn_slot (hC : C.Ok) (hl : C.latches = []) (hnPi : 1 ≤ nPi)
    (hcausal : r.Causal (initSupVecs abc C C.nPi) nPi) {i k : ℕ} (hk : k < r.nPo) {f : abc.Node}
    (hf : (slotNodes (r.nPo * T) r.oPerm (abc.globalBdds C)).getD (i * r.nPo + k) none = some f) :
    DependsOn (abc.eval f) { m | cuddI r.order m < (i + 1) * nPi } := by
  obtain ⟨o, ho, hfo⟩ := (slotNodes_iff abc hok _ f).mp hf
  have hsup := mem_initSupVecs abc hC hl hfo
  refine (abc.dependsOn_support f).mono fun j hj => ?_
  have hj : j ∈ (initSupVecs abc C C.nPi).getD o ∅ := hsup ▸ hj
  have holt : o < (initSupVecs abc C C.nPi).length := by
    rw [← hok.oPerm_length]
    exact (List.getElem?_eq_some_iff.mp ho).1
  have hjlt : j < C.nPi := by
    rw [List.getD_eq_getElem _ _ holt] at hj
    obtain ⟨g, -, hg⟩ := List.mem_map.mp (List.getElem_mem holt)
    rw [← hg, Finset.mem_filter] at hj
    exact Finset.mem_range.mp hj.1
  have hframe : (i * r.nPo + k) / r.nPo = i := by
    rw [Nat.mul_comm, Nat.mul_add_div (by omega), Nat.div_eq_of_lt hk, Nat.add_zero]
  have hslot : r.oPerm.getD o 0 = i * r.nPo + k := by
    rw [List.getD, ho]
    rfl
  show cuddI r.order j < (i + 1) * nPi
  rw [cuddI_order abc hpi hok hjlt, ← Nat.div_lt_iff_lt_mul hnPi]
  apply Nat.lt_succ_of_le
  calc r.iPerm.getD j 0 / nPi ≤ r.oPerm.getD o 0 / r.nPo := hcausal o holt j hj
    _ = i := by rw [hslot, hframe]

/-- Inputs fed by `iPerm` arrive level by level. -/
theorem Feeds.carries {x : ℕ → Bool} {inp : ℕ → ℕ → Bool} (h : Feeds r.iPerm nPi x inp) :
    Carries r.order nPi T x inp := by
  have hlen := order_length abc hpi hok
  refine carries_of_feeds (order_perm abc hpi hok) (hlen.trans hpi) ?_ (fun m hm => ?_) h
  · rw [hok.iPerm.length_eq, List.length_range, ← hpi, hlen]
  · exact (cuddI_order abc hpi hok (hlen ▸ hm)).symm

omit hpi in
/-- The output column of frame `t` shows the outputs scheduled there. -/
theorem frameChars_output (hC : C.Ok) (hl : C.latches = []) {o : ℕ} (ho : o < C.pos.length)
    (hnPo : 0 < r.nPo) (x : Assign) :
    (frameChars abc.toCudd (slotNodes (r.nPo * T) r.oPerm (abc.globalBdds C)) r.nPo
      (r.oPerm.getD o 0 / r.nPo) x)[r.oPerm.getD o 0 % r.nPo]? = some (bitChar (C.fn x o)) := by
  have holt : o < (abc.globalBdds C).length := by rwa [abc.globalBdds_length]
  have hf := List.getElem?_eq_getElem holt
  have hget := (slotNodes_iff abc hok (r.oPerm.getD o 0) _).mpr ⟨o, by
    rw [List.getD_eq_getElem _ _ (oPerm_length abc hok ▸ holt), List.getElem?_eq_getElem], hf⟩
  have hslot : r.oPerm.getD o 0 / r.nPo * r.nPo + r.oPerm.getD o 0 % r.nPo = r.oPerm.getD o 0 := by
    rw [Nat.mul_comm, Nat.div_add_mod]
  rw [frameChars, List.getElem?_map, List.getElem?_range (Nat.mod_lt _ hnPo)]
  simp only [Option.map_some, hslot, hget]
  rw [abc.eval_globalBdds C hC hl o _ hf]

omit hpi in
theorem frameChars_empty {t k : ℕ} (hk : k < r.nPo) (hno : t * r.nPo + k ∉ r.oPerm) (x : Assign) :
    (frameChars abc.toCudd (slotNodes (r.nPo * T) r.oPerm (abc.globalBdds C)) r.nPo t x)[k]? =
      some '-' := by
  have hget : (slotNodes (r.nPo * T) r.oPerm (abc.globalBdds C)).getD (t * r.nPo + k) none =
      none := by
    rw [Option.eq_none_iff_forall_ne_some]
    intro f hf
    obtain ⟨o, ho, -⟩ := (slotNodes_iff abc hok _ f).mp hf
    exact hno (List.mem_of_getElem? ho)
  rw [frameChars, List.getElem?_map, List.getElem?_range hk]
  simp only [Option.map_some, hget]

end Scheduled

section Run

variable {sort : CountSort} {ro : Reorder} {fp : Fp} {manual : ℕ → Option Schedule}
  (hC : C.Ok) (hl : C.latches = []) {nPi T : ℕ} (hT : 1 ≤ T)
  (hpi : C.nPi = nPi * T) (hpo : 1 ≤ C.pos.length) {oPerm : List ℤ}
  (hlen : oPerm.length = C.pos.length) {expConfig : ℕ} (hcfg : expConfig ≤ 3)

theorem length_initSupVecs : (initSupVecs abc C C.nPi).length = C.pos.length := by
  rw [initSupVecs, List.length_map, abc.globalBdds_length]

include hpi in
theorem initSupVecs_subset : ∀ s ∈ initSupVecs abc C C.nPi, s ⊆ Finset.range (nPi * T) := by
  intro s hs
  obtain ⟨f, -, rfl⟩ := List.mem_map.mp hs
  rw [← hpi]
  exact Finset.filter_subset _ _

include hT hpi in
/-- Small circuits are in range. -/
theorem inRange_of_lt (hnPi : 1 ≤ nPi) (sort : CountSort) (hci : C.nPi < 2 ^ 24)
    (hco : C.pos.length < 2 ^ 24) (hslots : C.pos.length * T ≤ 2 ^ 31) :
    InRange sort (initSupVecs abc C C.nPi) nPi T := by
  have hlen := length_initSupVecs abc (C := C)
  exact InRange.of_lt sort hT hnPi (initSupVecs_subset abc hpi) (hpi ▸ hci) (hlen.symm ▸ hco)
    (hlen.symm ▸ hslots)

include hC hl hT hpi hpo hlen hcfg

/-- The graph, the schedule and the tables of a run that ends: a schedule that is not causal
fails an assertion of the fold. -/
theorem bddMux2_folded {G : STG} {r : Schedule}
    (h : bddMux2 abc sort ro fp manual C T oPerm expConfig = some (G, r)) :
    r.Checked (initSupVecs abc C C.nPi) nPi T ∧ 0 < r.nPo ∧ (G.nCi = C.nPi ∧ G.nCo = C.pos.length) ∧
      ∃ B tab, (∃ size, bddComputeSign abc.toCudd C.nPi (r.nPo * 2) = some (B, size)) ∧
        Folded abc.toCudd r.order (slotNodes (r.nPo * T) r.oPerm (abc.globalBdds C)) B
          (Nat.clog 2 (r.nPo * 2)) nPi r.nPo T G tab := by
  have hdiv : C.nPi / T = nPi := by rw [hpi, Nat.mul_div_cancel _ hT]
  have hsvLen := length_initSupVecs abc (C := C)
  unfold bddMux2 at h
  simp only [hdiv] at h
  obtain ⟨r', hreord, h⟩ := Option.bind_eq_some_iff.mp h
  obtain ⟨⟨B, size⟩, hsign, h⟩ := Option.bind_eq_some_iff.mp h
  have hrun : reordIO sort ro fp manual (initSupVecs abc C C.nPi) (nPi * T) T oPerm expConfig =
      some r' := by rwa [← hpi]
  have hok := reordIO_checked hT (getD_subset (initSupVecs_subset abc hpi))
    (hlen.trans hsvLen.symm) hcfg hrun
  have hordlen := order_length abc hpi hok
  have hnPo : 0 < r'.nPo := by
    obtain ⟨c, hc⟩ := List.exists_mem_of_length_pos (hok.oPerm_length.trans hsvLen ▸ hpo)
    exact Nat.pos_of_mul_pos_right ((Nat.zero_le c).trans_lt (hok.oPerm_lt c hc))
  obtain ⟨B', hsign', hBlen, hB⟩ :=
    bddComputeSign_spec abc.toCudd C.nPi (show r'.nPo * 2 ≠ 0 by omega)
  rw [hsign'] at hsign
  cases hsign
  simp only [if_pos (Nat.ne_of_gt hnPo), if_true] at h
  obtain ⟨G', hfold, h⟩ := Option.bind_eq_some_iff.mp h
  cases h
  rw [← hordlen] at hfold hB
  have hcausal := causal_of_foldFrames (order_perm abc hpi hok) (hordlen.trans hpi) hB hBlen
    (fun i _ k _ f hf => (dependsOn_inputs abc hok hC hl hf).mono fun m hm =>
      (cuddI_lt (order_perm abc hpi hok)).mpr (hordlen.symm ▸ hm)) rfl
    (Nat.le_add_right _ _) hfold
  obtain ⟨G', tab, hrun, hshape, hG⟩ := foldFrames_folded (order_perm abc hpi hok)
    (hordlen.trans hpi) hB hBlen hcausal ⟨r.order.length, C.pos.length, nPi, r.nPo, T, 0,
      []⟩ rfl rfl
    rfl hT _ (Nat.le_add_right _ _) rfl
  obtain rfl := Option.some.inj (hrun.symm.trans hfold)
  rw [hordlen] at hshape
  exact ⟨hok, hnPo, hshape, B, tab, ⟨_, hsign'⟩, hG⟩

/-- In range every assertion passes. -/
theorem bddMux2_some (hnPi : 1 ≤ nPi) (hrange : InRange sort (initSupVecs abc C C.nPi) nPi T) :
    ∃ G r, bddMux2 abc sort ro fp manual C T oPerm expConfig = some (G, r) := by
  have hdiv : C.nPi / T = nPi := by rw [hpi, Nat.mul_div_cancel _ hT]
  have hsvLen := length_initSupVecs abc (C := C)
  have hsup := getD_subset (initSupVecs_subset abc (C := C) hpi)
  have hsvs := hlen.trans hsvLen.symm
  obtain ⟨r, hreord, hcausal⟩ := reordIO_ok sort ro fp manual hT hnPi
    (List.ne_nil_of_length_pos (hsvLen ▸ hpo)) hsup hrange hsvs hcfg
  have hok := reordIO_checked hT hsup hsvs hcfg hreord
  rw [← hpi] at hreord
  have hordlen := order_length abc hpi hok
  have hnPo : 0 < r.nPo := by
    obtain ⟨c, hc⟩ := List.exists_mem_of_length_pos (hok.oPerm_length.trans hsvLen ▸ hpo)
    exact Nat.pos_of_mul_pos_right ((Nat.zero_le c).trans_lt (hok.oPerm_lt c hc))
  obtain ⟨B, hsign, hBlen, hB⟩ :=
    bddComputeSign_spec abc.toCudd C.nPi (show r.nPo * 2 ≠ 0 by omega)
  obtain ⟨G, tab, hrun, -, -⟩ := foldFrames_folded (order_perm abc hpi hok)
    (hordlen.trans hpi) (by rwa [hordlen]) hBlen
    (fun i _ k hk f hf => dependsOn_slot abc hpi hok hC hl hnPi hcausal hk hf)
    ⟨C.nPi, C.pos.length, nPi, r.nPo, T, 0, []⟩ rfl rfl rfl hT (C.nPi + Nat.clog 2 (r.nPo * 2))
    (hordlen.trans_le (Nat.le_add_right _ _)) rfl
  refine ⟨G, r, ?_⟩
  unfold bddMux2
  rw [hordlen] at hrun
  simp only [hdiv, hreord, hsign, Option.bind_eq_bind, Option.bind_some]
  rw [if_pos (Nat.ne_of_gt hnPo), if_pos rfl, hrun]
  rfl

end Run

/-- The folded graph `G` shows `C` under the schedule `r`: one row matches in every frame, an
output shows its value in its slot, and an empty slot shows `-`. -/
structure ShowsScheduled (C : Ntk) (nPi T : ℕ) (G : STG) (r : Schedule) : Prop where
  iPerm : r.iPerm.Perm (List.range (nPi * T))
  oPerm_length : r.oPerm.length = C.pos.length
  oPerm_nodup : r.oPerm.Nodup
  oPerm_lt : ∀ o < C.pos.length, r.oPerm.getD o 0 / r.nPo < T ∧ r.oPerm.getD o 0 % r.nPo < r.nPo
  row : ∀ x inp, Feeds r.iPerm nPi x inp → ∀ t < T, ∃ s row,
    G.stateAt inp t = some s ∧ G.matching s (inp t) = [row] ∧
    (∀ o < C.pos.length, r.oPerm.getD o 0 / r.nPo = t →
      row.output[r.oPerm.getD o 0 % r.nPo]? = some (bitChar (C.fn x o))) ∧
    ∀ k < r.nPo, t * r.nPo + k ∉ r.oPerm → row.output[k]? = some '-'

/-- Functional folding preserves the circuit in every run that ends, and it ends on every circuit
that the schedule can count. -/
theorem bddMux2_folds (sort : CountSort) (ro : Reorder) (fp : Fp) (manual : ℕ → Option Schedule)
    (hC : C.Ok) (hl : C.latches = []) {nPi T : ℕ} (hT : 1 ≤ T) (hnPi : 1 ≤ nPi)
    (hpi : C.nPi = nPi * T) (hpo : 1 ≤ C.pos.length) {oPerm : List ℤ}
    (hlen : oPerm.length = C.pos.length) {expConfig : ℕ} (hcfg : expConfig ≤ 3) :
    (InRange sort (initSupVecs abc C C.nPi) nPi T →
      ∃ G r, bddMux2 abc sort ro fp manual C T oPerm expConfig = some (G, r)) ∧
    ∀ G r, bddMux2 abc sort ro fp manual C T oPerm expConfig = some (G, r) →
      ShowsScheduled C nPi T G r := by
  refine ⟨bddMux2_some abc hC hl hT hpi hpo hlen hcfg hnPi, fun G r hrun => ?_⟩
  obtain ⟨hok, hnPo, -, B, tab, -, hG⟩ :=
    bddMux2_folded abc hC hl hT hpi hpo hlen hcfg hrun
  have hrlen : r.oPerm.length = C.pos.length := hok.oPerm_length.trans (length_initSupVecs abc)
  refine ⟨hok.iPerm, hrlen, hok.oPerm_nodup, fun o ho => ⟨?_, Nat.mod_lt _ hnPo⟩,
    fun x inp hfeed t ht => ?_⟩
  · rw [List.getD_eq_getElem _ _ (hrlen.symm ▸ ho)]
    exact Nat.div_lt_of_lt_mul (hok.oPerm_lt _ (List.getElem_mem _))
  · obtain ⟨s, -, hs⟩ := hG.run (hfeed.carries abc hpi hok)
    obtain ⟨hstate, -, row, hmatch, -, hout⟩ := hs t ht
    refine ⟨s t, row, hstate, hmatch, fun o ho hot => ?_, fun k hk hno => ?_⟩
    · subst hot
      rw [hout]
      exact frameChars_output abc hok hC hl ho hnPo x
    · rw [hout]
      exact frameChars_empty abc hok hk hno x

end

/-- Two outputs over two inputs in two frames. -/
theorem bddMux2_wiresNtk :
    ∃ G r, bddMux2 Robdd.abcBdd countSort reverseRange exactFp (fun _ => none) wiresNtk 2 [0, 0] 0 =
        some (G, r) ∧ ShowsScheduled wiresNtk 1 2 G r := by
  obtain ⟨hsome, hshows⟩ := bddMux2_folds Robdd.abcBdd countSort reverseRange exactFp
    (fun _ => none) wiresNtk_ok rfl (by decide) (show 1 ≤ 1 by decide) (T := 2) rfl (by decide)
    (show ([0, 0] : List ℤ).length = 2 from rfl) (show 0 ≤ 3 by decide)
  obtain ⟨G, r, hrun⟩ := hsome (inRange_of_lt Robdd.abcBdd (by decide) rfl le_rfl countSort
    (by decide) (by decide) (by decide))
  exact ⟨G, r, hrun, hshows G r hrun⟩

/-! ## Conjunctions of all inputs -/

/-- The conjunction of the inputs up to `k`. -/
def conjLit : ℕ → Lit
  | 0 => (Obj.pi 0).lit
  | k + 1 => (Obj.node k).lit

def conjGraph : ℕ → Graph
  | 0 => []
  | k + 1 => (conjLit k, (Obj.pi (k + 1)).lit) :: conjGraph k

/-- `n + 1` inputs and as many outputs, each the conjunction of all inputs. -/
def conjNtk (n : ℕ) : Ntk := ⟨n + 1, conjGraph n, [], List.replicate (n + 1) (conjLit n)⟩

theorem length_conjGraph (k : ℕ) : (conjGraph k).length = k := by
  induction k with
  | zero => rfl
  | succ k ih => rw [conjGraph, List.length_cons, ih]

theorem conjLit_ok {k n : ℕ} (hk : k ≤ n) : (conjLit k).obj.Ok (Ntk.IsLeaf (n + 1) 0) k := by
  cases k with
  | zero => exact Nat.succ_pos n
  | succ k => exact Nat.lt_succ_self k

theorem conjGraph_ok {k n : ℕ} (hk : k ≤ n) : (conjGraph k).Ok (Ntk.IsLeaf (n + 1) 0) := by
  induction k with
  | zero => trivial
  | succ k ih =>
      refine ⟨?_, Nat.succ_lt_succ hk, ih (Nat.le_of_succ_le hk)⟩
      rw [length_conjGraph]
      exact conjLit_ok (Nat.le_of_succ_le hk)

theorem conjNtk_ok (n : ℕ) : (conjNtk n).Ok where
  graph := conjGraph_ok le_rfl
  latches := by simp [conjNtk]
  pos l hl := by
    obtain rfl := List.eq_of_mem_replicate hl
    show (conjLit n).obj.Ok _ (conjGraph n).length
    rw [length_conjGraph]
    exact conjLit_ok le_rfl

theorem eval_conj (k : ℕ) (e : Env) :
    (conjGraph k).eval e (conjLit k) = true ↔ ∀ i ≤ k, e.pi i = true := by
  induction k with
  | zero => simp [conjLit, Obj.lit]
  | succ k ih =>
      have hnode : (conjGraph (k + 1)).eval e (conjLit (k + 1)) =
          ((conjGraph k).eval e (conjLit k) && e.pi (k + 1)) := by
        have hcompl : ∀ k, (conjLit k).compl = false := fun k => by cases k <;> rfl
        have hself := Graph.interp_cons_self e.leaf andOp (conjLit k) (Obj.pi (k + 1)).lit
          (conjGraph k)
        rw [length_conjGraph] at hself
        rw [Graph.eval, Graph.eval, hcompl, hcompl]
        show (Graph.interp e.leaf andOp ((conjLit k, (Obj.pi (k + 1)).lit) :: conjGraph k)
          (.node k) ^^ false) = _
        rw [hself, hcompl]
        simp [andOp, Env.leaf]
      rw [hnode, Bool.and_eq_true, ih]
      constructor
      · rintro ⟨h, hk⟩ i hi
        rcases Nat.lt_or_eq_of_le hi with hi | rfl
        · exact h i (Nat.le_of_lt_succ hi)
        · exact hk
      · exact fun h => ⟨fun i hi => h i (Nat.le_succ_of_le hi), h _ le_rfl⟩

theorem conjNtk_fn {n o : ℕ} (ho : o < n + 1) (x : Assign) :
    (conjNtk n).fn x o = true ↔ ∀ i ≤ n, x i = true := by
  rw [Ntk.fn, conjNtk]
  simp only [List.getElem?_replicate, if_pos ho]
  exact eval_conj n _

/-- Every output needs every input. -/
theorem initSupVecs_conjNtk (abc : AbcBdd) (n : ℕ) :
    initSupVecs abc (conjNtk n) (n + 1) = fullSupVecs (n + 1) := by
  have hlen : (initSupVecs abc (conjNtk n) (n + 1)).length = n + 1 :=
    (length_initSupVecs abc (C := conjNtk n)).trans List.length_replicate
  refine List.eq_replicate_iff.mpr ⟨hlen, fun s hs => ?_⟩
  obtain ⟨f, hf, rfl⟩ := List.mem_map.mp hs
  obtain ⟨o, ho⟩ := List.mem_iff_getElem?.mp hf
  have holt : o < n + 1 := by
    have := (List.getElem?_eq_some_iff.mp ho).1
    rw [abc.globalBdds_length] at this
    simpa [conjNtk] using this
  rw [Finset.filter_eq_self]
  intro j hj
  by_contra hno
  -- the function changes with input `j` alone
  have hdep := abc.dependsOn_support f (x := fun _ => true)
    (y := Function.update (fun _ => true) j false) fun m hm => by
      rw [Function.update_of_ne]
      rintro rfl
      exact hno hm
  rw [abc.eval_globalBdds _ (conjNtk_ok n) rfl o f ho,
    abc.eval_globalBdds _ (conjNtk_ok n) rfl o f ho,
    (conjNtk_fn holt _).mpr fun _ _ => rfl, eq_comm, conjNtk_fn holt] at hdep
  have := hdep j (Nat.le_of_lt_succ (Finset.mem_range.mp hj))
  simp at this

/-- With one input a frame, the slots of the last frame get numbers that are no `int`s. -/
theorem bddMux2_conjNtk (abc : AbcBdd) (sort : CountSort) (ro : Reorder) (fp : Fp)
    (manual : ℕ → Option Schedule) {n : ℕ} (hn : n + 1 < 2 ^ 24) (hge : 2 ^ 31 < (n + 1) * (n + 1))
    (hlt : (n + 1) * (n + 1) < 2 ^ 32) {oPerm : List ℤ} (hlen : oPerm.length = n + 1)
    {expConfig : ℕ} (hcfg : expConfig ≤ 3) :
    bddMux2 abc sort ro fp manual (conjNtk n) (n + 1) oPerm expConfig = none := by
  have hreord := reordIO_full sort ro fp manual hn hge hlt hlen hcfg
  have hpi : (conjNtk n).nPi = n + 1 := rfl
  rw [← initSupVecs_conjNtk abc n] at hreord
  simp only [bddMux2, hpi, hreord]
  rfl

/-- `46341` outputs over as many inputs in as many frames. -/
theorem bddMux2_46341 :
    (conjNtk 46340).Ok ∧ (conjNtk 46340).nPi = 1 * 46341 ∧ (conjNtk 46340).pos.length = 46341 ∧
      bddMux2 Robdd.abcBdd countSort reverseRange exactFp (fun _ => none) (conjNtk 46340) 46341
        (List.replicate 46341 0) 0 = none :=
  ⟨conjNtk_ok _, rfl, List.length_replicate,
    bddMux2_conjNtk Robdd.abcBdd countSort reverseRange exactFp _ (by norm_num) (by norm_num)
      (by norm_num) List.length_replicate (Nat.zero_le 3)⟩

end ExtFolding.TimeMux2
