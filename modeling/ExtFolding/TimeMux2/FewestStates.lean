import ExtFolding.TimeFold.BddFold
import ExtFolding.TimeFold.Residual
import ExtFolding.TimeMux2.BddMux2

/-!
# Backward folding yields the fewest states

For a circuit whose inputs and outputs are arranged in frames, a state before frame `i` can
only be shared by prefixes with the same residual function: what the outputs from frame `i` on
still compute from the inputs to come. `bddFold` and `bddMux2` share it by all of them.
-/

namespace ExtFolding.TimeMux2

open ExtFolding.Aig ExtFolding.Utils ExtFolding.TimeFold

section Defs

variable (C : Ntk) (iPerm oPerm : List ℕ) (nPi nPo i : ℕ)

/-- The inputs of the frames before `i` from `x`, those of the other frames from `z`; input `j`
is read at position `iPerm[j]`. -/
def splice (x z : Assign) : Assign := fun j => if iPerm.getD j 0 < i * nPi then x j else z j

/-- The outputs emitted from frame `i` on as functions of the inputs to come. -/
def residual (x : Assign) :
    Assign → { o // o < C.pos.length ∧ i * nPo ≤ oPerm.getD o 0 } → Bool :=
  fun z o => C.fn (splice iPerm nPi i x z) o

/-- The states of frame `i`. -/
def statesOf (G : STG) : Set (List Char) :=
  { s | (∃ k, s = stName i k) ∧ ∃ r ∈ G.transs, r.cst = s }

end Defs

/-- `G` shares the states of every frame as far as possible, and `tab` has their paths. -/
structure FewestStates (abc : AbcBdd) (C : Ntk) (iPerm oPerm : List ℕ) (nPi nPo T : ℕ) (G : STG)
    (tab : ℕ → Table abc.toCudd) : Prop where
  state : ∀ i < T, ∀ x inp, Feeds iPerm nPi x inp → ∃ k, G.stateAt inp i = some (stName i k)
  same : ∀ i < T, ∀ x inp, Feeds iPerm nPi x inp → ∀ y inp', Feeds iPerm nPi y inp' →
    (G.stateAt inp i = G.stateAt inp' i ↔
      residual C iPerm oPerm nPi nPo i x = residual C iPerm oPerm nPi nPo i y)
  count : ∀ i < T, (statesOf i G).encard = (Set.range (residual C iPerm oPerm nPi nPo i)).encard
  above : ∀ i < T, ∀ e : abc.Node × abc.Node, e ∈ tab i →
    ∀ x z, abc.eval e.2 (splice iPerm nPi i x z) = abc.eval e.2 x
  parts : ∀ i < T, ∀ x, ∃! k : ℕ, ∃ e : abc.Node × abc.Node,
    (tab i)[k]? = some e ∧ abc.eval e.2 x = true
  path : ∀ i < T, ∀ x inp, Feeds iPerm nPi x inp → ∀ (k : ℕ) (e : abc.Node × abc.Node),
    (tab i)[k]? = some e → (abc.eval e.2 x = true ↔ G.stateAt inp i = some (stName i k))

theorem encard_range_le {α β γ : Type} [Nonempty α] {f : α → β} {g : α → γ}
    (h : ∀ x y, f x = f y → g x = g y) : (Set.range g).encard ≤ (Set.range f).encard := by
  have : Nonempty γ := ⟨g (Classical.arbitrary α)⟩
  obtain ⟨φ, rfl⟩ := (Function.factorsThrough_iff g).mp fun x y => h x y
  rw [Set.range_comp]
  exact Set.encard_image_le φ _

/-- How the order of the manager and the slots of the output functions arrange the circuit. -/
structure Arranges (abc : AbcBdd) (C : Ntk) (order : List ℕ) (pNodeVec : List (Option abc.Node))
    (cap : ℕ) (iPerm oPerm : List ℕ) : Prop where
  order_length : order.length = C.nPi
  iPerm_length : iPerm.length = C.nPi
  level : ∀ m < C.nPi, iPerm.getD m 0 = cuddI order m
  oPerm_length : oPerm.length = C.pos.length
  oPerm_lt : ∀ p ∈ oPerm, p < cap
  slot : ∀ p f, pNodeVec.getD p none = some f ↔
    ∃ o : ℕ, oPerm[o]? = some p ∧ (abc.globalBdds C)[o]? = some f

section

variable {abc : AbcBdd} {C : Ntk} (hC : C.Ok) (hl : C.latches = []) {order : List ℕ}
  {pNodeVec : List (Option abc.Node)} {B : List abc.Node} {nB nPi nPo T : ℕ} {G : STG}
  {tab : ℕ → Table abc.toCudd} {iPerm oPerm : List ℕ}
  (hA : Arranges abc C order pNodeVec (nPo * T) iPerm oPerm)
  (hG : Folded abc.toCudd order pNodeVec B nB nPi nPo T G tab)
include hA

theorem splice_eq {i m : ℕ} (hm : m < C.nPi) (x z : Assign) :
    splice iPerm nPi i x z m = glue (cuddI order) (i * nPi) x z m := by
  unfold splice glue
  rw [hA.level m hm]

include hC hl

theorem fn_splice (i o : ℕ) (x z : Assign) :
    C.fn (splice iPerm nPi i x z) o = C.fn (glue (cuddI order) (i * nPi) x z) o :=
  hC.fn_congr hl (fun _ hm => splice_eq hA hm x z) o

/-- The outputs of the frames from `i` on are the outputs of the circuit with a slot there. -/
theorem sameOuts_iff_residual {i : ℕ} {x y : Assign} :
    SameOuts abc.toCudd order pNodeVec nPo T i (i * nPi) x y ↔
      residual C iPerm oPerm nPi nPo i x = residual C iPerm oPerm nPi nPo i y := by
  constructor
  · intro h
    funext z ⟨o, ho, hio⟩
    have hlt : o < oPerm.length := hA.oPerm_length ▸ ho
    have holt : o < (abc.globalBdds C).length := by rwa [abc.globalBdds_length]
    have hf := List.getElem?_eq_getElem holt
    have hp : oPerm.getD o 0 = oPerm[o] := List.getD_eq_getElem _ _ hlt
    have hcap : oPerm[o] < nPo * T := hA.oPerm_lt _ (List.getElem_mem hlt)
    have hpos : 0 < nPo := Nat.pos_of_mul_pos_right (Nat.zero_lt_of_lt hcap)
    have hslot : pNodeVec.getD (oPerm[o] / nPo * nPo + oPerm[o] % nPo) none =
        some (abc.globalBdds C)[o] := by
      rw [Nat.mul_comm, Nat.div_add_mod]
      exact (hA.slot _ _).mpr ⟨o, List.getElem?_eq_getElem hlt, hf⟩
    have := h z (oPerm[o] / nPo) ((Nat.le_div_iff_mul_le hpos).mpr (hp ▸ hio))
      (Nat.div_lt_of_lt_mul hcap) _ (Nat.mod_lt _ hpos) _ hslot
    show C.fn _ o = C.fn _ o
    rwa [fn_splice hC hl hA, fn_splice hC hl hA, ← abc.eval_globalBdds C hC hl o _ hf,
      ← abc.eval_globalBdds C hC hl o _ hf]
  · intro h z t hit _ k _ f hf
    obtain ⟨o, hop, hof⟩ := (hA.slot _ f).mp hf
    have ho : o < C.pos.length := by
      rw [← abc.globalBdds_length]
      exact (List.getElem?_eq_some_iff.mp hof).1
    have hio : i * nPo ≤ oPerm.getD o 0 := by
      rw [List.getD, hop]
      exact (Nat.mul_le_mul_right nPo hit).trans (Nat.le_add_right _ _)
    have := congrFun (congrFun h z) ⟨o, ho, hio⟩
    rw [abc.eval_globalBdds C hC hl o f hof, abc.eval_globalBdds C hC hl o f hof,
      ← fn_splice hC hl hA, ← fn_splice hC hl hA]
    exact this

include hG

theorem fewestStates_of_folded : FewestStates abc C iPerm oPerm nPi nPo T G tab := by
  obtain ⟨rows, hlay⟩ := hG.layers
  have hcar : ∀ {x inp}, Feeds iPerm nPi x inp → Carries order nPi T x inp := fun h =>
    carries_of_feeds hG.perm hG.nCi (hA.iPerm_length.trans hA.order_length.symm)
      (fun m hm => hA.level m (hA.order_length ▸ hm)) h
  -- the class of an input before frame `i`, and the state of its run
  have hclass : ∀ {i}, i < T → ∀ {x inp}, Feeds iPerm nPi x inp → ∀ (k : ℕ)
      (e : abc.Node × abc.Node), (tab i)[k]? = some e → abc.eval e.2 x = true →
      G.stateAt inp i = some (stName i k) := by
    intro i hi x inp hx k e hk he
    have hc := hcar hx
    rw [← hG.pins, ← hG.frames] at hc
    rw [hlay.stateAt_eq hc (hG.frames.symm ▸ hi.le) hk he, hG.frames, layerName_of_lt hi]
  have hcover : ∀ {i}, i < T → ∀ x, ∃ (k : ℕ) (e : abc.Node × abc.Node),
      (tab i)[k]? = some e ∧ abc.eval e.2 x = true := fun hi x => (hG.table hi.le).cover x
  have hindex : ∀ {i}, i < T → ∀ {x y : Assign} {k k' : ℕ} {e e' : abc.Node × abc.Node},
      (tab i)[k]? = some e → (tab i)[k']? = some e' → abc.eval e.2 x = true →
      abc.eval e'.2 y = true → (stName i k = stName i k' ↔
        residual C iPerm oPerm nPi nPo i x = residual C iPerm oPerm nPi nPo i y) := by
    intro i hi x y k k' e e' hk hk' he he'
    rw [← sameOuts_iff_residual hC hl hA, ← hG.sameClass_iff hi.le,
      (hG.table hi.le).sameClass_iff hk hk' he he']
    exact ⟨fun h => (stName_inj h).2, fun h => by rw [h]⟩
  refine ⟨fun i hi x inp hx => ?_, fun i hi x inp hx y inp' hy => ?_, fun i hi => ?_,
    fun i hi e he x z => ?_, fun i hi x => ?_,
    fun i hi x inp hx k e hk => ⟨hclass hi hx k e hk, fun h => ?_⟩⟩
  · obtain ⟨k, e, hk, he⟩ := hcover hi x
    exact ⟨k, hclass hi hx k e hk he⟩
  · obtain ⟨k, e, hk, he⟩ := hcover hi x
    obtain ⟨k', e', hk', he'⟩ := hcover hi y
    rw [hclass hi hx k e hk he, hclass hi hy k' e' hk' he', Option.some.injEq]
    exact hindex hi hk hk' he he'
  · choose! k e hk he using fun x => hcover hi x
    have hstates : statesOf i G = Set.range fun x => stName i (k x) := by
      ext s
      constructor
      · rintro ⟨⟨c, rfl⟩, hrow⟩
        have hc := (hlay.exists_row_iff hG.perm (hG.frames.symm ▸ hi)).mp hrow
        obtain ⟨e', x, he', hx⟩ := hlay.exists_mem (hG.frames.symm ▸ hi.le) hc
        exact ⟨x, congrArg (stName i) ((hG.table hi.le).unique (hk x) he' (he x) hx)⟩
      · rintro ⟨x, rfl⟩
        have hc := (List.getElem?_eq_some_iff.mp (hk x)).1
        exact ⟨⟨k x, rfl⟩, (hlay.exists_row_iff hG.perm (hG.frames.symm ▸ hi)).mpr hc⟩
    rw [hstates]
    exact le_antisymm
      (encard_range_le fun x y => (hindex hi (hk x) (hk y) (he x) (he y)).mpr)
      (encard_range_le fun x y => (hindex hi (hk x) (hk y) (he x) (he y)).mp)
  · refine (hG.table hi.le).dep e he fun m hm => ?_
    have hm : cuddI order m < i * nPi := hm
    have hlt : m < order.length := by
      refine (cuddI_lt hG.perm).mp (hm.trans_le ?_)
      rw [hG.nCi, Nat.mul_comm nPi]
      exact Nat.mul_le_mul_right _ hi.le
    rw [splice_eq hA (hA.order_length ▸ hlt), glue_of_lt hm]
  · obtain ⟨k, e, hk, he⟩ := hcover hi x
    refine ⟨k, ⟨e, hk, he⟩, ?_⟩
    rintro k' ⟨e', hk', he'⟩
    exact (hG.table hi.le).unique hk' hk he' he
  · obtain ⟨k', e', hk', he'⟩ := hcover hi x
    rw [hclass hi hx k' e' hk' he', Option.some.injEq] at h
    obtain rfl := (stName_inj h).2
    rw [hk] at hk'
    cases hk'
    exact he'

end

/-- Backward folding has one state before frame `i` for every residual function: `bddFold` on
circuits in iterative form, with inputs and outputs in their order, and `bddMux2` in every run
that ends, with the schedule that it computes; and it ends on every circuit that the schedule can
count. -/
theorem fewest_states (abc : AbcBdd) :
    (∀ (C : Ntk) (nPi nPo T : ℕ), C.Ok → C.latches = [] → 1 ≤ T → 1 ≤ nPo →
      C.nPi = nPi * T → C.pos.length = nPo * T →
      (∀ t < T, ∀ j < nPo,
        DependsOn (fun x => C.fn x (t * nPo + j)) { i | i < (t + 1) * nPi }) →
      ∃ G B tab, bddFold abc C T = some G ∧
        (∃ size, bddComputeSign abc.toCudd C.nPi (nPo * 2) = some (B, size)) ∧
        FoldTables abc.toCudd (List.range C.nPi) C.nPi ((abc.globalBdds C).map some) B
          (Nat.clog 2 (nPo * 2)) nPi nPo T tab ∧
        FewestStates abc C (List.range C.nPi) (List.range C.pos.length) nPi nPo T G tab) ∧
    ∀ (sort : CountSort) (ro : Reorder) (fp : Fp) (manual : ℕ → Option Schedule) (C : Ntk)
      (nPi T : ℕ) (oPerm : List ℤ) (expConfig : ℕ), C.Ok → C.latches = [] → 1 ≤ T → 1 ≤ nPi →
      C.nPi = nPi * T → 1 ≤ C.pos.length → oPerm.length = C.pos.length → expConfig ≤ 3 →
      (InRange sort (initSupVecs abc C C.nPi) nPi T →
        ∃ G r, bddMux2 abc sort ro fp manual C T oPerm expConfig = some (G, r)) ∧
      ∀ G r, bddMux2 abc sort ro fp manual C T oPerm expConfig = some (G, r) → ∃ B tab,
        (∃ size, bddComputeSign abc.toCudd C.nPi (r.nPo * 2) = some (B, size)) ∧
        FoldTables abc.toCudd r.order C.nPi (slotNodes (r.nPo * T) r.oPerm (abc.globalBdds C)) B
          (Nat.clog 2 (r.nPo * 2)) nPi r.nPo T tab ∧
        FewestStates abc C r.iPerm r.oPerm nPi r.nPo T G tab := by
  constructor
  · intro C nPi nPo T hC hl hT hnPo hpi hpo hiter
    obtain ⟨G, B, tab, hrun, hsign, hG⟩ := bddFold_folded abc hC hl hT hnPo hpi hpo hiter
    have htab := hG.tables
    rw [List.length_range] at htab
    refine ⟨G, B, tab, hrun, hsign, htab, fewestStates_of_folded hC hl ?_ hG⟩
    refine ⟨List.length_range, List.length_range, fun m hm => ?_, List.length_range,
      fun p hp => hpo ▸ List.mem_range.mp hp, fun p f => ?_⟩
    · rw [cuddI_range, List.getD, List.getElem?_range hm]
      rfl
    · rw [List.getD, List.getElem?_map]
      constructor
      · intro h
        cases hf : (abc.globalBdds C)[p]? with
        | none => simp [hf] at h
        | some g =>
            have hp : p < C.pos.length := by
              rw [← abc.globalBdds_length]
              exact (List.getElem?_eq_some_iff.mp hf).1
            rw [hf] at h
            cases h
            exact ⟨p, List.getElem?_range hp, hf⟩
      · rintro ⟨o, ho, hf⟩
        obtain ⟨-, rfl⟩ := List.getElem?_eq_some_iff.mp ho
        rw [List.getElem_range, hf]
        rfl
  · intro sort ro fp manual C nPi T oPerm expConfig hC hl hT hnPi hpi hpo hlen hcfg
    refine ⟨bddMux2_some abc hC hl hT hpi hpo hlen hcfg hnPi, fun G r hrun => ?_⟩
    obtain ⟨hok, -, -, B, tab, hsign, hG⟩ := bddMux2_folded abc hC hl hT hpi hpo hlen hcfg hrun
    have hordlen := order_length abc hpi hok
    have htab := hG.tables
    rw [hordlen] at htab
    refine ⟨B, tab, hsign, htab, fewestStates_of_folded hC hl ?_ hG⟩
    refine ⟨hordlen, ?_, fun m hm => (cuddI_order abc hpi hok hm).symm, ?_, hok.oPerm_lt,
      slotNodes_iff abc hok⟩
    · rw [hok.iPerm.length_eq, List.length_range, hpi]
    · rw [oPerm_length abc hok, abc.globalBdds_length]

theorem fewest_states_samples :
    (∃ G B tab, bddFold Robdd.abcBdd holdNtk 2 = some G ∧
      (∃ size, bddComputeSign Robdd.abcBdd.toCudd 2 (1 * 2) = some (B, size)) ∧
      FoldTables Robdd.abcBdd.toCudd (List.range 2) 2 ((Robdd.abcBdd.globalBdds holdNtk).map some)
        B (Nat.clog 2 (1 * 2)) 1 1 2 tab ∧
      FewestStates Robdd.abcBdd holdNtk (List.range 2) (List.range 2) 1 1 2 G tab) ∧
    ∃ G r, bddMux2 Robdd.abcBdd countSort reverseRange exactFp (fun _ => none) wiresNtk 2
        [0, 0] 0 = some (G, r) ∧ ∃ B tab,
      (∃ size, bddComputeSign Robdd.abcBdd.toCudd 2 (r.nPo * 2) = some (B, size)) ∧
      FoldTables Robdd.abcBdd.toCudd r.order 2
        (slotNodes (r.nPo * 2) r.oPerm (Robdd.abcBdd.globalBdds wiresNtk)) B
        (Nat.clog 2 (r.nPo * 2)) 1 r.nPo 2 tab ∧
      FewestStates Robdd.abcBdd wiresNtk r.iPerm r.oPerm 1 r.nPo 2 G tab := by
  refine ⟨(fewest_states Robdd.abcBdd).1 holdNtk 1 1 2 holdNtk_ok rfl (by decide) (by decide) rfl
    rfl holdNtk_iterative, ?_⟩
  obtain ⟨hsome, hfewest⟩ := (fewest_states Robdd.abcBdd).2 countSort reverseRange exactFp
    (fun _ => none) wiresNtk 1 2 [0, 0] 0 wiresNtk_ok rfl (by decide) (by decide) rfl (by decide)
    rfl (by decide)
  obtain ⟨G, r, hrun⟩ := hsome (inRange_of_lt Robdd.abcBdd (by decide) rfl le_rfl countSort
    (by decide) (by decide) (by decide))
  exact ⟨G, r, hrun, hfewest G r hrun⟩

/-- There is no graph that shares the states when the slots cannot be counted. -/
theorem fewest_states_46341 :
    (conjNtk 46340).Ok ∧ (conjNtk 46340).nPi = 1 * 46341 ∧ (conjNtk 46340).pos.length = 46341 ∧
      ¬ ∃ G r tab, bddMux2 Robdd.abcBdd countSort reverseRange exactFp (fun _ => none)
        (conjNtk 46340) 46341 (List.replicate 46341 0) 3 = some (G, r) ∧
        FewestStates Robdd.abcBdd (conjNtk 46340) r.iPerm r.oPerm 1 r.nPo 46341 G tab := by
  refine ⟨conjNtk_ok _, rfl, List.length_replicate, ?_⟩
  rintro ⟨G, r, tab, hrun, -⟩
  rw [bddMux2_conjNtk Robdd.abcBdd countSort reverseRange exactFp _ (by norm_num) (by norm_num)
    (by norm_num) List.length_replicate le_rfl] at hrun
  cases hrun

end ExtFolding.TimeMux2
