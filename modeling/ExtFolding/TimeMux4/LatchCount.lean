import ExtFolding.TimeMux4.Outputs

/-!
# The number of latches

A node is needed at the boundary after frame `t` if it feeds a node of a later frame. The
default gives every such node a latch of its own. With flip-flop sharing a latch is free
again once its node is no longer needed, and as many latches are used as nodes are needed
at the busiest boundary.
-/

namespace ExtFolding.TimeMux4

open ExtFolding.Aig ExtFolding.TimeMux2 ExtFolding.TimeMux3

namespace CombNtk

def objs (N : CombNtk) : Finset Obj :=
  insert .const1 ((Finset.range N.nCi).image Obj.pi ∪ (Finset.range N.graph.length).image Obj.node)

/-- The fanout `f` of `n` is an AND node that lies behind the boundary after frame `t`. -/
def Later (N : CombNtk) (nPi t : ℕ) (n : Obj) : Fanout → Prop
  | .node k => (N.support n).sup (· / nPi) ≤ t ∧ t < (N.support (.node k)).sup (· / nPi)
  | .po _ => False

instance (N : CombNtk) (nPi t : ℕ) (n : Obj) : DecidablePred (N.Later nPi t n)
  | .node _ => inferInstanceAs (Decidable (_ ∧ _))
  | .po _ => inferInstanceAs (Decidable False)

/-- The nodes that are needed at the boundary after frame `t`. -/
def crossing (N : CombNtk) (nPi t : ℕ) : Finset Obj :=
  N.objs.filter fun n => ∃ f ∈ N.fanouts n, N.Later nPi t n f

variable {N : CombNtk} {nPi t : ℕ}

theorem mem_objs {o : Obj} : o ∈ N.objs ↔ N.Has o := by
  cases o with
  | const1 => simp [objs, Obj.Ok, Ntk.IsLeaf]
  | pi j => simp [objs, Obj.Ok, Ntk.IsLeaf]
  | bo i => simp [objs, Obj.Ok, Ntk.IsLeaf]
  | node k => simp [objs, Obj.Ok]

/-- The nodes needed at a boundary are those that wait for the next frame. -/
theorem Strashed.mem_crossing (hN : N.Strashed) {n : Obj} :
    n ∈ N.crossing nPi t ↔ ∃ k, N.Waiting nPi (t + 1) k n := by
  simp only [crossing, Finset.mem_filter, mem_objs, hN.mem_fanouts]
  constructor
  · rintro ⟨-, f, he, hl⟩
    cases f with
    | po p => exact hl.elim
    | node k =>
        obtain ⟨q, hj⟩ := he
        obtain ⟨hn, hk⟩ := hl
        rw [← frameOf_eq_sup] at hn hk
        rw [hN.frameOf_node nPi hj] at hk
        exact ⟨k, q, hj, by omega, by omega⟩
  · rintro ⟨k, q, hj, hn, hq⟩
    refine ⟨hN.has_of_edge hj.edge, .node k, hj.edge, ?_⟩
    rw [Later, ← frameOf_eq_sup, ← frameOf_eq_sup, hN.frameOf_node nPi hj]
    omega

/-- A node needed at a boundary lies in an earlier frame and was needed before, or lies in
the frame that has just been read. -/
theorem Strashed.crossing_filter (hN : N.Strashed) :
    (N.crossing nPi t).filter (fun n => N.frameOf nPi n = t) =
      N.crossing nPi t \ (Finset.range t).biUnion (N.crossing nPi) := by
  ext n
  simp only [Finset.mem_filter, Finset.mem_sdiff, Finset.mem_biUnion, Finset.mem_range,
    hN.mem_crossing]
  refine and_congr_right fun ⟨k, q, hj, hn, hq⟩ => ?_
  constructor
  · rintro hframe ⟨r, hr, k', hw⟩
    have := hw.frame_lt
    omega
  · intro hnew
    by_contra hframe
    have hlt : N.frameOf nPi n < t := by omega
    exact hnew ⟨t - 1, by omega, k, q, hj, by omega, by omega⟩

end CombNtk

/-- What the folded network uses after `t` frames. -/
def latchNum (N : CombNtk) (nPi T : ℕ) (mff : Bool) (t : ℕ) : ℕ :=
  T + if mff then (Finset.range t).sup fun r => (N.crossing nPi r).card
    else ((Finset.range t).biUnion (N.crossing nPi)).card

variable {N : CombNtk} {nPi T t : ℕ} {mff : Bool}

theorem latchNum_succ (hN : N.Strashed) :
    latchNum N nPi T mff (t + 1) =
      if mff then max (latchNum N nPi T mff t) (T + (N.crossing nPi t).card)
      else latchNum N nPi T mff t +
        ((N.crossing nPi t).filter fun n => N.frameOf nPi n = t).card := by
  cases mff with
  | true =>
      simp only [latchNum, if_true, Finset.range_add_one, Finset.sup_insert]
      omega
  | false =>
      simp only [latchNum, Bool.false_eq_true, if_false, Finset.range_add_one,
        Finset.biUnion_insert]
      rw [hN.crossing_filter, ← Finset.sdiff_union_self_eq_union,
        Finset.card_union_of_disjoint Finset.sdiff_disjoint]
      omega

theorem latchNum_shared_le : latchNum N nPi T true t ≤ latchNum N nPi T false t := by
  refine Nat.add_le_add_left (Finset.sup_le fun r hr => ?_) T
  exact Finset.card_le_card (Finset.subset_biUnion_of_mem (N.crossing nPi) hr)

theorem buildFrames_length (abc : AbcAig) (ord : HashOrder) (hN : N.Strashed) (hT : 1 ≤ T)
    (hci : N.nCi = nPi * T) (ht : t ≤ T) {b : BuildSt}
    (hrun : buildFrames abc ord N T nPi mff t = some b) :
    b.latches.length = latchNum N nPi T mff t := by
  induction t generalizing b with
  | zero =>
      cases hrun
      cases mff <;> simp [latchNum, buildLatchTransWithTime]
  | succ t ih =>
      obtain ⟨b₀, hrun₀, hb₀, -⟩ :=
        buildFrames_spec abc ord hN hT hci mff (Nat.le_of_succ_le ht)
      obtain ⟨b', q, L, hstep, -, -, -, -, hcount⟩ := hb₀.frameStep abc ord hN hci ht
      rw [buildFrames, hrun₀, Option.bind_some, hstep] at hrun
      cases hrun
      rw [hcount (N.crossing nPi t) fun p => hN.mem_crossing, ih (Nat.le_of_succ_le ht) hrun₀,
        latchNum_succ hN]

/-! ## Exclusive latches -/

/-- After frame `t` every node needed at the boundary has a latch of its own. -/
structure OwnLatches (N : CombNtk) (nPi T t : ℕ) (b : BuildSt) : Prop where
  latch : ∀ n ∈ N.crossing nPi t, ∃ j, T ≤ j ∧ j < b.latches.length ∧ b.copy n = (Obj.bo j).lit
  exclusive : ∀ n ∈ N.crossing nPi t, ∀ n' ∈ N.crossing nPi t, b.copy n = b.copy n' → n = n'

theorem BuildInv.ownLatches (hN : N.Strashed) {b : BuildSt}
    (hb : BuildInv N nPi T mff (t + 1) b) : OwnLatches N nPi T t b where
  latch n hn := by
    obtain ⟨k, hw⟩ := hN.mem_crossing.mp hn
    exact hb.held.bo hw
  exclusive n hn n' hn' heq := by
    obtain ⟨k, hw⟩ := hN.mem_crossing.mp hn
    obtain ⟨k', hw'⟩ := hN.mem_crossing.mp hn'
    exact hb.held.inj hw hw' heq

/-! ## The output permutation -/

/-- Sorting forgets the order in which the outputs were found. -/
theorem sortInfo_fst_eq {info info' : List (ℕ × Lit)}
    (h : (info.map Prod.fst).Perm (info'.map Prod.fst)) :
    (sortInfo info).map Prod.fst = (sortInfo info').map Prod.fst := by
  have hsorted : ∀ l : List (ℕ × Lit), ((sortInfo l).map Prod.fst).Pairwise (· ≤ ·) := by
    intro l
    rw [List.pairwise_map]
    refine (List.pairwise_mergeSort (fun a b c => ?_) (fun a b => ?_) l).imp fun hab => ?_
    · simpa using Nat.le_trans
    · simpa using Nat.le_total a.1 b.1
    · simpa using hab
  refine List.Perm.eq_of_pairwise (fun a b _ _ => Nat.le_antisymm) (hsorted _) (hsorted _) ?_
  exact ((sortInfo_perm info).map _).trans (h.trans ((sortInfo_perm info').map _).symm)

theorem getPoNum_congr {infos infos' : List (List (ℕ × Lit))}
    (h : infos.map List.length = infos'.map List.length) : getPoNum infos = getPoNum infos' := by
  have hmap : ∀ l : List (List (ℕ × Lit)), getPoNum l = (l.map List.length).foldl max 0 :=
    fun l => by rw [List.foldl_map, getPoNum]
  rw [hmap, hmap, h]

section Modes

variable {mff' : Bool} {b b' : BuildSt} (hb : BuildInv N nPi T mff T b)
  (hb' : BuildInv N nPi T mff' T b')

include hb hb'

/-- Two runs find the same outputs in a frame. -/
theorem BuildInv.outs_perm {r : ℕ} {info info' : List (ℕ × Lit)}
    (h : b.poInfos[r]? = some info) (h' : b'.poInfos[r]? = some info') :
    (info.map Prod.fst).Perm (info'.map Prod.fst) := by
  rw [List.perm_ext_iff_of_nodup (hb.nodup h) (hb'.nodup h')]
  exact fun o => (hb.mem_outs h).trans (hb'.mem_outs h').symm

theorem BuildInv.getPoNum_eq : getPoNum b.poInfos = getPoNum b'.poInfos := by
  refine getPoNum_congr (List.ext_getElem ?_ fun r hr hr' => ?_)
  · rw [List.length_map, List.length_map, hb.infos, hb'.infos]
  · rw [List.getElem_map, List.getElem_map]
    rw [List.length_map] at hr hr'
    simpa using (hb.outs_perm hb' (List.getElem?_eq_getElem hr)
      (List.getElem?_eq_getElem hr')).length_eq

/-- An output has the same slot in both runs. -/
theorem BuildInv.slot_eq {a a' : ℕ × ((ℕ × Lit) × ℕ)} (ha : a ∈ tasks b.poInfos)
    (ha' : a' ∈ tasks b'.poInfos) (ht : a'.1 = a.1) (ho : a'.2.1.1 = a.2.1.1) :
    a'.2.2 = a.2.2 := by
  obtain ⟨info, hinfo, hc⟩ := mem_tasks.mp ha
  obtain ⟨info', hinfo', hc'⟩ := mem_tasks.mp ha'
  rw [ht] at hinfo'
  have heq := sortInfo_fst_eq (hb.outs_perm hb' hinfo hinfo')
  have hnd : ((sortInfo info').map Prod.fst).Nodup :=
    ((sortInfo_perm info').map Prod.fst).nodup_iff.mpr (hb'.nodup hinfo')
  have hget : ((sortInfo info').map Prod.fst)[a.2.2]? = some a.2.1.1 := by
    rw [← heq, List.getElem?_map, hc, Option.map_some]
  have hget' : ((sortInfo info').map Prod.fst)[a'.2.2]? = some a'.2.1.1 := by
    rw [List.getElem?_map, hc', Option.map_some]
  have hlt : a'.2.2 < ((sortInfo info').map Prod.fst).length := by
    rw [List.length_map]
    exact (List.getElem?_eq_some_iff.mp hc').1
  exact (List.getElem?_inj hlt hnd).mp (by rw [hget, hget', ho])

end Modes

/-- `oPerm` depends neither on the way values are stored nor on the hash orders. -/
theorem PoInv.oPerm_eq {mff' : Bool} {b b' : BuildSt} {p p' : PoSt} (hN : N.Strashed)
    (hT : 1 ≤ T) (hci : N.nCi = nPi * T) (hb : BuildInv N nPi T mff T b)
    (hb' : BuildInv N nPi T mff' T b')
    (hp : PoInv nPi b.latches.length T (getPoNum b.poInfos) N.pos.length b.graph
      (tasks b.poInfos) p)
    (hp' : PoInv nPi b'.latches.length T (getPoNum b'.poInfos) N.pos.length b'.graph
      (tasks b'.poInfos) p') : p.oPerm = p'.oPerm := by
  refine List.ext_getElem? fun o => ?_
  rcases Nat.lt_or_ge o N.pos.length with ho | ho
  · have hget := List.getElem?_eq_getElem ho
    obtain ⟨a, ha, hao, hframe, hc⟩ := hp.exists_slot hN hT hci hb hget
    obtain ⟨a', ha', hao', hframe', hc'⟩ := hp'.exists_slot hN hT hci hb' hget
    have ht : a'.1 = a.1 := by rw [hframe, hframe']
    rw [hc, hc', ht, hb.slot_eq hb' ha ha' ht (hao'.trans hao.symm), hb.getPoNum_eq hb']
  · rw [List.getElem?_eq_none (by rw [hp.permLength]; exact ho),
      List.getElem?_eq_none (by rw [hp'.permLength]; exact ho)]

/-- The run of `aigStrMux` in terms of its parts. -/
theorem aigStrMux_parts (abc : AbcAig) (ord : HashOrder) (hN : N.Strashed) (hT : 1 ≤ T)
    (hci : N.nCi = nPi * T) (hsize : N.poNum nPi T * T ≤ 2 ^ 31) (mff : Bool) {oPerm₀ : List ℤ}
    (hlen : oPerm₀.length = N.pos.length) :
    ∃ b p, BuildInv N nPi T mff T b ∧
      PoInv nPi b.latches.length T (getPoNum b.poInfos) N.pos.length b.graph (tasks b.poInfos) p ∧
      aigStrMux abc ord N T oPerm₀ mff =
        some (⟨nPi, p.graph, b.latches, p.poVec⟩, p.oPerm.map Int.toNat) ∧
      b.latches.length = latchNum N nPi T mff T := by
  have hnPi : N.nCi / T = nPi := by rw [hci, Nat.mul_div_cancel _ hT]
  obtain ⟨b, hrun, hb, -⟩ := buildFrames_spec abc ord hN hT hci mff le_rfl
  have hp := buildPoFuncs_spec abc hb hlen
  have hcheck := hp.checkPerm hN hT hci hb (hb.getPoNum_eq_poNum.symm ▸ hsize)
  refine ⟨b, _, hb, hp, ?_, buildFrames_length abc ord hN hT hci le_rfl hrun⟩
  simp only [aigStrMux, hnPi, hrun, Option.bind_eq_bind, Option.bind_some, hcheck]
  rfl

/-- With sharing there are as many latches behind the ring as nodes are needed at the busiest
boundary, without it as many as nodes are needed at all; nodes needed at the same boundary
never share a latch, and the outputs are permuted in the same way. -/
theorem aigStrMux_latches (abc : AbcAig) (ord ord' : HashOrder) (hN : N.Strashed) (hT : 1 ≤ T)
    (hci : N.nCi = nPi * T) (hsize : N.poNum nPi T * T ≤ 2 ^ 31) {oPerm₀ oPerm₀' : List ℤ}
    (hlen : oPerm₀.length = N.pos.length) (hlen' : oPerm₀'.length = N.pos.length) :
    ∃ S D oPerm, aigStrMux abc ord N T oPerm₀ true = some (S, oPerm) ∧
      aigStrMux abc ord' N T oPerm₀' false = some (D, oPerm) ∧
      S.latches.length = T + ((Finset.range T).sup fun t => (N.crossing nPi t).card) ∧
      D.latches.length = T + ((Finset.range T).biUnion (N.crossing nPi)).card ∧
      S.latches.length ≤ D.latches.length ∧
      ∀ (ord : HashOrder) (mff : Bool), ∀ t < T, ∃ b,
        buildFrames abc ord N T nPi mff (t + 1) = some b ∧ OwnLatches N nPi T t b := by
  obtain ⟨b, p, hb, hp, hrun, hcount⟩ := aigStrMux_parts abc ord hN hT hci hsize true hlen
  obtain ⟨b', p', hb', hp', hrun', hcount'⟩ :=
    aigStrMux_parts abc ord' hN hT hci hsize false hlen'
  have hperm : p.oPerm = p'.oPerm := hp.oPerm_eq hN hT hci hb hb' hp'
  refine ⟨_, _, p.oPerm.map Int.toNat, hrun, hperm ▸ hrun', hcount, hcount', ?_,
    fun ord mff t ht => ?_⟩
  · simp only [hcount, hcount']
    exact latchNum_shared_le
  · obtain ⟨b, hb, hinv, -⟩ := buildFrames_spec abc ord hN hT hci mff ht
    exact ⟨b, hb, hinv.ownLatches hN⟩

/-- In `andNtk` with one input a frame, input 0 is needed at the first boundary. -/
theorem aigStrMux_latches_andNtk :
    ∃ S D oPerm, aigStrMux strash .id andNtk 2 [0, 0] true = some (S, oPerm) ∧
      aigStrMux strash .id andNtk 2 [0, 0] false = some (D, oPerm) ∧
      S.latches.length = 3 ∧ D.latches.length = 3 := by
  have hlen : ([0, 0] : List ℤ).length = andNtk.pos.length := rfl
  obtain ⟨S, D, oPerm, hS, hD, hS', hD', -⟩ :=
    aigStrMux_latches strash .id .id andNtk_strashed (by decide)
      (show andNtk.nCi = 1 * 2 from rfl) andNtk_size hlen hlen
  exact ⟨S, D, oPerm, hS, hD, hS'.trans (by decide), hD'.trans (by decide)⟩

/-- With too many slots neither way of storing gets to a network. -/
theorem aigStrMux_latches_46341 :
    (lastNtk 46340).Strashed ∧ (lastNtk 46340).nCi = 1 * 46341 ∧
      ¬∃ S D oPerm,
        aigStrMux strash .id (lastNtk 46340) 46341 (List.replicate 46341 0) true =
          some (S, oPerm) ∧
        aigStrMux strash .id (lastNtk 46340) 46341 (List.replicate 46341 0) false =
          some (D, oPerm) := by
  refine ⟨lastNtk_strashed _, rfl, ?_⟩
  rintro ⟨S, D, oPerm, hS, -⟩
  rw [aigStrMux_lastNtk strash .id (by norm_num) (by norm_num) true List.length_replicate] at hS
  cases hS

end ExtFolding.TimeMux4
