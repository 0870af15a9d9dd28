import ExtFolding.TimeMux4.StoreShared

/-!
# The frames of a round

`BuildInv` holds of the network under construction before frame `t`. The behaviour
is stated about the finished network `F`, of which the present one is a part
(`Final`): in every round of `F` the boxes of the objects that wait for frame `t`
carry their values when the cycle of frame `t` begins.
-/

namespace ExtFolding.TimeMux4

open ExtFolding.Aig ExtFolding.TimeMux2 ExtFolding.TimeMux3

def BuildSt.lat (b : BuildSt) : LatSt := ⟨b.graph, b.latches, b.copy⟩

structure BuildInv (N : CombNtk) (nPi T : ℕ) (mff : Bool) (t : ℕ) (b : BuildSt) : Prop where
  ok : b.lat.Ok nPi
  length : T ≤ b.latches.length
  ring : HasRing T b.latches
  waits : ∀ {k p}, (k, p) ∈ b.vMap ↔ N.Waiting nPi t k p
  held : Held N nPi t b.copy T b.latches.length
  idle : ∀ {e r i}, OneHot T r e.bo → t ≤ r → T ≤ i → i < b.latches.length →
    b.lat.next e i = idleNext mff e i
  infos : b.poInfos.length = t
  nodup : ∀ {r : ℕ} {info : List (ℕ × Lit)}, b.poInfos[r]? = some info → (info.map Prod.fst).Nodup
  mem_outs : ∀ {r : ℕ} {info : List (ℕ × Lit)} {o : ℕ}, b.poInfos[r]? = some info →
    (o ∈ info.map Prod.fst ↔ ∃ d, N.Edge d (.po o) ∧ N.frameOf nPi d = r)
  lit : ∀ {r : ℕ} {info : List (ℕ × Lit)}, b.poInfos[r]? = some info → ∀ p ∈ info,
    p.2.obj.Ok (Ntk.IsLeaf nPi b.latches.length) b.graph.length

variable {N : CombNtk} {nPi T t : ℕ} {mff : Bool}

theorem buildInv_zero (hT : 1 ≤ T) :
    BuildInv N nPi T mff 0 ⟨[], buildLatchTransWithTime T, fun _ => Obj.const1.lit, [], []⟩ := by
  have hlen : (buildLatchTransWithTime T).length = T := by simp [buildLatchTransWithTime]
  have hwait : ∀ {k p}, ¬ N.Waiting nPi 0 k p := fun hw => Nat.not_lt_zero _ hw.frame_lt
  refine ⟨⟨trivial, fun l hl => ?_⟩, hlen.ge, fun _ _ => rfl, fun {k p} => by simp [hwait],
    ⟨rfl, fun hw => absurd hw hwait, fun hw => absurd hw hwait⟩,
    fun _ _ hi hi' => absurd (hlen ▸ hi') (Nat.not_lt.mpr hi), rfl, by simp, by simp, by simp⟩
  simp only [BuildSt.lat, buildLatchTransWithTime, List.mem_map, List.mem_range,
    List.length_map, List.length_range] at hl ⊢
  obtain ⟨i, hi, rfl⟩ := hl
  split
  · exact Nat.sub_lt hT Nat.one_pos
  · exact Nat.lt_of_le_of_lt (Nat.sub_le i 1) hi

/-- More nodes do not change what the boxes load. -/
theorem LatSt.Ok.next_of_suffix {s : LatSt} (hs : s.Ok nPi) {g : Graph} (hg : s.graph <:+ g)
    (copy : Obj → Lit) (e : Env) (i : ℕ) :
    LatSt.next ⟨g, s.latches, copy⟩ e i = s.next e i := by
  unfold LatSt.next
  simp only
  cases hl : s.latches[i]? with
  | none => rfl
  | some l => exact Graph.eval_of_suffix hg e (hs.latches l (List.mem_of_getElem? hl)).below

/-- After the traversal the waiting objects can be stored. -/
theorem TravInv.ready (hN : N.Strashed) {b : BuildSt} (hb : BuildInv N nPi T mff t b)
    {L : List Obj} {q : QueSt}
    (h : TravInv N nPi t b.copy b.latches.length b.graph (seenAt N nPi t L) L q) :
    Ready nPi T t mff q.vMap ⟨q.graph, b.latches, q.copy⟩ := by
  have hlive : ∀ x ∈ q.vMap, Live N nPi t L x.2 :=
    fun x hx => h.done_live hN ((h.done_waits hN).mp hx)
  refine ⟨⟨h.copies.ok, fun l hl => ?_⟩, hb.length, fun x hx => h.copies.lit (hlive x hx),
    fun x hx => h.copies.compl hb.held (hlive x hx),
    fun x hx y hy => h.copies.inj hN hb.held (hlive x hx) (hlive y hy), ?_,
    fun {e i} he hi hi' => ?_⟩
  · exact (hb.ok.latches l hl).mono h.suffix.length_le
  · rintro ⟨k, o⟩ hx j hj
    have hlive := hlive _ hx
    simp only at hlive hj
    cases h.copies.shape hb.held hlive with
    | const1 hc => simp [hc, Obj.lit] at hj
    | wait hw hc =>
        obtain ⟨j', hT, -, hc'⟩ := hb.held.bo hw
        simp only [h.copies.wait hw, hc', Obj.lit, Lit.mk.injEq, Obj.bo.injEq, and_true] at hj
        exact hj ▸ hT
    | pi _ hc => simp [hc, Obj.lit] at hj
    | node _ _ _ hc _ => simp [hc, Obj.lit] at hj
  · rw [← hb.idle he le_rfl hi hi']
    exact hb.ok.next_of_suffix h.suffix q.copy e i

/-- Of the objects that wait for frame `t + 1`, those of frame `t` have no box yet. -/
theorem TravInv.new_iff (hN : N.Strashed) {c₀ : Obj → Lit} {nl : ℕ} {g₀ : Graph} {L : List Obj}
    {q : QueSt} (h : TravInv N nPi t c₀ nl g₀ (seenAt N nPi t L) L q)
    (h₀ : Held N nPi t c₀ T nl) {k : ℕ} {p : Obj} (hw : N.Waiting nPi (t + 1) k p) :
    N.frameOf nPi p = t ↔ ∀ j, q.copy p ≠ (Obj.bo j).lit := by
  constructor
  · intro hframe j hc
    cases h.copies.shape h₀ (h.done_live hN hw) with
    | const1 _ => exact hN.waiting_ne_const hw rfl
    | wait hw' _ => exact absurd hframe hw'.frame_lt.ne
    | pi _ hc' => simp [hc', Obj.lit] at hc
    | node _ _ _ hc' _ => simp [hc', Obj.lit] at hc
  · intro hne
    obtain ⟨o, hj, hp, ho⟩ := hw
    by_contra hframe
    have hold : N.Waiting nPi t k p := ⟨o, hj, by omega, by omega⟩
    obtain ⟨j, -, -, hc⟩ := h₀.bo hold
    exact hne j ((h.copies.wait hold).trans hc)

/-- One round of the loop in `buildTM`: the traversal `q` followed by the storing. `W` are the
objects that wait at the end of the frame. -/
theorem BuildInv.frameStep (abc : AbcAig) (ord : HashOrder) (hN : N.Strashed)
    (hci : N.nCi = nPi * T) (ht : t < T) {b : BuildSt} (hb : BuildInv N nPi T mff t b) :
    ∃ b' q L, frameStep abc ord N T nPi mff t b = some b' ∧
      TravInv N nPi t b.copy b.latches.length b.graph (seenAt N nPi t L) L q ∧
      StoreInv nPi T t mff ⟨q.graph, b.latches, q.copy⟩ b'.lat
        (fun p => ∃ k, N.Waiting nPi (t + 1) k p) ∧
      b'.vMap = q.vMap ∧ b'.poInfos = b.poInfos ++ [q.info] ∧
      ∀ W : Finset Obj, (∀ p, p ∈ W ↔ ∃ k, N.Waiting nPi (t + 1) k p) →
        b'.latches.length = if mff then max b.latches.length (T + W.card)
          else b.latches.length + (W.filter fun p => N.frameOf nPi p = t).card := by
  have hstart := initQue_inv hN hci ht hb.held (show b.graph.Ok _ from hb.ok.graph) hb.waits
  obtain ⟨q, L, hque, hq⟩ := processQue_spec abc hN hb.held hci
    (nPi + 1 + N.graph.length) hstart (by simp) (by simp)
  have hready := hq.ready hN hb
  have hwaits : ∀ p, (∃ k, (k, p) ∈ q.vMap) ↔ ∃ k, N.Waiting nPi (t + 1) k p :=
    fun p => exists_congr fun k => hq.done_waits hN
  obtain ⟨s', hrun, hstore, hcount⟩ : ∃ s',
      storeFrame abc ord mff t T q.vMap ⟨q.graph, b.latches, q.copy⟩ = some s' ∧
      (StoreInv nPi T t mff ⟨q.graph, b.latches, q.copy⟩ s' fun p => ∃ k, (k, p) ∈ q.vMap) ∧
      ∀ W : Finset Obj, (∀ p, p ∈ W ↔ ∃ k, N.Waiting nPi (t + 1) k p) →
        s'.latches.length = if mff then max b.latches.length (T + W.card)
          else b.latches.length + (W.filter fun p => N.frameOf nPi p = t).card := by
    cases mff with
    | true =>
        obtain ⟨s', hrun, hstore, hlen⟩ := storeInLats2_spec abc ord ht hready
        exact ⟨s', hrun, hstore, fun W hW => hlen W fun p => (hW p).trans (hwaits p).symm⟩
    | false =>
        obtain ⟨s', hrun, hstore, hlen⟩ := storeInLats_spec abc ord ht hready
        refine ⟨s', hrun, hstore, fun W hW => hlen _ fun p => ?_⟩
        rw [Finset.mem_filter, hW, hwaits]
        refine and_congr_right fun ⟨k, hw⟩ => ?_
        exact hq.new_iff hN hb.held hw
  refine ⟨⟨s'.graph, s'.latches, s'.copy, q.vMap, b.poInfos ++ [q.info]⟩, q, L, ?_, hq,
    hstore.congr hwaits, rfl, rfl, hcount⟩
  rw [TimeMux4.frameStep, hque]
  simp only [Option.bind_eq_bind, Option.bind_some, hrun]
  rfl

/-- The invariant is preserved. -/
theorem BuildInv.next (hN : N.Strashed) (ht : t < T) {b b' : BuildSt}
    (hb : BuildInv N nPi T mff t b) {q : QueSt} {L : List Obj}
    (hq : TravInv N nPi t b.copy b.latches.length b.graph (seenAt N nPi t L) L q)
    (hs : StoreInv nPi T t mff ⟨q.graph, b.latches, q.copy⟩ b'.lat
      (fun p => ∃ k, N.Waiting nPi (t + 1) k p))
    (hv : b'.vMap = q.vMap) (hinfo : b'.poInfos = b.poInfos ++ [q.info]) :
    BuildInv N nPi T mff (t + 1) b' := by
  have hlen : b.latches.length ≤ b'.latches.length := hs.length
  have hsuf : q.graph <:+ b'.graph := hs.suffix
  have hinfos : ∀ {r info}, b'.poInfos[r]? = some info →
      b.poInfos[r]? = some info ∨ (r = t ∧ info = q.info) := by
    intro r info h
    rw [hinfo] at h
    rcases Nat.lt_trichotomy r t with hlt | rfl | hgt
    · rw [List.getElem?_append_left (by rw [hb.infos]; exact hlt)] at h
      exact Or.inl h
    · rw [List.getElem?_append_right hb.infos.le, hb.infos, Nat.sub_self] at h
      exact Or.inr ⟨rfl, by simpa using h.symm⟩
    · rw [List.getElem?_eq_none (by simp [hb.infos]; omega)] at h
      cases h
  refine ⟨hs.ok, hb.length.trans hlen, fun i hi => ?_, fun {k p} => ?_, ⟨?_, fun {k p} hw => ?_,
    fun {k p k' p'} hw hw' heq => hs.inj ⟨k, hw⟩ ⟨k', hw'⟩ heq⟩, fun {e r i} he hr hi hi' => ?_,
    by rw [hinfo, List.length_append, hb.infos]; rfl, fun {r info} h => ?_,
    fun {r info o} h => ?_, fun {r info} h p hp => ?_⟩
  · exact (hs.ring i hi).trans (hb.ring i hi)
  · rw [hv]
    exact hq.done_waits hN
  · exact (hs.other fun ⟨k, hw⟩ => hN.waiting_ne_const hw rfl).trans hq.copies.const1
  · obtain ⟨j, hT, hj, hc, -⟩ := hs.held ⟨k, hw⟩
    exact ⟨j, hT, hj, hc⟩
  · have hrt : r ≠ t := by omega
    rcases Nat.lt_or_ge i b.latches.length with hlt | hge
    · rw [hs.old he hrt hlt, ← hb.idle he (by omega) hi hlt]
      exact hb.ok.next_of_suffix hq.suffix q.copy e i
    · exact hs.fresh he hrt hge hi'
  · rcases hinfos h with h | ⟨rfl, rfl⟩
    · exact hb.nodup h
    · exact hq.outs
  · rcases hinfos h with h | ⟨rfl, rfl⟩
    · exact hb.mem_outs h
    · exact hq.done_outs hN
  · have hmono : ∀ o, Ntk.IsLeaf nPi b.latches.length o → Ntk.IsLeaf nPi b'.latches.length o :=
      Ntk.isLeaf_mono le_rfl hlen
    rcases hinfos h with h | ⟨rfl, rfl⟩
    · exact ((hb.lit h p hp).mono (hq.suffix.length_le.trans hsuf.length_le)).weaken hmono
    · exact ((hq.out p hp).1.mono hsuf.length_le).weaken hmono

/-! ## Rounds of the finished network -/

/-- `F` contains the network built before frame `t`: in the cycles of the frames before `t`
the boxes that exist already behave as they do now. -/
structure Final (T t : ℕ) (b : BuildSt) (F : Ntk) : Prop where
  suffix : b.graph <:+ F.graph
  next : ∀ {e r i}, OneHot T r e.bo → r < t → i < b.latches.length →
    F.next e i = b.lat.next e i

/-- The cycles of one round, with the input vector `x`. -/
structure Round (nPi T : ℕ) (F : Ntk) (x : ℕ → Bool) (e : ℕ → Env) : Prop where
  oneHot : ∀ t < T, OneHot T t (e t).bo
  pin : ∀ t < T, ∀ i < nPi, (e t).pi i = x (t * nPi + i)
  next : ∀ t, (e (t + 1)).bo = F.next (e t)

/-- In a round, the waiting values and the outputs recorded before frame `t` are right. -/
structure Runs (N : CombNtk) (nPi T t : ℕ) (b : BuildSt) (F : Ntk) : Prop where
  held : ∀ {x e}, Round nPi T F x e → ∀ {k o j}, N.Waiting nPi t k o →
    b.copy o = (Obj.bo j).lit → (e t).bo j = N.val x o
  out : ∀ {x e}, Round nPi T F x e → ∀ {r : ℕ} {info : List (ℕ × Lit)},
    b.poInfos[r]? = some info → ∀ p ∈ info, F.graph.eval (e r) p.2 = N.fn x p.1

theorem Final.prev {b b' : BuildSt} {F : Ntk} (hb : BuildInv N nPi T mff t b) {q : QueSt}
    {L : List Obj}
    (hq : TravInv N nPi t b.copy b.latches.length b.graph (seenAt N nPi t L) L q)
    {A : Obj → Prop} (hs : StoreInv nPi T t mff ⟨q.graph, b.latches, q.copy⟩ b'.lat A)
    (hF : Final T (t + 1) b' F) : Final T t b F := by
  refine ⟨(hq.suffix.trans hs.suffix).trans hF.suffix, fun {e r i} he hr hi => ?_⟩
  rw [hF.next he (by omega) (hi.trans_le hs.length), hs.old he hr.ne hi]
  exact hb.ok.next_of_suffix hq.suffix q.copy e i

theorem Runs.next (hN : N.Strashed) (ht : t < T) {b b' : BuildSt} {F : Ntk}
    (hb : BuildInv N nPi T mff t b) {q : QueSt} {L : List Obj}
    (hq : TravInv N nPi t b.copy b.latches.length b.graph (seenAt N nPi t L) L q)
    (hs : StoreInv nPi T t mff ⟨q.graph, b.latches, q.copy⟩ b'.lat
      (fun p => ∃ k, N.Waiting nPi (t + 1) k p))
    (hinfo : b'.poInfos = b.poInfos ++ [q.info]) (hF : Final T (t + 1) b' F)
    (h : Runs N nPi T t b F) : Runs N nPi T (t + 1) b' F := by
  have hmatch : ∀ {x e}, Round nPi T F x e → Matches N nPi t b.copy x (e t) :=
    fun hr => ⟨hr.pin t ht, fun hw hc => h.held hr hw hc⟩
  refine ⟨fun {x e} hr {k o j} hw hc => ?_, fun {x e} hr {r info} hi p hp => ?_⟩
  · obtain ⟨j', -, hj', hc', hload⟩ := hs.held ⟨k, hw⟩
    obtain rfl : j = j' := by
      change b'.copy o = _ at hc'
      rw [hc] at hc'
      simpa [Obj.lit] using hc'
    have he := hr.oneHot t ht
    rw [hr.next, hF.next he (Nat.lt_succ_self t) hj', hload _ he]
    exact hq.copies.sem (hq.done_live hN hw) (hmatch hr)
  · rw [hinfo] at hi
    rcases Nat.lt_or_ge r t with hlt | hge
    · rw [List.getElem?_append_left (by rw [hb.infos]; exact hlt)] at hi
      exact h.out hr hi p hp
    · rw [List.getElem?_append_right (by rw [hb.infos]; exact hge), hb.infos] at hi
      obtain ⟨h0, rfl⟩ : r - t = 0 ∧ q.info = info := by simpa [List.getElem?_singleton] using hi
      obtain rfl : r = t := by omega
      obtain ⟨hok, hsem⟩ := hq.out p hp
      rw [Graph.eval_of_suffix (hs.suffix.trans hF.suffix) _ hok.below]
      exact hsem (hmatch hr)

/-- The loop over the frames never fails, and the network it builds runs as required. -/
theorem buildFrames_spec (abc : AbcAig) (ord : HashOrder) (hN : N.Strashed) (hT : 1 ≤ T)
    (hci : N.nCi = nPi * T) (mff : Bool) (ht : t ≤ T) :
    ∃ b, buildFrames abc ord N T nPi mff t = some b ∧ BuildInv N nPi T mff t b ∧
      ∀ F, Final T t b F → Runs N nPi T t b F := by
  induction t with
  | zero =>
      exact ⟨_, rfl, buildInv_zero hT, fun F _ =>
        ⟨fun _ _ _ _ hw => absurd hw.frame_lt (Nat.not_lt_zero _), fun _ _ _ h => by simp at h⟩⟩
  | succ t ih =>
      obtain ⟨b, hrun, hb, hF⟩ := ih (Nat.le_of_succ_le ht)
      obtain ⟨b', q, L, hstep, hq, hs, hv, hinfo, -⟩ := hb.frameStep abc ord hN hci ht
      refine ⟨b', ?_, hb.next hN ht hq hs hv hinfo, fun F hF' =>
        Runs.next hN ht hb hq hs hinfo hF' (hF F (hF'.prev hb hq hs))⟩
      rw [buildFrames, hrun]
      exact hstep

end ExtFolding.TimeMux4
