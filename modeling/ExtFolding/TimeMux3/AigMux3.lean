import ExtFolding.Lib.Loop
import ExtFolding.TimeMux3.Ring

/-!
# The structural fold with stored inputs (`timeMux3/aigMux3.cpp`)

Next to the ring the folded network has one box for every input of the first
`nTimeFrame - 1` frames: box `nTimeFrame + t * nPi + i` loads pin `i` in the
cycles of frame `t` and keeps its value in all others. The boxes are never
reset, so a round starts with the inputs of the round before it in them; the
outputs are masked until the last frame, when all of them have been loaded
again.
-/

namespace ExtFolding.TimeMux3

open ExtFolding.Aig

/-- The folded network under construction: its nodes and its boxes. -/
structure MuxSt where
  graph : Graph
  latches : List Latch

/-- The body of the loops in `buildPiStorage`: `aigNewLatch` and its input
`Abc_AigMux(pCtrl, pPi, pLat)`. -/
def newPiLatch (abc : AbcAig) (t i : ℕ) (s : MuxSt) : MuxSt :=
  let r := abc.mux s.graph (Obj.bo t).lit (Obj.pi i).lit (Obj.bo s.latches.length).lit
  ⟨r.1, s.latches ++ [⟨.zero, r.2⟩]⟩

def buildPiStorage (abc : AbcAig) (nPi nTimeFrame : ℕ) (s : MuxSt) : MuxSt :=
  (List.range (nTimeFrame - 1)).foldl
    (fun s t => (List.range nPi).foldl (fun s i => newPiLatch abc t i s) s) s

/-- `pCopy` before the nodes are copied: inputs of earlier frames are boxes, those of the
last frame are pins. -/
def piCopy (nPi nTimeFrame : ℕ) : Obj → Lit
  | .pi i =>
      if i < (nTimeFrame - 1) * nPi then (Obj.bo (i + nTimeFrame)).lit
      else (Obj.pi (i - (nTimeFrame - 1) * nPi)).lit
  | _ => Obj.const1.lit

/-- `Abc_AigMux(pCtrl, pPoComb, pConst0)` for one output. -/
def muxPo (abc : AbcAig) (nTimeFrame : ℕ) (r : Graph × List Lit) (pPoComb : Lit) :
    Graph × List Lit :=
  let m := abc.mux r.1 (Obj.bo (nTimeFrame - 1)).lit pPoComb Obj.const1.lit.not
  (m.1, r.2 ++ [m.2])

def buildPoFuncs (abc : AbcAig) (pNtkComb : Ntk) (nPi nTimeFrame : ℕ) (graph : Graph) :
    Graph × List Lit :=
  let r := copyAnds abc pNtkComb.graph (piCopy nPi nTimeFrame) graph
  (pNtkComb.pos.map (childCopy r.2)).foldl (muxPo abc nTimeFrame) (r.1, [])

def aigStrMux (abc : AbcAig) (pNtk : Ntk) (nTimeFrame : ℕ) : Ntk :=
  let nPi := pNtk.nPi / nTimeFrame
  let s := buildPiStorage abc nPi nTimeFrame ⟨[], buildLatchTransWithTime nTimeFrame⟩
  let p := buildPoFuncs abc pNtk nPi nTimeFrame s.graph
  { nPi := nPi, graph := p.1, latches := s.latches, pos := p.2 }

variable {nPi T : ℕ}

/-! ## The boxes -/

/-- The network after `m` boxes have been added to the ring. -/
structure StorageInv (nPi T m : ℕ) (s : MuxSt) : Prop where
  graph : s.graph.Ok (Ntk.IsLeaf nPi (T + m))
  length : s.latches.length = T + m
  latches : ∀ l ∈ s.latches, l.input.obj.Ok (Ntk.IsLeaf nPi (T + m)) s.graph.length
  ring : HasRing T s.latches
  load : ∀ t, ∀ i < nPi, t * nPi + i < m → ∃ l, s.latches[T + (t * nPi + i)]? = some l ∧
    ∀ e, s.graph.eval e l.input = if e.bo t then e.pi i else e.bo (T + (t * nPi + i))

theorem buildLatchTransWithTime_length (T : ℕ) : (buildLatchTransWithTime T).length = T := by
  simp [buildLatchTransWithTime]

theorem buildLatchTransWithTime_ok {T : ℕ} {l : Latch} (h : l ∈ buildLatchTransWithTime T) :
    l.input.obj.Ok (Ntk.IsLeaf nPi T) 0 := by
  obtain ⟨i, hi, rfl⟩ := List.mem_map.mp h
  have hlt : i < T := List.mem_range.mp hi
  split
  · exact Nat.sub_lt (Nat.zero_lt_of_lt hlt) Nat.one_pos
  · exact Nat.lt_of_le_of_lt (Nat.sub_le i 1) hlt

theorem storageInv_zero (nPi T : ℕ) :
    StorageInv nPi T 0 ⟨[], buildLatchTransWithTime T⟩ where
  graph := trivial
  length := buildLatchTransWithTime_length T
  latches _ hl := buildLatchTransWithTime_ok hl
  ring _ _ := rfl
  load _ _ _ h := absurd h (Nat.not_lt_zero _)

theorem isLeaf_bo_mono (ni : ℕ) {n m : ℕ} (h : n ≤ m) (o : Obj) (ho : Ntk.IsLeaf ni n o) :
    Ntk.IsLeaf ni m o := by
  cases o with
  | bo i => exact Nat.lt_of_lt_of_le ho h
  | const1 => trivial
  | pi i => exact ho
  | node k => exact ho

theorem StorageInv.newPiLatch (abc : AbcAig) {t i : ℕ} {s : MuxSt}
    (h : StorageInv nPi T (t * nPi + i) s) (ht : t < T) (hi : i < nPi) :
    StorageInv nPi T (t * nPi + i + 1) (newPiLatch abc t i s) := by
  have hmono := isLeaf_bo_mono nPi (Nat.le_succ (T + (t * nPi + i)))
  have hmux := abc.mux_computes (P := Ntk.IsLeaf nPi (T + (t * nPi + i) + 1))
    (c := (Obj.bo t).lit) (t := (Obj.pi i).lit) (f := (Obj.bo s.latches.length).lit) trivial
    (h.graph.weaken hmono) (show t < T + (t * nPi + i) + 1 by omega) hi
    (show s.latches.length < _ by rw [h.length]; exact Nat.lt_succ_self _)
  refine ⟨hmux.ok, ?_, fun l hl => ?_, fun j hj => ?_, fun t' i' hi' hm => ?_⟩
  · simp [TimeMux3.newPiLatch, h.length, Nat.add_assoc]
  · rcases List.mem_append.mp hl with hl | hl
    · exact ((h.latches l hl).mono hmux.length_le).weaken hmono
    · obtain rfl := List.mem_singleton.mp hl
      exact hmux.lit
  · rw [TimeMux3.newPiLatch, List.getElem?_append_left (by rw [h.length]; omega)]
    exact h.ring j hj
  · rcases Nat.lt_succ_iff_lt_or_eq.mp hm with hlt | heq
    · obtain ⟨l, hl, hev⟩ := h.load t' i' hi' hlt
      refine ⟨l, ?_, fun e => ?_⟩
      · rw [TimeMux3.newPiLatch, List.getElem?_append_left (by rw [h.length]; omega), hl]
      · rw [← hev e]
        exact Graph.eval_of_suffix hmux.suffix e
          (h.latches l (List.mem_of_getElem? hl)).below
    · obtain ⟨rfl, rfl⟩ := frame_pin_inj hi' hi heq
      refine ⟨_, by rw [← h.length]; exact List.getElem?_concat_length, fun e => ?_⟩
      refine (hmux.eval e).trans ?_
      simp [Obj.lit, h.length]

theorem buildPiStorage_spec (abc : AbcAig) {s : MuxSt} (h : StorageInv nPi T 0 s) :
    StorageInv nPi T ((T - 1) * nPi) (buildPiStorage abc nPi T s) := by
  have hframe : ∀ {t : ℕ} {s : MuxSt}, t < T → StorageInv nPi T (t * nPi) s →
      ∀ n ≤ nPi, StorageInv nPi T (t * nPi + n)
        ((List.range n).foldl (fun s i => newPiLatch abc t i s) s) := by
    intro t s ht hs n hn
    induction n with
    | zero => exact hs
    | succ n ih =>
        rw [List.range_succ, List.foldl_append]
        exact (ih (Nat.le_of_succ_le hn)).newPiLatch abc ht hn
  have hall : ∀ n ≤ T - 1, StorageInv nPi T (n * nPi)
      ((List.range n).foldl
        (fun s t => (List.range nPi).foldl (fun s i => newPiLatch abc t i s) s) s) := by
    intro n hn
    induction n with
    | zero => simpa using h
    | succ n ih =>
        rw [List.range_succ, List.foldl_append, Nat.succ_mul]
        exact hframe (by omega) (ih (Nat.le_of_succ_le hn)) nPi le_rfl
  exact hall (T - 1) le_rfl

/-! ## The outputs -/

/-- The outputs added so far compute the masked functions of `ls`. -/
structure PoInv (P : Obj → Prop) (T : ℕ) (g : Graph) (ls : List Lit) (r : Graph × List Lit) :
    Prop where
  ok : r.1.Ok P
  suffix : g <:+ r.1
  length : r.2.length = ls.length
  lit : ∀ l ∈ r.2, l.obj.Ok P r.1.length
  eval : ∀ (o : ℕ) (p l : Lit), ls[o]? = some p → r.2[o]? = some l →
    ∀ e, r.1.eval e l = (e.bo (T - 1) && g.eval e p)

theorem PoInv.muxPo (abc : AbcAig) {P : Obj → Prop} {g : Graph} {ls : List Lit}
    {r : Graph × List Lit} (h : PoInv P T g ls r) (hc : P .const1) (hT : P (.bo (T - 1)))
    {p : Lit} (hp : p.obj.Ok P g.length) : PoInv P T g (ls ++ [p]) (muxPo abc T r p) := by
  have hmux := abc.mux_computes (c := (Obj.bo (T - 1)).lit) (t := p) (f := Obj.const1.lit.not)
    hc h.ok hT (hp.mono h.suffix.length_le) hc
  refine ⟨hmux.ok, h.suffix.trans hmux.suffix, ?_, fun l hl => ?_, fun o p' l hp' hl e => ?_⟩
  · simp [TimeMux3.muxPo, h.length]
  · rcases List.mem_append.mp hl with hl | hl
    · exact (h.lit l hl).mono hmux.length_le
    · obtain rfl := List.mem_singleton.mp hl
      exact hmux.lit
  · rcases Nat.lt_or_ge o ls.length with hlt | hge
    · rw [List.getElem?_append_left hlt] at hp'
      rw [TimeMux3.muxPo, List.getElem?_append_left (h.length ▸ hlt)] at hl
      rw [← h.eval o p' l hp' hl e]
      exact Graph.eval_of_suffix hmux.suffix e (h.lit l (List.mem_of_getElem? hl)).below
    · obtain rfl : o = ls.length := by
        have := (List.getElem?_eq_some_iff.mp hp').1
        simp at this
        exact Nat.le_antisymm this hge
      rw [List.getElem?_concat_length] at hp'
      rw [TimeMux3.muxPo, ← h.length, List.getElem?_concat_length] at hl
      cases hp'
      cases hl
      refine (hmux.eval e).trans ?_
      rw [Graph.eval_of_suffix h.suffix e hp.below]
      cases hb : e.bo (T - 1) <;> simp [Obj.lit, hb]

theorem foldl_muxPo (abc : AbcAig) {P : Obj → Prop} {g : Graph} (hg : g.Ok P) (hc : P .const1)
    (hT : P (.bo (T - 1))) (ls : List Lit) (hls : ∀ l ∈ ls, l.obj.Ok P g.length) :
    PoInv P T g ls (ls.foldl (muxPo abc T) (g, [])) := by
  refine foldl_inv (PoInv P T g) (fun pre a post r hl h => ?_)
    ⟨hg, List.suffix_refl g, rfl, by simp, by simp⟩
  exact h.muxPo abc hc hT (hls a (by simp [← hl]))

/-- The inputs of the circuit that a valuation of the folded network stands for. -/
def foldedInputs (nPi T : ℕ) (e : Env) (j : ℕ) : Bool :=
  if j < (T - 1) * nPi then e.bo (j + T) else e.pi (j - (T - 1) * nPi)

/-- The folded network, once its boxes are described. -/
structure Folded (N : Ntk) (nPi T : ℕ) (M : Ntk) : Prop where
  pins : M.nPi = nPi
  ok : M.Ok
  length : M.pos.length = N.pos.length
  ring : HasRing T M.latches
  load : ∀ t < T - 1, ∀ i < nPi, ∀ e,
    M.next e (T + (t * nPi + i)) = if e.bo t then e.pi i else e.bo (T + (t * nPi + i))
  out : ∀ (o : ℕ) (l : Lit), M.pos[o]? = some l → ∀ e,
    M.graph.eval e l = (e.bo (T - 1) && N.fn (foldedInputs nPi T e) o)

theorem aigStrMux_folded (abc : AbcAig) {N : Ntk} (hN : N.Ok) (hl : N.latches = [])
    (hT : 1 ≤ T) (hpi : N.nPi = nPi * T) : Folded N nPi T (aigStrMux abc N T) := by
  have hdiv : N.nPi / T = nPi := by rw [hpi]; exact Nat.mul_div_cancel nPi hT
  obtain ⟨s, hs⟩ : ∃ s, buildPiStorage abc nPi T ⟨[], buildLatchTransWithTime T⟩ = s := ⟨_, rfl⟩
  have hst := buildPiStorage_spec abc (storageInv_zero nPi T)
  rw [hs] at hst
  have hN' := hN.graph
  have hpos := hN.pos
  rw [hl] at hN' hpos
  have hnum : N.nPi = (T - 1) * nPi + nPi := by
    rw [hpi, ← Nat.succ_mul, Nat.succ_eq_add_one, Nat.sub_add_cancel hT, Nat.mul_comm]
  -- the copies of the leaves read the boxes and the pins
  obtain ⟨hsuf, hc⟩ := copyAnds_spec abc (d := s.graph) (piCopy nPi T)
    (fun e => ⟨foldedInputs nPi T e, fun _ => false⟩) hN' hst.graph trivial
    (by
      intro o ho
      cases o with
      | const1 => trivial
      | pi j =>
          have hj : j < N.nPi := ho
          by_cases h : j < (T - 1) * nPi
          · have hbox : j + T < T + (T - 1) * nPi := by omega
            simpa [piCopy, h, Obj.lit, Obj.Ok, Ntk.IsLeaf] using hbox
          · have hpin : j - (T - 1) * nPi < nPi := by omega
            simpa [piCopy, h, Obj.lit, Obj.Ok, Ntk.IsLeaf] using hpin
      | bo j => exact absurd ho (Nat.not_lt_zero j)
      | node k => exact absurd ho (Nat.not_lt_zero k))
    (by
      intro o ho e
      cases o with
      | const1 => simp [piCopy, Env.leaf, Obj.lit]
      | pi j => by_cases h : j < (T - 1) * nPi <;> simp [piCopy, foldedInputs, Env.leaf, Obj.lit, h]
      | bo j => exact absurd ho (Nat.not_lt_zero j)
      | node k => exact absurd ho (Nat.not_lt_zero k))
  obtain ⟨c, hcopy⟩ : ∃ c, copyAnds abc N.graph (piCopy nPi T) s.graph = c := ⟨_, rfl⟩
  rw [hcopy] at hsuf hc
  have hpo := foldl_muxPo abc (T := T) hc.ok trivial
    (show T - 1 < T + (T - 1) * nPi by omega) (N.pos.map (childCopy c.2)) (by
      intro l hl'
      obtain ⟨p, hp, rfl⟩ := List.mem_map.mp hl'
      exact hc.lit _ (hpos p hp))
  obtain ⟨p, hp⟩ : ∃ p, (N.pos.map (childCopy c.2)).foldl (muxPo abc T) (c.1, []) = p := ⟨_, rfl⟩
  rw [hp] at hpo
  have hM : aigStrMux abc N T = ⟨nPi, p.1, s.latches, p.2⟩ := by
    simp only [aigStrMux, hdiv, hs, buildPoFuncs, hcopy, hp]
  have hall := hsuf.trans hpo.suffix
  rw [hM]
  refine ⟨rfl, ⟨?_, fun l hl' => ?_, fun l hl' => ?_⟩, by simpa using hpo.length, hst.ring,
    fun t ht i hi e => ?_, fun o l ho e => ?_⟩
  · simpa only [hst.length] using hpo.ok
  · simpa only [hst.length] using (hst.latches l hl').mono hall.length_le
  · simpa only [hst.length] using hpo.lit l hl'
  · obtain ⟨l, hget, hev⟩ := hst.load t i hi (by nlinarith)
    rw [← hev e]
    simp only [Ntk.next, hget]
    exact Graph.eval_of_suffix hall e (hst.latches l (List.mem_of_getElem? hget)).below
  · have hlt : o < N.pos.length := by
      have hlt := (List.getElem?_eq_some_iff.mp ho).1
      rwa [hpo.length, List.length_map] at hlt
    have hget := List.getElem?_eq_getElem hlt
    rw [hpo.eval o (childCopy c.2 N.pos[o]) l (by simp [hget]) ho e,
      hc.child (hpos _ (List.getElem_mem hlt))]
    simp [Ntk.fn, hget]

/-! ## Rounds -/

/-- After `r` cycles of a round the boxes of the first `r` frames hold their inputs. -/
theorem Folded.boxes {N M : Ntk} (h : Folded N nPi T M) {s : ℕ → Bool} (hs : OneHot T 0 s)
    {x : ℕ → Bool} {inp : ℕ → ℕ → Bool}
    (hx : ∀ t < T, ∀ i < nPi, inp t i = x (t * nPi + i)) (r : ℕ) (hr : r < T) :
    ∀ t < r, ∀ i < nPi, M.stateAt s inp r (T + (t * nPi + i)) = x (t * nPi + i) := by
  induction r with
  | zero => exact fun t ht => absurd ht (Nat.not_lt_zero t)
  | succ r ih =>
      intro t ht i hi
      have hT : 1 ≤ T := Nat.one_le_of_lt hr
      have hone := h.ring.oneHot_stateAt hT hs inp r
      rw [Nat.mod_eq_of_lt (Nat.lt_of_succ_lt hr)] at hone
      rw [Ntk.stateAt_succ, h.load t (by omega) i hi]
      rcases Nat.lt_succ_iff_lt_or_eq.mp ht with hlt | rfl
      · -- an earlier frame: the box keeps what it has
        have hctrl : (M.envAt s inp r).bo t = false := hone.other (by omega) (Nat.ne_of_gt hlt)
        rw [hctrl]
        exact ih (Nat.lt_of_succ_lt hr) t hlt i hi
      · have hctrl : (M.envAt s inp t).bo t = true := hone.self (Nat.lt_of_succ_lt hr)
        rw [hctrl]
        exact hx t (Nat.lt_of_succ_lt hr) i hi

/-- One round, from any state in which the 1 of the ring is in box 0. -/
theorem Folded.round {N M : Ntk} (h : Folded N nPi T M) (hN : N.Ok) (hl : N.latches = [])
    (hT : 1 ≤ T) (hpi : N.nPi = nPi * T) {s : ℕ → Bool} (hs : OneHot T 0 s) {x : ℕ → Bool}
    {inp : ℕ → ℕ → Bool} (hx : ∀ t < T, ∀ i < nPi, inp t i = x (t * nPi + i)) {r o : ℕ}
    (hr : r < T) (ho : o < N.pos.length) :
    M.outAt s inp r o = if r + 1 = T then N.fn x o else false := by
  have hone := h.ring.oneHot_stateAt hT hs inp r
  rw [Nat.mod_eq_of_lt hr] at hone
  have hget := List.getElem?_eq_getElem (h.length ▸ ho : o < M.pos.length)
  simp only [Ntk.outAt, hget, h.out o _ hget]
  split
  · next heq =>
      subst heq
      have hctrl : (M.envAt s inp r).bo r = true := hone.self hr
      rw [Nat.add_sub_cancel, hctrl, Bool.true_and]
      refine hN.fn_congr hl (fun j hj => ?_) o
      have hw : 0 < nPi := by
        rw [hpi] at hj
        exact Nat.pos_of_mul_pos_right (Nat.zero_lt_of_lt hj)
      have hmod := Nat.mod_lt j hw
      have hsplit : j / nPi * nPi + j % nPi = j := Nat.div_add_mod' j nPi
      unfold foldedInputs
      rw [Nat.add_sub_cancel]
      split
      · next hlt =>
          have hbox := h.boxes hs hx r hr (j / nPi) (Nat.div_lt_of_lt_mul (by linarith)) _ hmod
          rwa [hsplit, Nat.add_comm] at hbox
      · next hge =>
          rw [hpi] at hj
          have hle := Nat.not_lt.mp hge
          have hpin : j - r * nPi < nPi := by
            rw [Nat.mul_succ, Nat.mul_comm] at hj
            exact Nat.sub_lt_left_of_lt_add hle hj
          rw [← Nat.add_sub_cancel' hle, ← hx r hr _ hpin, Nat.add_sub_cancel' hle]
          rfl
  · next hne =>
      have hctrl : (M.envAt s inp r).bo (T - 1) = false :=
        hone.other (Nat.sub_lt hT Nat.one_pos) (by omega)
      rw [hctrl, Bool.false_and]

/-- Every round computes the functions of its own input vector in its last cycle and is
silent before. -/
theorem aigStrMux_rounds (abc : AbcAig) {N : Ntk} (hN : N.Ok) (hl : N.latches = [])
    (hT : 1 ≤ T) (hpi : N.nPi = nPi * T) :
    (aigStrMux abc N T).Ok ∧ (aigStrMux abc N T).nPi = nPi ∧
      (aigStrMux abc N T).pos.length = N.pos.length ∧
      ∀ s, (aigStrMux abc N T).IsInit s → ∀ x inp : ℕ → ℕ → Bool,
        (∀ k, ∀ t < T, ∀ i < nPi, inp (k * T + t) i = x k (t * nPi + i)) →
        ∀ k, ∀ o < N.pos.length,
          (∀ t, t + 1 < T → (aigStrMux abc N T).outAt s inp (k * T + t) o = false) ∧
          (aigStrMux abc N T).outAt s inp (k * T + (T - 1)) o = N.fn (x k) o := by
  have h := aigStrMux_folded abc hN hl hT hpi
  refine ⟨h.ok, h.pins, h.length, fun s hs x inp hx k o ho => ?_⟩
  have hone := h.ring.oneHot_stateAt hT (h.ring.oneHot_init hs) inp (k * T)
  rw [Nat.mul_mod_left] at hone
  have hround := fun {r} hr => h.round hN hl hT hpi hone (r := r) (hx k) hr ho
  refine ⟨fun t ht => ?_, ?_⟩
  · rw [Ntk.outAt_add, hround (Nat.lt_of_succ_lt ht), if_neg (Nat.ne_of_lt ht)]
  · rw [Ntk.outAt_add, hround (Nat.sub_lt hT Nat.one_pos), if_pos (Nat.sub_add_cancel hT)]

/-- The conjunction of an input of frame 0 and one of frame 1. -/
def andNtk : Ntk where
  nPi := 2
  graph := [((Obj.pi 0).lit, (Obj.pi 1).lit)]
  latches := []
  pos := [(Obj.node 0).lit]

theorem aigStrMux_rounds_andNtk :
    (aigStrMux strash andNtk 2).nPi = 1 ∧
      ∀ s, (aigStrMux strash andNtk 2).IsInit s → ∀ (x : ℕ → ℕ → Bool) k,
        (aigStrMux strash andNtk 2).outAt s (fun c i => x (c / 2) (c % 2 + i)) (k * 2 + 1) 0 =
          (x k 0 && x k 1) := by
  have h := aigStrMux_rounds strash (N := andNtk)
    ⟨⟨Nat.zero_lt_two, Nat.one_lt_two, trivial⟩, by simp [andNtk], by simp [andNtk, Obj.Ok]⟩ rfl
      (by decide)
    (show andNtk.nPi = 1 * 2 from rfl)
  refine ⟨h.2.1, fun s hs x k => ?_⟩
  have hrun := h.2.2.2 s hs x (fun c i => x (c / 2) (c % 2 + i)) (by
    intro k t ht i hi
    have hdiv : (k * 2 + t) / 2 = k := by omega
    have hmod : (k * 2 + t) % 2 = t := by omega
    simp only [hdiv, hmod, Nat.mul_one]) k 0 (by decide)
  rw [hrun.2]
  simp [andNtk, Ntk.fn, Graph.eval, Graph.interp, Env.leaf, andOp]

end ExtFolding.TimeMux3
