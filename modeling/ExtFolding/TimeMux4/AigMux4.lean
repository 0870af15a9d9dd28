import ExtFolding.TimeMux2.Perm
import ExtFolding.TimeMux3.Ring

/-!
# `timeMux4/aigMux4.cpp`: structural folding

`processQue` walks the combinational network from the inputs of one frame,
building a node of the folded network as soon as both fanins of its original
have arrived. Nodes that still have waiting fanouts at the end of a frame are
moved to latches, by `storeInLats` or, with flip-flop sharing, by
`storeInLats2`. `vMap` maps a waiting node to the fanin that has arrived.

Pointers that ABC would dereference with the complement bit set, failing
assertions and an exhausted loop bound all yield `none`.
-/

namespace ExtFolding.TimeMux4

open ExtFolding.Uint ExtFolding.Aig ExtFolding.TimeMux2 ExtFolding.TimeMux3

/-- An entry of a fanout list. -/
inductive Fanout where
  | node (k : ℕ)
  | po (o : ℕ)
deriving DecidableEq, Repr

/-- A combinational network with its fanout lists in the order ABC iterates them. -/
structure CombNtk where
  nCi : ℕ
  graph : Graph
  pos : List Lit
  fanouts : Obj → List Fanout

/-- The function of output `o`. -/
def CombNtk.fn (N : CombNtk) (x : ℕ → Bool) (o : ℕ) : Bool :=
  match N.pos[o]? with
  | some l => N.graph.eval ⟨x, fun _ => false⟩ l
  | none => false

/-- Iteration orders of the hash containers, which may differ from frame to frame. -/
structure HashOrder where
  vMap : ℕ → List (ℕ × Obj) → List (ℕ × Obj)
  vSet : ℕ → List Obj → List Obj
  vMap_perm : ∀ t l, (vMap t l).Perm l
  vSet_perm : ∀ t l, (vSet t l).Perm l

/-! ## Traversal of one frame -/

/-- State of the traversal: the folded graph, `pCopy`, the queue (back first), `vMap`
and `poInfos[t]`. -/
structure QueSt where
  graph : Graph
  copy : Obj → Lit
  que : List Obj
  vMap : List (ℕ × Obj)
  info : List (ℕ × Lit)

def initQue (t nPi : ℕ) (graph : Graph) (copy : Obj → Lit) (vMap : List (ℕ × Obj)) : QueSt where
  graph := graph
  copy := (List.range nPi).foldl
    (fun c i => Function.update c (.pi (t * nPi + i)) (Obj.pi i).lit) copy
  que := ((List.range nPi).map fun i => Obj.pi (t * nPi + i)).reverse ++
    (if t = 0 then [.const1] else [])
  vMap := vMap
  info := []

/-- The body of `Abc_ObjForEachFanout(pObj, pFanout, i)` in `processQue`. -/
def visitFanout (abc : AbcAig) (N : CombNtk) (pObj : Obj) (s : QueSt) : Fanout → Option QueSt
  | .po o => some { s with
      info := s.info ++ [(o, childCopy s.copy (N.pos.getD o Obj.const1.lit))] }
  | .node k =>
      match s.vMap.lookup k with
      | none => some { s with vMap := (k, pObj) :: s.vMap }
      | some p =>
          -- assert(vMap[pFanout] != pObj)
          if p = pObj then none
          else
            match N.graph.fanins? k with
            | none => none
            | some (a, b) =>
                let r := abc.and s.graph (childCopy s.copy a) (childCopy s.copy b)
                some { s with
                  graph := r.1
                  copy := Function.update s.copy (.node k) r.2
                  que := .node k :: s.que
                  vMap := s.vMap.filter fun p => p.1 ≠ k }

/-- `while(!que.empty())`, with a bound on the number of rounds. -/
def processQue (abc : AbcAig) (N : CombNtk) : ℕ → QueSt → Option QueSt
  | fuel, s =>
      match s.que, fuel with
      | [], _ => some s
      | _ :: _, 0 => none
      | pObj :: que, fuel + 1 =>
          ((N.fanouts pObj).foldlM (visitFanout abc N pObj) { s with que := que }).bind
            (processQue abc N fuel)

/-! ## Moving waiting nodes to latches -/

/-- The folded network under construction, and `pCopy`. -/
structure LatSt where
  graph : Graph
  latches : List Latch
  copy : Obj → Lit

/-- `Abc_ObjIsBo`, undefined on a complemented pointer. -/
def isBo (l : Lit) : Option Bool :=
  if l.compl then none
  else match l.obj with
    | .bo _ => some true
    | _ => some false

/-- A new latch that loads the node when `ctrl` is 1 and keeps its value otherwise. -/
def newHoldLat (abc : AbcAig) (ctrl : Lit) (s : LatSt) (pObj : Obj) : LatSt :=
  let out := (Obj.bo s.latches.length).lit
  let r := abc.mux s.graph ctrl (s.copy pObj) out
  { graph := r.1, latches := s.latches ++ [⟨.zero, r.2⟩],
    copy := Function.update s.copy pObj out }

def storeInLats (abc : AbcAig) (ord : HashOrder) (t : ℕ) (vMap : List (ℕ × Obj)) (s : LatSt) :
    Option LatSt := do
  let vSet ← (ord.vMap t vMap).foldlM (fun (vSet : List Obj) p => do
    return if ← isBo (s.copy p.2) then vSet else vSet.insert p.2) []
  return (ord.vSet t vSet).foldl (newHoldLat abc (Obj.bo t).lit) s

/-- Rewrite the input of box `i` to `(ctrl AND v) OR input`. -/
def orLatIn (abc : AbcAig) (ctrl v : Lit) (i : ℕ) (s : LatSt) : LatSt :=
  let r₁ := abc.and s.graph ctrl v
  let r₂ := abc.or r₁.1 r₁.2 (s.latches.getD i ⟨.zero, Obj.const1.lit⟩).input
  { s with
    graph := r₂.1
    latches := s.latches.modify i fun l => { l with input := r₂.2 } }

/-- `storeInIthLat`: `none` stands for `return false`, the box is held. -/
def storeInIthLat (abc : AbcAig) (held : List ℕ) (ctrl : Lit) (i : ℕ) (pObj : Obj) (s : LatSt) :
    Option LatSt :=
  if i < s.latches.length then
    if i ∈ held then none
    else
      let s' := orLatIn abc ctrl (s.copy pObj) i s
      some { s' with copy := Function.update s.copy pObj (Obj.bo i).lit }
  else
    let r := abc.and s.graph ctrl (s.copy pObj)
    some { graph := r.1, latches := s.latches ++ [⟨.zero, r.2⟩],
           copy := Function.update s.copy pObj (Obj.bo s.latches.length).lit }

/-- `while(!storeInIthLat(pNtkMux, i++, pObj, pCtrl));` -/
def storeWhile (abc : AbcAig) (held : List ℕ) (ctrl : Lit) (pObj : Obj) (s : LatSt) :
    ℕ → ℕ → Option (LatSt × ℕ)
  | 0, _ => none
  | fuel + 1, i =>
      match storeInIthLat abc held ctrl i pObj s with
      | some s' => some (s', i + 1)
      | none => storeWhile abc held ctrl pObj s fuel (i + 1)

/-- The loop over `vMap` in `storeInLats2`: boxes in use are marked and made to hold
their value, the other nodes are collected. -/
def holdStep (abc : AbcAig) (ctrl : Lit) (acc : LatSt × List ℕ × List Obj) (p : ℕ × Obj) :
    Option (LatSt × List ℕ × List Obj) := do
  let (s, held, vSet) := acc
  if ← isBo (s.copy p.2) then
    match (s.copy p.2).obj with
    | .bo j => return (orLatIn abc ctrl (s.copy p.2) j s, j :: held, vSet)
    | _ => none
  else return (s, held, vSet.insert p.2)

def storeInLats2 (abc : AbcAig) (ord : HashOrder) (t nTimeFrame : ℕ) (vMap : List (ℕ × Obj))
    (s : LatSt) : Option LatSt := do
  let ctrl := (Obj.bo t).lit
  let (s₁, held, vSet) ← (ord.vMap t vMap).foldlM (holdStep abc ctrl) (s, [], [])
  let (s₂, _) ← (ord.vSet t vSet).foldlM
    (fun (acc : LatSt × ℕ) pObj =>
      storeWhile abc held ctrl pObj acc.1 (acc.1.latches.length + 1) acc.2)
    (s₁, nTimeFrame)
  return s₂

/-- `if(mff) storeInLats2(..); else storeInLats(..);` -/
def storeFrame (abc : AbcAig) (ord : HashOrder) (mff : Bool) (t nTimeFrame : ℕ)
    (vMap : List (ℕ × Obj)) (s : LatSt) : Option LatSt :=
  if mff then storeInLats2 abc ord t nTimeFrame vMap s else storeInLats abc ord t vMap s

/-! ## The frames -/

/-- State between two frames. -/
structure BuildSt where
  graph : Graph
  latches : List Latch
  copy : Obj → Lit
  vMap : List (ℕ × Obj)
  poInfos : List (List (ℕ × Lit))

/-- One round of the loop over the frames in `buildTM`. -/
def frameStep (abc : AbcAig) (ord : HashOrder) (N : CombNtk) (nTimeFrame nPi : ℕ) (mff : Bool)
    (t : ℕ) (b : BuildSt) : Option BuildSt := do
  let q ← processQue abc N (nPi + 1 + N.graph.length) (initQue t nPi b.graph b.copy b.vMap)
  let s' ← storeFrame abc ord mff t nTimeFrame q.vMap ⟨q.graph, b.latches, q.copy⟩
  return ⟨s'.graph, s'.latches, s'.copy, q.vMap, b.poInfos ++ [q.info]⟩

/-- The state after `t` frames. -/
def buildFrames (abc : AbcAig) (ord : HashOrder) (N : CombNtk) (nTimeFrame nPi : ℕ)
    (mff : Bool) : ℕ → Option BuildSt
  | 0 => some ⟨[], buildLatchTransWithTime nTimeFrame, fun _ => Obj.const1.lit, [], []⟩
  | t + 1 => (buildFrames abc ord N nTimeFrame nPi mff t).bind
      (frameStep abc ord N nTimeFrame nPi mff t)

/-! ## Outputs -/

def getPoNum (poInfos : List (List (ℕ × Lit))) : ℕ :=
  poInfos.foldl (fun n info => max n info.length) 0

def sortInfo (info : List (ℕ × Lit)) : List (ℕ × Lit) :=
  info.mergeSort fun a b => decide (a.1 ≤ b.1)

/-- The accumulators of `buildPoFuncs`. -/
structure PoSt where
  graph : Graph
  poVec : List Lit
  oPerm : List ℤ

/-- `poVec[i] |= ctrl & func; oPerm[po] = t * nPo + i`: an unsigned number in an `int`. -/
def poStep (abc : AbcAig) (nPo t : ℕ) (s : PoSt) (p : (ℕ × Lit) × ℕ) : PoSt :=
  let r₁ := abc.and s.graph (Obj.bo t).lit p.1.2
  let r₂ := abc.or r₁.1 (s.poVec.getD p.2 Obj.const1.lit) r₁.2
  { graph := r₂.1
    poVec := s.poVec.set p.2 r₂.2
    oPerm := s.oPerm.set p.1.1 (toInt (t * nPo + p.2)) }

def buildPoFuncs (abc : AbcAig) (poInfos : List (List (ℕ × Lit))) (graph : Graph)
    (oPerm : List ℤ) : PoSt :=
  let nPo := getPoNum poInfos
  poInfos.zipIdx.foldl (fun s info => (sortInfo info.1).zipIdx.foldl (poStep abc nPo info.2) s)
    ⟨graph, List.replicate nPo ⟨.const1, true⟩, oPerm⟩

/-- `aigStrMux`: the folded network and `oPerm`, which holds indices once it has passed its
check. -/
def aigStrMux (abc : AbcAig) (ord : HashOrder) (N : CombNtk) (nTimeFrame : ℕ) (oPerm : List ℤ)
    (mff : Bool) : Option (Ntk × List ℕ) := do
  let nPi := N.nCi / nTimeFrame
  let b ← buildFrames abc ord N nTimeFrame nPi mff nTimeFrame
  let p := buildPoFuncs abc b.poInfos b.graph oPerm
  if checkPerm p.oPerm (p.poVec.length * nTimeFrame % 2 ^ 32) then
    return (⟨nPi, p.graph, b.latches, p.poVec⟩, p.oPerm.map Int.toNat)
  else none

end ExtFolding.TimeMux4
