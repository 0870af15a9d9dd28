import ExtFolding.Lib.Loop
import ExtFolding.TimeMux4.Queue

/-!
# Moving waiting nodes to latches

Both `storeInLats` and `storeInLats2` change one box at a time (`BoxSet`). What
they preserve is `StoreInv`: in the cycles of the other frames no box changes its
behaviour, and in a cycle of frame `t` the box of a stored object loads the value
of that object.
-/

namespace ExtFolding.TimeMux4

open ExtFolding.Aig ExtFolding.TimeMux2 ExtFolding.TimeMux3

/-! ## One box -/

/-- The value that box `i` loads. -/
def LatSt.next (s : LatSt) (e : Env) (i : ℕ) : Bool :=
  match s.latches[i]? with
  | some l => s.graph.eval e l.input
  | none => false

structure LatSt.Ok (s : LatSt) (nPi : ℕ) : Prop where
  graph : s.graph.Ok (Ntk.IsLeaf nPi s.latches.length)
  latches : ∀ l ∈ s.latches, l.input.obj.Ok (Ntk.IsLeaf nPi s.latches.length) s.graph.length

/-- `s'` is `s` with the input of box `i`, possibly a new one, replaced by a literal
that computes `f`. -/
structure BoxSet (nPi : ℕ) (s s' : LatSt) (i : ℕ) (f : Env → Bool) : Prop where
  ok : s'.Ok nPi
  suffix : s.graph <:+ s'.graph
  length : s'.latches.length = max s.latches.length (i + 1)
  get : ∀ j, j ≠ i → s'.latches[j]? = s.latches[j]?
  self : ∀ e, s'.next e i = f e

variable {nPi T t nl : ℕ} {mff : Bool}

theorem BoxSet.next_other {s s' : LatSt} {i : ℕ} {f : Env → Bool} (h : BoxSet nPi s s' i f)
    (hs : s.Ok nPi) {j : ℕ} (hj : j ≠ i) (e : Env) : s'.next e j = s.next e j := by
  unfold LatSt.next
  rw [h.get j hj]
  cases hl : s.latches[j]? with
  | none => rfl
  | some l =>
      exact Graph.eval_of_suffix h.suffix e (hs.latches l (List.mem_of_getElem? hl)).below

/-- A new box whose input is built over the old boxes and the new output. -/
theorem boxSet_append {s : LatSt} (hs : s.Ok nPi) {r : Graph × Lit} {f : Env → Bool}
    (h : s.graph.Computes (Ntk.IsLeaf nPi (s.latches.length + 1)) r f) (copy : Obj → Lit) :
    BoxSet nPi s { graph := r.1, latches := s.latches ++ [⟨.zero, r.2⟩], copy := copy }
      s.latches.length f := by
  refine ⟨⟨?_, ?_⟩, h.suffix, by simp, fun j hj => ?_, fun e => ?_⟩
  · simpa using h.ok
  · intro l hl
    simp only [List.length_append, List.length_singleton]
    rcases List.mem_append.mp hl with hl | hl
    · exact ((hs.latches l hl).mono h.length_le).weaken (Ntk.isLeaf_mono le_rfl (Nat.le_succ _))
    · obtain rfl : l = ⟨.zero, r.2⟩ := by simpa using hl
      exact h.lit
  · rcases Nat.lt_or_gt_of_ne hj with hlt | hgt
    · exact List.getElem?_append_left hlt
    · rw [List.getElem?_eq_none (by simpa using hgt), List.getElem?_eq_none hgt.le]
  · simp [LatSt.next, h.eval]

theorem newHoldLat_boxSet (abc : AbcAig) (pObj : Obj) {s : LatSt} (hs : s.Ok nPi)
    (ht : t < s.latches.length)
    (hp : (s.copy pObj).obj.Ok (Ntk.IsLeaf nPi s.latches.length) s.graph.length) :
    BoxSet nPi s (newHoldLat abc (Obj.bo t).lit s pObj) s.latches.length
      fun e => if e.bo t then s.graph.eval e (s.copy pObj) else e.bo s.latches.length := by
  have hmono : ∀ o, Ntk.IsLeaf nPi s.latches.length o → Ntk.IsLeaf nPi (s.latches.length + 1) o :=
    Ntk.isLeaf_mono le_rfl (Nat.le_succ _)
  have hmux := abc.mux_computes (P := Ntk.IsLeaf nPi (s.latches.length + 1))
    (c := (Obj.bo t).lit) (t := s.copy pObj) (f := (Obj.bo s.latches.length).lit) trivial
    (hs.graph.weaken hmono) (Nat.lt_succ_of_lt ht) (hp.weaken hmono) (Nat.lt_succ_self _)
  simpa [newHoldLat, Obj.lit] using boxSet_append hs hmux
    (Function.update s.copy pObj (Obj.bo s.latches.length).lit)

theorem orLatIn_boxSet (abc : AbcAig) {s : LatSt} (hs : s.Ok nPi) {v : Lit} {i : ℕ}
    (ht : t < s.latches.length) (hi : i < s.latches.length)
    (hv : v.obj.Ok (Ntk.IsLeaf nPi s.latches.length) s.graph.length) :
    BoxSet nPi s (orLatIn abc (Obj.bo t).lit v i s) i
      fun e => (e.bo t && s.graph.eval e v) || s.next e i := by
  have hand := abc.and_computes (P := Ntk.IsLeaf nPi s.latches.length) (a := (Obj.bo t).lit)
    (b := v) trivial hs.graph ht hv
  have hget : s.latches[i]? = some s.latches[i] := List.getElem?_eq_getElem hi
  have hin := hs.latches s.latches[i] (List.getElem_mem hi)
  have hor := abc.or_computes (P := Ntk.IsLeaf nPi s.latches.length) trivial hand.ok hand.lit
    (hin.mono hand.length_le)
  have hdef : (s.latches.getD i ⟨.zero, Obj.const1.lit⟩).input = s.latches[i].input := by
    simp [List.getD, hget]
  obtain ⟨r, hr⟩ : ∃ r, abc.or (abc.and s.graph (Obj.bo t).lit v).1
    (abc.and s.graph (Obj.bo t).lit v).2 s.latches[i].input = r := ⟨_, rfl⟩
  have heq : orLatIn abc (Obj.bo t).lit v i s = { s with
      graph := r.1
      latches := s.latches.modify i fun l => { l with input := r.2 } } := by
    rw [orLatIn, hdef, ← hr]
  rw [hr] at hor
  rw [heq]
  have hsuf := hand.suffix.trans hor.suffix
  refine ⟨⟨?_, ?_⟩, hsuf, ?_, fun j hj => ?_, fun e => ?_⟩
  · simpa using hor.ok
  · intro l hl
    simp only [List.length_modify] at hl ⊢
    obtain ⟨j, hj⟩ := List.getElem?_of_mem hl
    rw [List.getElem?_modify] at hj
    obtain ⟨l', hl', rfl⟩ := Option.map_eq_some_iff.mp hj
    split
    · exact hor.lit
    · exact (hs.latches l' (List.mem_of_getElem? hl')).mono hsuf.length_le
  · simp only [List.length_modify]
    omega
  · simp [hj.symm]
  · have hnext : s.next e i = s.graph.eval e s.latches[i].input := by simp [LatSt.next, hget]
    have hself : (s.latches.modify i fun l => { l with input := r.2 })[i]? =
        some { s.latches[i] with input := r.2 } := by simp [hget]
    rw [LatSt.next, hself, hnext]
    simp only [hor.eval, hand.eval, Graph.eval_of_suffix hand.suffix e hin.below]
    simp [Obj.lit]

/-! ## The invariant of storing -/

/-- What a data box does in a cycle of a frame that does not concern it. -/
def idleNext (mff : Bool) (e : Env) (i : ℕ) : Bool := if mff then false else e.bo i

/-- `s₀` is the state before frame `t` stores anything, `A` the objects stored so far. -/
structure StoreInv (nPi T t : ℕ) (mff : Bool) (s₀ s : LatSt) (A : Obj → Prop) : Prop where
  ok : s.Ok nPi
  suffix : s₀.graph <:+ s.graph
  length : s₀.latches.length ≤ s.latches.length
  ring : ∀ i < T, s.latches[i]? = s₀.latches[i]?
  old : ∀ {e r i}, OneHot T r e.bo → r ≠ t → i < s₀.latches.length → s.next e i = s₀.next e i
  fresh : ∀ {e r i}, OneHot T r e.bo → r ≠ t → s₀.latches.length ≤ i →
    i < s.latches.length → s.next e i = idleNext mff e i
  held : ∀ {p}, A p → ∃ j, T ≤ j ∧ j < s.latches.length ∧ s.copy p = (Obj.bo j).lit ∧
    ∀ e, OneHot T t e.bo → s.next e j = s₀.graph.eval e (s₀.copy p)
  inj : ∀ {p p'}, A p → A p' → s.copy p = s.copy p' → p = p'
  other : ∀ {o}, ¬ A o → s.copy o = s₀.copy o

section Assign

variable {s₀ s s' : LatSt} {A : Obj → Prop} {p : Obj} {i : ℕ} {f : Env → Bool}

/-- Moving one more object to a box that holds none. -/
theorem StoreInv.assign (h : StoreInv nPi T t mff s₀ s A) (hp : ¬ A p)
    (hb : BoxSet nPi s s' i f) (hi : T ≤ i) (hil : i ≤ s.latches.length)
    (hfree : ∀ p', A p' → s.copy p' ≠ (Obj.bo i).lit)
    (hcopy : s'.copy = Function.update s.copy p (Obj.bo i).lit)
    (hload : ∀ e, OneHot T t e.bo → f e = s₀.graph.eval e (s₀.copy p))
    (hidle : ∀ {e r}, OneHot T r e.bo → r ≠ t →
      f e = if i < s.latches.length then s.next e i else idleNext mff e i) :
    StoreInv nPi T t mff s₀ s' fun o => A o ∨ o = p := by
  have hlen : s.latches.length ≤ s'.latches.length := by rw [hb.length]; exact le_max_left _ _
  have hne : ∀ {p'}, A p' → p' ≠ p := fun hA heq => hp (heq ▸ hA)
  refine ⟨hb.ok, h.suffix.trans hb.suffix, h.length.trans hlen, fun j hj => ?_,
    fun {e r j} he hr hj => ?_, fun {e r j} he hr hj hj' => ?_, fun {p'} hA => ?_,
    fun {p' p''} hA hA' heq => ?_, fun {o} ho => ?_⟩
  · rw [hb.get j (by omega), h.ring j hj]
  · by_cases hji : j = i
    · subst hji
      rw [hb.self, hidle he hr, if_pos (Nat.lt_of_lt_of_le hj h.length), h.old he hr hj]
    · rw [hb.next_other h.ok hji, h.old he hr hj]
  · by_cases hji : j = i
    · subst hji
      rw [hb.self, hidle he hr]
      split
      · next hlt => exact h.fresh he hr hj hlt
      · rfl
    · rw [hb.next_other h.ok hji]
      refine h.fresh he hr hj ?_
      rw [hb.length] at hj'
      omega
  · rcases hA with hA | rfl
    · obtain ⟨j, hj, hj', hc, hn⟩ := h.held hA
      have hji : j ≠ i := fun heq => hfree p' hA (heq ▸ hc)
      refine ⟨j, hj, hj'.trans_le hlen, ?_, fun e he => ?_⟩
      · rw [hcopy, Function.update_of_ne (hne hA), hc]
      · rw [hb.next_other h.ok hji, hn e he]
    · refine ⟨i, hi, ?_, by rw [hcopy, Function.update_self], fun e he => ?_⟩
      · rw [hb.length]
        omega
      · rw [hb.self, hload e he]
  · rw [hcopy] at heq
    rcases hA with hA | rfl <;> rcases hA' with hA' | rfl
    · rw [Function.update_of_ne (hne hA), Function.update_of_ne (hne hA')] at heq
      exact h.inj hA hA' heq
    · rw [Function.update_of_ne (hne hA), Function.update_self] at heq
      exact absurd heq (hfree p' hA)
    · rw [Function.update_self, Function.update_of_ne (hne hA')] at heq
      exact absurd heq.symm (hfree p'' hA')
    · rfl
  · rw [not_or] at ho
    rw [hcopy, Function.update_of_ne ho.2, h.other ho.1]

/-- The box of a stored object is an existing one. -/
theorem StoreInv.lt_of_copy (h : StoreInv nPi T t mff s₀ s A) {p' : Obj} (hA : A p')
    (hc : s.copy p' = (Obj.bo i).lit) : i < s.latches.length := by
  obtain ⟨j, -, hj, hc', -⟩ := h.held hA
  rw [hc'] at hc
  cases hc
  exact hj

/-- An object that is not yet stored still has its old copy. -/
theorem StoreInv.lit (h : StoreInv nPi T t mff s₀ s A) (hp : ¬ A p)
    (hlit : (s₀.copy p).obj.Ok (Ntk.IsLeaf nPi s₀.latches.length) s₀.graph.length) :
    (s.copy p).obj.Ok (Ntk.IsLeaf nPi s.latches.length) s.graph.length := by
  rw [h.other hp]
  exact (hlit.mono h.suffix.length_le).weaken (Ntk.isLeaf_mono le_rfl h.length)

theorem StoreInv.eval (h : StoreInv nPi T t mff s₀ s A) (hp : ¬ A p)
    (hlit : (s₀.copy p).obj.Ok (Ntk.IsLeaf nPi s₀.latches.length) s₀.graph.length) (e : Env) :
    s.graph.eval e (s.copy p) = s₀.graph.eval e (s₀.copy p) := by
  rw [h.other hp, Graph.eval_of_suffix h.suffix e hlit.below]

end Assign

/-! ## Counting boxes -/

/-- The box that an uncomplemented literal stands for. -/
def boxOf : Lit → ℕ
  | ⟨.bo j, _⟩ => j
  | _ => 0

@[simp] theorem boxOf_bo (j : ℕ) : boxOf (Obj.bo j).lit = j := rfl

section Count

variable {s₀ s : LatSt} {A : Obj → Prop} {W : Finset Obj}

/-- The stored objects have boxes of their own behind the ring. -/
theorem StoreInv.card_le (h : StoreInv nPi T t mff s₀ s A) (hW : ∀ p, p ∈ W ↔ A p)
    (hT : T ≤ s.latches.length) : T + W.card ≤ s.latches.length := by
  have hcard : W.card ≤ (Finset.Ico T s.latches.length).card := by
    refine Finset.card_le_card_of_injOn (fun p => boxOf (s.copy p)) (fun p hp => ?_)
      fun p hp p' hp' heq => ?_
    · obtain ⟨j, hj, hj', hc, -⟩ := h.held ((hW p).mp hp)
      simp [hc, hj, hj']
    · obtain ⟨j, -, -, hc, -⟩ := h.held ((hW p).mp hp)
      obtain ⟨j', -, -, hc', -⟩ := h.held ((hW p').mp hp')
      obtain rfl : j = j' := by simpa [hc, hc'] using heq
      exact h.inj ((hW p).mp hp) ((hW p').mp hp') (hc.trans hc'.symm)
  rw [Nat.card_Ico] at hcard
  omega

/-- If every box of an interval is in use, there are no more boxes in it than objects. -/
theorem le_card_of_full {copy : Obj → Lit} {n : ℕ} (hW : ∀ p, p ∈ W ↔ A p)
    (hfull : ∀ j, T ≤ j → j < n → ∃ p, A p ∧ copy p = (Obj.bo j).lit) : n ≤ T + W.card := by
  have hcard : (Finset.Ico T n).card ≤ W.card := by
    refine Finset.card_le_card_of_surjOn (fun p => boxOf (copy p)) fun j hj => ?_
    obtain ⟨hj, hj'⟩ := Finset.mem_Ico.mp hj
    obtain ⟨p, hp, hc⟩ := hfull j hj hj'
    exact ⟨p, (hW p).mpr hp, by simp [hc]⟩
  rw [Nat.card_Ico] at hcard
  omega

end Count

/-- The loop of `storeInLats` that opens a box for each object. -/
theorem storeInv_newHoldLats (abc : AbcAig) (ht : t < T) {s₀ s : LatSt} {A : Obj → Prop}
    (hT : T ≤ s₀.latches.length) (h : StoreInv nPi T t false s₀ s A) {ps : List Obj}
    (hps : ps.Nodup) (hA : ∀ p ∈ ps, ¬ A p)
    (hlit : ∀ p ∈ ps,
      (s₀.copy p).obj.Ok (Ntk.IsLeaf nPi s₀.latches.length) s₀.graph.length) :
    StoreInv nPi T t false s₀ (ps.foldl (newHoldLat abc (Obj.bo t).lit) s)
      fun o => A o ∨ o ∈ ps := by
  induction ps generalizing s A with
  | nil => simpa using h
  | cons p ps ih =>
      obtain ⟨hnot, hps⟩ := List.nodup_cons.mp hps
      have hp : ¬ A p := hA p List.mem_cons_self
      have hlitp := hlit p List.mem_cons_self
      have hlen := h.length
      have hb := newHoldLat_boxSet abc p (t := t) h.ok (by omega) (h.lit hp hlitp)
      have h₁ := h.assign hp hb (by omega) le_rfl
        (fun p' hA' hc => absurd (h.lt_of_copy hA' hc) (lt_irrefl _)) rfl
        (fun e he => by rw [if_pos (he.self ht), h.eval hp hlitp])
        (fun {e r} he hr => by simp [he.other ht hr, idleNext])
      have hA₁ : ∀ p' ∈ ps, ¬ (A p' ∨ p' = p) := by
        rintro p' hp' (hA' | rfl)
        · exact hA p' (List.mem_cons_of_mem _ hp') hA'
        · exact hnot hp'
      have h₂ := ih h₁ hps hA₁ fun p' hp' => hlit p' (List.mem_cons_of_mem _ hp')
      rw [List.foldl_cons]
      convert h₂ using 2 with o
      simp only [List.mem_cons]
      tauto

theorem length_newHoldLats (abc : AbcAig) (ctrl : Lit) (ps : List Obj) (s : LatSt) :
    (ps.foldl (newHoldLat abc ctrl) s).latches.length = s.latches.length + ps.length := by
  induction ps generalizing s with
  | nil => rfl
  | cons p ps ih =>
      rw [List.foldl_cons, ih, List.length_cons]
      simp only [newHoldLat, List.length_append, List.length_singleton]
      omega

/-! ## The two variants -/

theorem isBo_bo (j : ℕ) : isBo (Obj.bo j).lit = some true := rfl

theorem isBo_of_ne {l : Lit} (hc : l.compl = false) (h : ∀ j, l ≠ (Obj.bo j).lit) :
    isBo l = some false := by
  obtain ⟨o, c⟩ := l
  cases hc
  cases o with
  | bo j => exact absurd rfl (h j)
  | const1 => rfl
  | pi i => rfl
  | node k => rfl

/-- The situation after the traversal of frame `t`: `s` is ready to store the values of `vMap`. -/
structure Ready (nPi T t : ℕ) (mff : Bool) (vMap : List (ℕ × Obj)) (s : LatSt) : Prop where
  ok : s.Ok nPi
  length : T ≤ s.latches.length
  lit : ∀ x ∈ vMap, (s.copy x.2).obj.Ok (Ntk.IsLeaf nPi s.latches.length) s.graph.length
  compl : ∀ x ∈ vMap, (s.copy x.2).compl = false
  inj : ∀ x ∈ vMap, ∀ y ∈ vMap, s.copy x.2 = s.copy y.2 → x.2 = y.2
  ring : ∀ x ∈ vMap, ∀ j, s.copy x.2 = (Obj.bo j).lit → T ≤ j
  idle : ∀ {e i}, OneHot T t e.bo → T ≤ i → i < s.latches.length → s.next e i = idleNext mff e i

/-- `p` is a value of `vMap` and already has a box. -/
def InBox (vMap : List (ℕ × Obj)) (copy : Obj → Lit) (p : Obj) : Prop :=
  (∃ k, (k, p) ∈ vMap) ∧ ∃ j, copy p = (Obj.bo j).lit

theorem Ready.lt_of_copy {vMap : List (ℕ × Obj)} {s : LatSt} (h : Ready nPi T t mff vMap s)
    {x : ℕ × Obj} (hx : x ∈ vMap) {j : ℕ} (hc : s.copy x.2 = (Obj.bo j).lit) :
    j < s.latches.length := by
  have := h.lit x hx
  rwa [hc] at this

theorem StoreInv.congr {s₀ s : LatSt} {A A' : Obj → Prop} (h : StoreInv nPi T t mff s₀ s A)
    (hA : ∀ o, A o ↔ A' o) : StoreInv nPi T t mff s₀ s A' := by
  have : A = A' := funext fun o => propext (hA o)
  exact this ▸ h

/-- Without sharing, the boxes in use hold their values by themselves. -/
theorem Ready.storeInv {vMap : List (ℕ × Obj)} {s : LatSt} (h : Ready nPi T t false vMap s) :
    StoreInv nPi T t false s s (InBox vMap s.copy) := by
  refine ⟨h.ok, List.suffix_refl _, le_rfl, fun _ _ => rfl, fun _ _ _ => rfl,
    fun _ _ hi hi' => absurd hi' (Nat.not_lt.mpr hi), ?_, ?_, fun _ => rfl⟩
  · rintro p ⟨⟨k, hk⟩, j, hj⟩
    have hT := h.ring _ hk j hj
    have hlt := h.lt_of_copy hk hj
    refine ⟨j, hT, hlt, hj, fun e he => ?_⟩
    rw [h.idle he hT hlt, hj]
    simp [idleNext, Obj.lit]
  · rintro p p' ⟨⟨k, hk⟩, -⟩ ⟨⟨k', hk'⟩, -⟩ heq
    exact h.inj _ hk _ hk' heq

theorem storeInLats_spec (abc : AbcAig) (ord : HashOrder) (ht : t < T)
    {vMap : List (ℕ × Obj)} {s : LatSt} (h : Ready nPi T t false vMap s) :
    ∃ s', storeInLats abc ord t vMap s = some s' ∧
      (StoreInv nPi T t false s s' fun p => ∃ k, (k, p) ∈ vMap) ∧
      ∀ W : Finset Obj, (∀ p, p ∈ W ↔ (∃ k, (k, p) ∈ vMap) ∧ ∀ j, s.copy p ≠ (Obj.bo j).lit) →
        s'.latches.length = s.latches.length + W.card := by
  have hperm := ord.vMap_perm t vMap
  obtain ⟨vSet, hfold, hnodup, hmem⟩ := foldlM_some
    (f := fun (vSet : List Obj) (p : ℕ × Obj) => do
      return if ← isBo (s.copy p.2) then vSet else vSet.insert p.2)
    (I := fun pre vSet => vSet.Nodup ∧
      ∀ p, p ∈ vSet ↔ (∃ k, (k, p) ∈ pre) ∧ ∀ j, s.copy p ≠ (Obj.bo j).lit)
    (l := ord.vMap t vMap) (b := []) (by
      rintro pre ⟨k, p⟩ post vSet hl ⟨hnd, hmem⟩
      have hx : (k, p) ∈ vMap := hperm.mem_iff.mp (by simp [← hl])
      by_cases hbo : ∃ j, s.copy p = (Obj.bo j).lit
      · obtain ⟨j, hj⟩ := hbo
        refine ⟨vSet, by simp [hj, isBo_bo], hnd, fun p' => ?_⟩
        rw [hmem]
        grind
      · push Not at hbo
        refine ⟨vSet.insert p, by simp [isBo_of_ne (h.compl _ hx) hbo],
          hnd.insert, fun p' => ?_⟩
        rw [List.mem_insert_iff, hmem]
        grind) (by simp)
  simp only [hperm.mem_iff] at hmem
  have hperm' := ord.vSet_perm t vSet
  have hstore := storeInv_newHoldLats abc ht h.length h.storeInv
    (show (ord.vSet t vSet).Nodup from hperm'.nodup_iff.mpr hnodup)
    (fun p hp hA => by
      obtain ⟨-, hne⟩ := (hmem p).mp (hperm'.mem_iff.mp hp)
      obtain ⟨-, j, hj⟩ := hA
      exact hne j hj)
    (fun p hp => by
      obtain ⟨⟨k, hk⟩, -⟩ := (hmem p).mp (hperm'.mem_iff.mp hp)
      exact h.lit _ hk)
  refine ⟨_, by rw [storeInLats, hfold]; rfl, hstore.congr fun p => ?_, fun W hW => ?_⟩
  · rw [hperm'.mem_iff, hmem, InBox]
    constructor
    · rintro (⟨hp, -⟩ | ⟨hp, -⟩) <;> exact hp
    · intro hp
      by_cases hbo : ∃ j, s.copy p = (Obj.bo j).lit
      · exact Or.inl ⟨hp, hbo⟩
      · exact Or.inr ⟨hp, not_exists.mp hbo⟩
  · obtain rfl : W = vSet.toFinset := by
      ext p
      rw [hW, List.mem_toFinset, hmem]
    rw [length_newHoldLats, hperm'.length_eq, List.toFinset_card_of_nodup hnodup]

end ExtFolding.TimeMux4
