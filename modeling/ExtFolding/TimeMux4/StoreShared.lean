import ExtFolding.TimeMux4.Store

/-!
# Flip-flop sharing (`storeInLats2`)

A box may hold different objects in different frames: its input is the
disjunction, over the frames, of what it loads there. First the boxes whose
objects still wait are made to hold their values in frame `t`, then the other
objects are put into the boxes that are left, or into new ones.
-/

namespace ExtFolding.TimeMux4

open ExtFolding.Aig ExtFolding.TimeMux2 ExtFolding.TimeMux3

variable {nPi T t : ℕ} {s₀ s : LatSt}

theorem BoxSet.withCopy {s' : LatSt} {i : ℕ} {f : Env → Bool} (h : BoxSet nPi s s' i f)
    (copy : Obj → Lit) : BoxSet nPi s { s' with copy := copy } i f :=
  ⟨⟨h.ok.graph, h.ok.latches⟩, h.suffix, h.length, h.get, h.self⟩

/-! ## Holding -/

/-- The invariant of the loop over `vMap`; `done` is the part already handled. -/
structure HoldInv (nPi T t : ℕ) (s₀ : LatSt) (done : List (ℕ × Obj))
    (acc : LatSt × List ℕ × List Obj) : Prop where
  ok : acc.1.Ok nPi
  suffix : s₀.graph <:+ acc.1.graph
  length : acc.1.latches.length = s₀.latches.length
  copy : acc.1.copy = s₀.copy
  ring : ∀ i < T, acc.1.latches[i]? = s₀.latches[i]?
  old : ∀ {e r i}, OneHot T r e.bo → r ≠ t → acc.1.next e i = s₀.next e i
  now : ∀ {e i}, OneHot T t e.bo → T ≤ i → i < s₀.latches.length →
    acc.1.next e i = (decide (i ∈ acc.2.1) && e.bo i)
  held : ∀ j, j ∈ acc.2.1 ↔ ∃ x ∈ done, s₀.copy x.2 = (Obj.bo j).lit
  nodup : acc.2.2.Nodup
  rest : ∀ p, p ∈ acc.2.2 ↔ (∃ k, (k, p) ∈ done) ∧ ∀ j, s₀.copy p ≠ (Obj.bo j).lit

theorem Ready.holdInv {vMap : List (ℕ × Obj)} (h : Ready nPi T t true vMap s) :
    HoldInv nPi T t s [] (s, [], []) := by
  refine ⟨h.ok, List.suffix_refl _, rfl, rfl, fun _ _ => rfl, fun _ _ => rfl,
    fun he hi hi' => ?_, by simp, by simp, by simp⟩
  simp [h.idle he hi hi', idleNext]

theorem HoldInv.step (abc : AbcAig) (ht : t < T) {vMap done : List (ℕ × Obj)}
    (h₀ : Ready nPi T t true vMap s₀) {acc : LatSt × List ℕ × List Obj} {x : ℕ × Obj}
    (hx : x ∈ vMap) (h : HoldInv nPi T t s₀ done acc) :
    ∃ acc', holdStep abc (Obj.bo t).lit acc x = some acc' ∧
      HoldInv nPi T t s₀ (done ++ [x]) acc' := by
  obtain ⟨s, held, vSet⟩ := acc
  have hcopy : s.copy = s₀.copy := h.copy
  have hlen : s.latches.length = s₀.latches.length := h.length
  have hs : s.Ok nPi := h.ok
  by_cases hbo : ∃ j, s₀.copy x.2 = (Obj.bo j).lit
  · obtain ⟨j, hj⟩ := hbo
    have hT := h₀.ring x hx j hj
    have hlt := h₀.lt_of_copy hx hj
    have hb := orLatIn_boxSet abc (t := t) (v := (Obj.bo j).lit) (i := j) hs (by omega)
      (by omega) (by change j < _; omega)
    refine ⟨(orLatIn abc (Obj.bo t).lit (Obj.bo j).lit j s, j :: held, vSet), ?_,
      hb.ok, h.suffix.trans hb.suffix, ?_, h.copy, fun i hi => ?_, fun {e r i} he hr => ?_,
      fun {e i} he hi hi' => ?_, fun i => ?_, h.nodup, fun p => ?_⟩
    · simp [holdStep, hcopy, hj, isBo_bo]
    · rw [hb.length]
      omega
    · rw [hb.get i (by omega)]
      exact h.ring i hi
    · by_cases hij : i = j
      · subst hij
        rw [hb.self, he.other ht hr, Bool.false_and, Bool.false_or]
        exact h.old he hr
      · rw [hb.next_other h.ok hij]
        exact h.old he hr
    · have hnow := h.now he hi hi'
      by_cases hij : i = j
      · subst hij
        rw [hb.self, he.self ht, hnow]
        simp [Obj.lit]
      · rw [hb.next_other h.ok hij, hnow]
        simp [hij]
    · have := h.held i
      simp only at this
      rw [List.mem_cons, this]
      constructor
      · rintro (rfl | ⟨y, hy, hc⟩)
        · exact ⟨x, by simp, hj⟩
        · exact ⟨y, by simp [hy], hc⟩
      · rintro ⟨y, hy, hc⟩
        rcases List.mem_append.mp hy with hy | hy
        · exact Or.inr ⟨y, hy, hc⟩
        · obtain rfl : y = x := by simpa using hy
          rw [hj] at hc
          cases hc
          exact Or.inl rfl
    · rw [h.rest]
      grind
  · push Not at hbo
    refine ⟨(s, held, vSet.insert x.2), by simp [holdStep, hcopy, isBo_of_ne (h₀.compl x hx) hbo],
      h.ok, h.suffix, h.length, h.copy, h.ring, h.old, h.now, fun j => ?_, h.nodup.insert,
      fun p => ?_⟩
    · rw [h.held]
      constructor
      · rintro ⟨y, hy, hc⟩
        exact ⟨y, by simp [hy], hc⟩
      · rintro ⟨y, hy, hc⟩
        rcases List.mem_append.mp hy with hy | hy
        · exact ⟨y, hy, hc⟩
        · obtain rfl : y = x := by simpa using hy
          exact absurd hc (hbo j)
    · have := h.rest p
      simp only at this
      rw [List.mem_insert_iff, this]
      grind

/-- After the loop the objects in boxes keep their values through frame `t`. -/
theorem HoldInv.storeInv {vMap done : List (ℕ × Obj)} {acc : LatSt × List ℕ × List Obj}
    (h₀ : Ready nPi T t true vMap s₀) (h : HoldInv nPi T t s₀ done acc)
    (hdone : ∀ x, x ∈ done ↔ x ∈ vMap) :
    StoreInv nPi T t true s₀ acc.1 (InBox vMap s₀.copy) := by
  refine ⟨h.ok, h.suffix, h.length.ge, h.ring, fun he hr _ => h.old he hr,
    fun _ _ hi hi' => absurd (h.length ▸ hi') (Nat.not_lt.mpr hi), ?_, ?_, fun _ => by rw [h.copy]⟩
  · rintro p ⟨⟨k, hk⟩, j, hj⟩
    have hT := h₀.ring _ hk j hj
    have hlt := h₀.lt_of_copy hk hj
    have hheld : j ∈ acc.2.1 := (h.held j).mpr ⟨_, (hdone _).mpr hk, hj⟩
    refine ⟨j, hT, by rwa [h.length], by rw [h.copy, hj], fun e he => ?_⟩
    rw [h.now he hT hlt, hj]
    simp [hheld, Obj.lit]
  · rintro p p' ⟨⟨k, hk⟩, -⟩ ⟨⟨k', hk'⟩, -⟩ heq
    rw [h.copy] at heq
    exact h₀.inj _ hk _ hk' heq

/-! ## Filling the boxes that are left -/

theorem storeInIthLat_spec (abc : AbcAig) {held : List ℕ} {i : ℕ} {p : Obj} (hs : s.Ok nPi)
    (ht : t < s.latches.length) (hi : i ≤ s.latches.length)
    (hheld : i < s.latches.length → i ∉ held)
    (hp : (s.copy p).obj.Ok (Ntk.IsLeaf nPi s.latches.length) s.graph.length) :
    ∃ s', storeInIthLat abc held (Obj.bo t).lit i p s = some s' ∧
      s'.copy = Function.update s.copy p (Obj.bo i).lit ∧
      BoxSet nPi s s' i fun e => (e.bo t && s.graph.eval e (s.copy p)) ||
        if i < s.latches.length then s.next e i else false := by
  by_cases hlt : i < s.latches.length
  · have hb := orLatIn_boxSet abc (t := t) hs ht hlt hp
    refine ⟨_, by rw [storeInIthLat, if_pos hlt, if_neg (hheld hlt)], rfl, ?_⟩
    simpa [hlt] using hb.withCopy (Function.update s.copy p (Obj.bo i).lit)
  · obtain rfl : i = s.latches.length := by omega
    have hmono : ∀ o, Ntk.IsLeaf nPi s.latches.length o →
        Ntk.IsLeaf nPi (s.latches.length + 1) o := Ntk.isLeaf_mono le_rfl (Nat.le_succ _)
    have hand := abc.and_computes (P := Ntk.IsLeaf nPi (s.latches.length + 1))
      (a := (Obj.bo t).lit) (b := s.copy p) trivial (hs.graph.weaken hmono)
      (Nat.lt_succ_of_lt ht) (hp.weaken hmono)
    refine ⟨_, by rw [storeInIthLat, if_neg hlt], rfl, ?_⟩
    simpa [Obj.lit] using boxSet_append hs hand
      (Function.update s.copy p (Obj.bo s.latches.length).lit)

/-- The search stops at the first box that is not held, at the latest at a new one. -/
theorem storeWhile_spec (abc : AbcAig) (held : List ℕ) {p : Obj} (hs : s.Ok nPi)
    (ht : t < s.latches.length)
    (hp : (s.copy p).obj.Ok (Ntk.IsLeaf nPi s.latches.length) s.graph.length)
    (fuel : ℕ) {i : ℕ} (hi : i ≤ s.latches.length) (hfuel : s.latches.length < fuel + i) :
    ∃ s' j, storeWhile abc held (Obj.bo t).lit p s fuel i = some (s', j + 1) ∧
      i ≤ j ∧ (∀ k, i ≤ k → k < j → k ∈ held) ∧ j ≤ s.latches.length ∧
      (j < s.latches.length → j ∉ held) ∧ s'.copy = Function.update s.copy p (Obj.bo j).lit ∧
      BoxSet nPi s s' j fun e => (e.bo t && s.graph.eval e (s.copy p)) ||
        if j < s.latches.length then s.next e j else false := by
  induction fuel generalizing i with
  | zero => omega
  | succ fuel ih =>
      by_cases hheld : i < s.latches.length ∧ i ∈ held
      · obtain ⟨s', j, hrun, hij, hskip, h⟩ := ih (i := i + 1) (by omega) (by omega)
        refine ⟨s', j, ?_, by omega, fun k hk hkj => ?_, h⟩
        · rw [storeWhile, storeInIthLat, if_pos hheld.1, if_pos hheld.2]
          exact hrun
        · rcases hk.eq_or_lt with rfl | hlt
          · exact hheld.2
          · exact hskip k hlt hkj
      · have hnot : i < s.latches.length → i ∉ held := fun hlt hmem => hheld ⟨hlt, hmem⟩
        obtain ⟨s', hrun, h⟩ := storeInIthLat_spec abc hs ht hi hnot hp
        exact ⟨s', i, by rw [storeWhile, hrun], le_rfl,
          fun k hk hki => absurd hki (Nat.not_lt.mpr hk), hi, hnot, h⟩

/-- The invariant of the second loop: the boxes from `i` on that are not held are free, those
between the ring and `i` are all in use. -/
structure FillInv (nPi T t : ℕ) (s₀ : LatSt) (held : List ℕ) (A : Obj → Prop)
    (acc : LatSt × ℕ) : Prop where
  store : StoreInv nPi T t true s₀ acc.1 A
  ring : T ≤ acc.2
  index : acc.2 ≤ acc.1.latches.length
  free : ∀ j, acc.2 ≤ j → j < acc.1.latches.length → j ∉ held →
    ∀ {e}, OneHot T t e.bo → acc.1.next e j = false
  used : ∀ {p j}, A p → acc.1.copy p = (Obj.bo j).lit → j ∈ held ∨ j < acc.2
  kept : ∀ j ∈ held, ∃ p, A p ∧ acc.1.copy p = (Obj.bo j).lit
  full : ∀ j, T ≤ j → j < acc.2 → ∃ p, A p ∧ acc.1.copy p = (Obj.bo j).lit
  top : acc.1.latches.length ≤ max s₀.latches.length acc.2

theorem FillInv.step (abc : AbcAig) (ht : t < T) {held : List ℕ} {A : Obj → Prop}
    {acc : LatSt × ℕ} (h : FillInv nPi T t s₀ held A acc) {p : Obj} (hp : ¬ A p)
    (hlit : (s₀.copy p).obj.Ok (Ntk.IsLeaf nPi s₀.latches.length) s₀.graph.length) :
    ∃ acc', storeWhile abc held (Obj.bo t).lit p acc.1 (acc.1.latches.length + 1) acc.2 =
        some acc' ∧ FillInv nPi T t s₀ held (fun o => A o ∨ o = p) acc' := by
  obtain ⟨s, i⟩ := acc
  have hTi : T ≤ i := h.ring
  have hi : i ≤ s.latches.length := h.index
  have hs : s.Ok nPi := h.store.ok
  have hps := h.store.lit hp hlit
  obtain ⟨s', j, hrun, hij, hskip, hj, hheld, hcopy, hb⟩ := storeWhile_spec abc held (t := t)
    hs (by omega) hps (s.latches.length + 1) hi (by omega)
  have hused : ∀ p', A p' → s.copy p' ≠ (Obj.bo j).lit := fun p' hA hc => by
    have hlt := h.store.lt_of_copy hA hc
    rcases h.used hA hc with hmem | hlt'
    · exact hheld hlt hmem
    · exact absurd hij (Nat.not_le.mpr hlt')
  have hassign := h.store.assign hp hb (by omega) hj hused hcopy
    (fun e he => by
      have hfree : (if j < s.latches.length then s.next e j else false) = false := by
        split
        · next hlt => exact h.free j hij hlt (hheld hlt) he
        · rfl
      rw [he.self ht, hfree, Bool.true_and, Bool.or_false]
      exact h.store.eval hp hlit e)
    (fun {e r} he hr => by simp [he.other ht hr, idleNext])
  -- the boxes of the objects stored before keep their owners
  have howner : ∀ {k}, (∃ p', A p' ∧ s.copy p' = (Obj.bo k).lit) →
      ∃ p', (A p' ∨ p' = p) ∧ s'.copy p' = (Obj.bo k).lit := by
    rintro k ⟨p', hA, hc⟩
    refine ⟨p', Or.inl hA, ?_⟩
    rw [hcopy, Function.update_of_ne (by rintro rfl; exact hp hA), hc]
  refine ⟨(s', j + 1), hrun, hassign, ?_, ?_, fun j' hj' hlt hnot {e} he => ?_,
    fun {p' j'} hA hc => ?_, fun k hk => howner (h.kept k hk), fun k hk hkj => ?_, ?_⟩
  · simp only
    omega
  · simp only [hb.length]
    omega
  · simp only [hb.length] at hj' hlt
    rw [hb.next_other h.store.ok (by omega)]
    exact h.free j' (by simp only; omega) (by simp only; omega) hnot he
  · simp only [hcopy] at hc ⊢
    rcases hA with hA | rfl
    · have hne : p' ≠ p := by
        rintro rfl
        exact hp hA
      rw [Function.update_of_ne hne] at hc
      rcases h.used hA hc with hmem | hlt
      · exact Or.inl hmem
      · exact Or.inr (by simp only at hlt; omega)
    · rw [Function.update_self] at hc
      cases hc
      exact Or.inr (Nat.lt_succ_self j)
  · rcases Nat.lt_succ_iff_lt_or_eq.mp hkj with hlt | rfl
    · rcases Nat.lt_or_ge k i with hki | hik
      · exact howner (h.full k hk hki)
      · exact howner (h.kept k (hskip k hik hlt))
    · exact ⟨p, Or.inr rfl, by simp only; rw [hcopy, Function.update_self]⟩
  · have htop := h.top
    simp only [hb.length] at htop ⊢
    omega

/-- At the end there are as many boxes as before, or just enough for the objects stored. -/
theorem FillInv.length_eq {held : List ℕ} {A : Obj → Prop} {acc : LatSt × ℕ}
    (h : FillInv nPi T t s₀ held A acc) {W : Finset Obj} (hW : ∀ p, p ∈ W ↔ A p) :
    acc.1.latches.length = max s₀.latches.length (T + W.card) := by
  have hring := h.ring
  have hindex := h.index
  have hle : s₀.latches.length ≤ acc.1.latches.length := h.store.length
  have hcard := h.store.card_le hW (hring.trans hindex)
  have hfull := le_card_of_full hW h.full
  have htop := h.top
  omega

theorem storeInLats2_spec (abc : AbcAig) (ord : HashOrder) (ht : t < T)
    {vMap : List (ℕ × Obj)} (h : Ready nPi T t true vMap s) :
    ∃ s', storeInLats2 abc ord t T vMap s = some s' ∧
      (StoreInv nPi T t true s s' fun p => ∃ k, (k, p) ∈ vMap) ∧
      ∀ W : Finset Obj, (∀ p, p ∈ W ↔ ∃ k, (k, p) ∈ vMap) →
        s'.latches.length = max s.latches.length (T + W.card) := by
  have hperm := ord.vMap_perm t vMap
  obtain ⟨⟨s₁, held, vSet⟩, hfold, hhold⟩ := foldlM_some (HoldInv nPi T t s)
    (l := ord.vMap t vMap)
    (fun pre x post acc hl hI =>
      hI.step abc ht h (hperm.mem_iff.mp (by simp [← hl]))) h.holdInv
  have hstore := hhold.storeInv h fun x => hperm.mem_iff
  have hlen : s₁.latches.length = s.latches.length := hhold.length
  have hperm' := ord.vSet_perm t vSet
  have hrest : ∀ p, p ∈ vSet ↔ (∃ k, (k, p) ∈ vMap) ∧ ∀ j, s.copy p ≠ (Obj.bo j).lit :=
    fun p => (hhold.rest p).trans (by simp [hperm.mem_iff])
  have hnodup : (ord.vSet t vSet).Nodup := hperm'.nodup_iff.mpr hhold.nodup
  have hfill : FillInv nPi T t s held (InBox vMap s.copy) (s₁, T) := by
    refine ⟨hstore, le_rfl, by simp only [hlen]; exact h.length, fun j hj hlt hnot {e} he => ?_,
      fun {p j} hA hc => Or.inl ?_, fun j hj => ?_,
      fun j hj hj' => absurd hj' (Nat.not_lt.mpr hj), by simp only [hlen]; exact le_max_left _ _⟩
    · have := hhold.now he hj (hlen ▸ hlt)
      simpa [hnot] using this
    · obtain ⟨⟨k, hk⟩, -⟩ := hA
      rw [hhold.copy] at hc
      exact (hhold.held j).mpr ⟨_, hperm.mem_iff.mpr hk, hc⟩
    · obtain ⟨x, hx, hc⟩ := (hhold.held j).mp hj
      exact ⟨x.2, ⟨⟨x.1, hperm.mem_iff.mp hx⟩, j, hc⟩, by rw [hhold.copy, hc]⟩
  obtain ⟨⟨s₂, i⟩, hfold₂, hfinal⟩ := foldlM_some
    (f := fun (acc : LatSt × ℕ) pObj =>
      storeWhile abc held (Obj.bo t).lit pObj acc.1 (acc.1.latches.length + 1) acc.2)
    (I := fun pre acc => FillInv nPi T t s held (fun o => InBox vMap s.copy o ∨ o ∈ pre) acc)
    (l := ord.vSet t vSet) (b := (s₁, T)) (by
      intro pre p post acc hl hI
      obtain ⟨⟨k, hk⟩, hne⟩ := (hrest p).mp (hperm'.mem_iff.mp (by simp [← hl]))
      have hnew : ¬ (InBox vMap s.copy p ∨ p ∈ pre) := by
        rintro (⟨-, j, hj⟩ | hpre)
        · exact hne j hj
        · rw [← hl] at hnodup
          exact (List.nodup_append.mp hnodup).2.2 p hpre p (by simp) rfl
      obtain ⟨acc', hrun, hI'⟩ := hI.step abc ht hnew (h.lit _ hk)
      refine ⟨acc', hrun, ?_⟩
      convert hI' using 2 with o
      simp only [List.mem_append, List.mem_singleton]
      tauto) (by simpa using hfill)
  have hall : ∀ p, InBox vMap s.copy p ∨ p ∈ ord.vSet t vSet ↔ ∃ k, (k, p) ∈ vMap := by
    intro p
    rw [hperm'.mem_iff, hrest, InBox]
    constructor
    · rintro (⟨hp, -⟩ | ⟨hp, -⟩) <;> exact hp
    · intro hp
      by_cases hbo : ∃ j, s.copy p = (Obj.bo j).lit
      · exact Or.inl ⟨hp, hbo⟩
      · exact Or.inr ⟨hp, not_exists.mp hbo⟩
  refine ⟨s₂, ?_, hfinal.store.congr hall, fun W hW =>
    hfinal.length_eq fun p => (hW p).trans (hall p).symm⟩
  rw [storeInLats2, hfold]
  simp only [Option.bind_eq_bind, Option.bind_some, hfold₂]
  rfl

end ExtFolding.TimeMux4
