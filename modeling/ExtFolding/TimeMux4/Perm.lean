import ExtFolding.TimeMux2.SchedulePO
import ExtFolding.TimeMux4.ParseInfo
import ExtFolding.Utils.AigUtils

/-!
# `timeMux4/perm.cpp`: input permutations

`permPi` orders the inputs by the outputs that need them first; `readInfo` completes a placement
of some of the inputs. Both fill `iPerm` and `invPerm` in lock step and rewire the network with
the second. The invariant of the pair is `Inverse`: entry `j` of one array is `p` exactly when
entry `p` of the other is `j`.
-/

namespace ExtFolding.TimeMux4

open ExtFolding.Aig ExtFolding.Text ExtFolding.TimeMux2 ExtFolding.Utils

/-! ## Two arrays -/

/-- `iPerm` and `invPerm`; `none` is an entry that is not assigned (`-1`, or never written). -/
structure PermArrays where
  iPerm : List (Option ℕ)
  invPerm : List (Option ℕ)

namespace PermArrays

/-- Arrays of size `n` without any entry. -/
def empty (n : ℕ) : PermArrays := ⟨List.replicate n none, List.replicate n none⟩

/-- `iPerm[j] = pos; invPerm[pos] = j;` fails outside the arrays. -/
def put (j pos : ℕ) (s : PermArrays) : Option PermArrays :=
  if j < s.iPerm.length ∧ pos < s.invPerm.length then
    some ⟨s.iPerm.set j (some pos), s.invPerm.set pos (some j)⟩
  else none

/-- Input `j` is at position `pos`. -/
def At (s : PermArrays) (j pos : ℕ) : Prop := s.iPerm[j]? = some (some pos)

/-- The arrays have size `n` and invert each other where they are assigned. -/
structure Inverse (n : ℕ) (s : PermArrays) : Prop where
  iLength : s.iPerm.length = n
  invLength : s.invPerm.length = n
  iff : ∀ j pos, s.At j pos ↔ s.invPerm[pos]? = some (some j)

variable {n : ℕ} {s s' : PermArrays}

theorem inverse_empty (n : ℕ) : (empty n).Inverse n where
  iLength := List.length_replicate
  invLength := List.length_replicate
  iff j pos := by simp [empty, At, List.getElem?_replicate]

theorem Inverse.lt (h : s.Inverse n) {j pos : ℕ} (hj : s.At j pos) : j < n ∧ pos < n := by
  have hi := (List.getElem?_eq_some_iff.mp hj).1
  have hinv := (List.getElem?_eq_some_iff.mp ((h.iff j pos).mp hj)).1
  exact ⟨h.iLength ▸ hi, h.invLength ▸ hinv⟩

theorem At.unique {j pos pos' : ℕ} (h : s.At j pos) (h' : s.At j pos') : pos = pos' := by
  unfold At at h h'
  rw [h] at h'
  simpa using h'

/-- No position is used twice. -/
theorem Inverse.inj (h : s.Inverse n) {j j' pos : ℕ} (hj : s.At j pos) (hj' : s.At j' pos) :
    j = j' := by
  have hinv := (h.iff j pos).mp hj
  rw [(h.iff j' pos).mp hj'] at hinv
  simpa using hinv.symm

/-- A new pair is added if both sides are free. -/
theorem Inverse.put (h : s.Inverse n) {j pos : ℕ} (hj : j < n) (hpos : pos < n)
    (hfree : ∀ p, ¬ s.At j p) (hfree' : ∀ i, ¬ s.At i pos) :
    ∃ s', s.put j pos = some s' ∧ s'.Inverse n ∧
      ∀ i p, s'.At i p ↔ s.At i p ∨ (i = j ∧ p = pos) := by
  have hat : ∀ i p, (s.iPerm.set j (some pos))[i]? = some (some p) ↔
      s.At i p ∨ (i = j ∧ p = pos) := by
    intro i p
    by_cases hij : i = j
    · subst hij
      rw [List.getElem?_set_self (h.iLength ▸ hj)]
      simp [hfree p, eq_comm]
    · rw [List.getElem?_set_ne (Ne.symm hij)]
      simp [At, hij]
  refine ⟨⟨s.iPerm.set j (some pos), s.invPerm.set pos (some j)⟩, ?_, ⟨?_, ?_, fun i p => ?_⟩,
    hat⟩
  · rw [PermArrays.put, if_pos ⟨h.iLength ▸ hj, h.invLength ▸ hpos⟩]
  · simpa using h.iLength
  · simpa using h.invLength
  · rw [At, hat]
    by_cases hp : p = pos
    · subst hp
      rw [List.getElem?_set_self (h.invLength ▸ hpos)]
      simp [hfree' i, eq_comm]
    · rw [List.getElem?_set_ne (Ne.symm hp), ← h.iff]
      simp [hp]

/-- As many positions are in use as inputs are placed; so an input without a position leaves
a position without an input. -/
theorem Inverse.exists_free (h : s.Inverse n) {j : ℕ} (hj : j < n) (hfree : ∀ p, ¬ s.At j p) :
    ∃ pos < n, ∀ i, ¬ s.At i pos := by
  by_contra hall
  push Not at hall
  choose! f hf using hall
  have hinj : Set.InjOn f (Finset.range n) := by
    intro p hp q hq hpq
    have hfp := hf p (Finset.mem_range.mp hp)
    rw [hpq] at hfp
    exact hfp.unique (hf q (Finset.mem_range.mp hq))
  have hmaps : Set.MapsTo f (Finset.range n) ((Finset.range n).erase j) := by
    intro p hp
    have hfp := hf p (Finset.mem_range.mp hp)
    refine Finset.mem_coe.mpr (Finset.mem_erase.mpr ⟨?_, Finset.mem_range.mpr (h.lt hfp).1⟩)
    intro heq
    exact hfree p (heq ▸ hfp)
  have hcard := Finset.card_le_card_of_injOn f hmaps hinj
  rw [Finset.card_erase_of_mem (Finset.mem_range.mpr hj), Finset.card_range] at hcard
  omega

/-- The entries, once all of them are assigned. -/
def read (l : List (Option ℕ)) : Option (List ℕ) := l.mapM id

theorem read_eq {l : List (Option ℕ)} (h : ∀ i < l.length, ∃ p, l[i]? = some (some p)) :
    ∃ ps, read l = some ps ∧ l = ps.map some := by
  induction l with
  | nil => exact ⟨[], rfl, rfl⟩
  | cons a l ih =>
      obtain ⟨p, hp⟩ := h 0 (by simp)
      obtain ⟨ps, hps, rfl⟩ := ih fun i hi => by simpa using h (i + 1) (by simpa using hi)
      obtain rfl : a = some p := by simpa using hp
      exact ⟨p :: ps, by simp [read] at hps ⊢; simp [hps], rfl⟩

end PermArrays

/-- `iPerm` and `invPerm` are permutations of `[0, n)` and invert each other. -/
structure MutuallyInverse (n : ℕ) (iPerm invPerm : List ℕ) : Prop where
  permutes : iPerm.Perm (List.range n)
  inv_permutes : invPerm.Perm (List.range n)
  left : ∀ j < n, invPerm.getD (iPerm.getD j 0) 0 = j
  right : ∀ p < n, iPerm.getD (invPerm.getD p 0) 0 = p

theorem PermArrays.Inverse.mutuallyInverse {n : ℕ} {iPerm invPerm : List ℕ}
    (h : PermArrays.Inverse n ⟨iPerm.map some, invPerm.map some⟩) :
    MutuallyInverse n iPerm invPerm := by
  have hi : iPerm.length = n := by simpa using h.iLength
  have hinv : invPerm.length = n := by simpa using h.invLength
  have hat : ∀ j pos : ℕ, iPerm[j]? = some pos ↔ invPerm[pos]? = some j := by
    intro j pos
    simpa [PermArrays.At] using h.iff j pos
  have perm : ∀ {l l' : List ℕ}, l.length = n → l'.length = n →
      (∀ j pos : ℕ, l[j]? = some pos ↔ l'[pos]? = some j) → l.Perm (List.range n) := by
    intro l l' hl hl' hll
    refine perm_range_of_nodup ?_ (fun p hp => ?_) hl
    · refine List.nodup_iff_injective_getElem.mpr fun i j hij => Fin.ext ?_
      have hgi := (hll i _).mp (List.getElem?_eq_getElem i.isLt)
      have hgj := (hll j _).mp (List.getElem?_eq_getElem j.isLt)
      rw [show l[(i : ℕ)] = l[(j : ℕ)] from hij, hgj] at hgi
      exact (Option.some.inj hgi).symm
    · obtain ⟨j, hj⟩ := List.getElem?_of_mem hp
      exact hl' ▸ (List.getElem?_eq_some_iff.mp ((hll j p).mp hj)).1
  refine ⟨perm hi hinv hat, perm hinv hi fun j pos => (hat pos j).symm, fun j hj => ?_,
    fun p hp => ?_⟩
  · have hget := List.getElem?_eq_getElem (hi.symm ▸ hj : j < iPerm.length)
    simp [List.getD, hget, (hat _ _).mp hget]
  · have hget := List.getElem?_eq_getElem (hinv.symm ▸ hp : p < invPerm.length)
    simp [List.getD, hget, (hat _ _).mpr hget]

/-! ## Checking the arrays and rewiring -/

/-- `checkPerm` on both arrays and `aigPermCi(pNtk, invPerm, true)`: the network, `iPerm` and
`invPerm`. The entries are numbers of inputs of the network, which are `int`s. -/
def applyPerm (abc : AbcAig) (pNtk : Ntk) (s : PermArrays) :
    Option (Ntk × List ℕ × List ℕ) := do
  let iPerm ← PermArrays.read s.iPerm
  let invPerm ← PermArrays.read s.invPerm
  if checkPerm (iPerm.map Nat.cast) pNtk.nPi ∧ checkPerm (invPerm.map Nat.cast) pNtk.nPi then
    return (aigPermCi abc pNtk invPerm, iPerm, invPerm)
  else none

/-- `M` is `N` with input `j` moved to position `iPerm[j]`. -/
structure Rewired (N M : Ntk) (iPerm : List ℕ) : Prop where
  ok : M.Ok
  pins : M.nPi = N.nPi
  length : M.pos.length = N.pos.length
  fn : ∀ x z : ℕ → Bool, (∀ j < N.nPi, z (iPerm.getD j 0) = x j) → ∀ o, M.fn z o = N.fn x o

theorem applyPerm_spec (abc : AbcAig) {N : Ntk} (hN : N.Ok) (hl : N.latches = [])
    {s : PermArrays} (hs : s.Inverse N.nPi) (hall : ∀ j < N.nPi, ∃ p, s.At j p) :
    ∃ M iPerm invPerm, applyPerm abc N s = some (M, iPerm, invPerm) ∧
      s.iPerm = iPerm.map some ∧ MutuallyInverse N.nPi iPerm invPerm ∧ Rewired N M iPerm := by
  obtain ⟨iPerm, hi, hi'⟩ := PermArrays.read_eq (l := s.iPerm) fun j hj =>
    hall j (hs.iLength ▸ hj)
  obtain ⟨invPerm, hinv, hinv'⟩ := PermArrays.read_eq (l := s.invPerm) (by
    intro p hp
    -- a free position would need an input without a position
    by_contra hno
    have hfree : ∀ j, ¬ s.At j p := fun j hj => hno ⟨j, (hs.iff j p).mp hj⟩
    have hp' : p < N.nPi := hs.invLength ▸ hp
    have hswap : PermArrays.Inverse N.nPi ⟨s.invPerm, s.iPerm⟩ :=
      ⟨hs.invLength, hs.iLength, fun j pos => (hs.iff pos j).symm⟩
    obtain ⟨j, hj, hjfree⟩ := hswap.exists_free hp' fun j hj => hno ⟨j, hj⟩
    obtain ⟨q, hq⟩ := hall j hj
    exact hjfree q ((hs.iff j q).mp hq))
  have hmut : MutuallyInverse N.nPi iPerm invPerm :=
    PermArrays.Inverse.mutuallyInverse (by rw [← hi', ← hinv']; exact hs)
  have hcheck : ∀ {l : List ℕ}, l.Perm (List.range N.nPi) →
      checkPerm (l.map Nat.cast) N.nPi = true := by
    intro l hperm
    exact checkPerm_natCast.mpr ⟨hperm.nodup_iff.mpr List.nodup_range,
      fun p hp => List.mem_range.mp (hperm.mem_iff.mp hp)⟩
  obtain ⟨hok, hlen, hfn⟩ := aigPermCi_spec abc hN hl invPerm hmut.inv_permutes
  refine ⟨aigPermCi abc N invPerm, iPerm, invPerm, ?_, hi', hmut, hok, rfl, hlen,
    fun x z hz o => hfn z x (fun p hp => ?_) o⟩
  · simp [applyPerm, hi, hinv, hcheck hmut.permutes, hcheck hmut.inv_permutes]
  · have hj : invPerm.getD p 0 < N.nPi := by
      have hlt : p < invPerm.length := by
        rw [hmut.inv_permutes.length_eq, List.length_range]
        exact hp
      rw [List.getD_eq_getElem _ _ hlt]
      exact List.mem_range.mp (hmut.inv_permutes.mem_iff.mp (List.getElem_mem hlt))
    rw [← hz _ hj, hmut.right p hp]

/-! ## `permPi` -/

/-- The inputs in the cone of an object. -/
def structSup (N : Ntk) : Obj → Finset ℕ :=
  N.graph.interp (fun o => match o with | .pi j => {j} | _ => ∅) (fun s _ s' _ => s ∪ s')

/-- `Abc_NtkNodeSupportInt` lists the structural support of an output. -/
structure NodeSupport where
  run : Ntk → ℕ → List ℕ
  spec : ∀ {N : Ntk} {o : ℕ} {l : Lit}, N.Ok → N.pos[o]? = some l →
    ∀ i, i ∈ run N o ↔ i ∈ structSup N l.obj

/-- `getStructSup`, with `assert(iPi < sv.size())`. -/
def getStructSup (supp : NodeSupport) (pNtk : Ntk) (idx : ℕ) : Option SupVec :=
  (supp.run pNtk idx).foldlM
    (fun sv iPi => if iPi < pNtk.nPi then some (insert iPi sv) else none) (∅ : SupVec)

/-- `iPerm[j] = cnt; invPerm[cnt++] = j;` for the listed inputs. -/
def appendInputs (js : List ℕ) (s : PermArrays × ℕ) : Option (PermArrays × ℕ) :=
  js.foldlM (fun s j => do return (← s.1.put j s.2, s.2 + 1)) s

/-- The variables of the loop over the outputs. -/
structure FrontSt where
  arrays : PermArrays
  cnt : ℕ
  curr : SupVec

def frontStep (svs : List SupVec) (nPi : ℕ) (s : FrontSt) (idx : ℕ) : Option FrontSt := do
  let curr := s.curr ∪ svs.getD idx ∅
  let prev := symmDiff s.curr curr
  let (arrays, cnt) ← appendInputs ((List.range nPi).filter (· ∈ prev)) (s.arrays, s.cnt)
  return ⟨arrays, cnt, curr⟩

def permPi (abc : AbcAig) (supp : NodeSupport) (sort : CountSort) (pNtk : Ntk) :
    Option (Ntk × List ℕ × List ℕ) := do
  let svs ← (List.range pNtk.pos.length).mapM (getStructSup supp pNtk)
  let s ← (sort.run svs).foldlM (frontStep svs pNtk.nPi) ⟨.empty pNtk.nPi, 0, ∅⟩
  let (arrays, _) ← appendInputs ((List.range pNtk.nPi).filter (· ∉ s.curr)) (s.arrays, s.cnt)
  applyPerm abc pNtk arrays

/-- The supports of all outputs. -/
def supports (N : Ntk) : List SupVec := N.pos.map fun l => structSup N l.obj

theorem interp_support_subset {n : ℕ} {g : Graph} (hg : g.Ok (Ntk.IsLeaf n 0)) {o : Obj}
    (ho : o.Ok (Ntk.IsLeaf n 0) g.length) :
    g.interp (fun o => match o with | .pi j => ({j} : Finset ℕ) | _ => ∅)
      (fun s _ s' _ => s ∪ s') o ⊆ Finset.range n := by
  induction g generalizing o with
  | nil =>
      cases o with
      | pi j =>
          have hj : j < n := ho
          simpa [Graph.interp] using hj
      | const1 => exact Finset.empty_subset _
      | bo j => exact Finset.empty_subset _
      | node k => exact Finset.empty_subset _
  | cons ab g ih =>
      obtain ⟨a, b⟩ := ab
      obtain ⟨ha, hb, hg⟩ := hg
      by_cases h : o = .node g.length
      · subst h
        rw [Graph.interp_cons_self]
        exact Finset.union_subset (ih hg ha) (ih hg hb)
      · rw [Graph.interp_cons_of_ne _ _ _ _ h]
        exact ih hg (ho.of_succ h)

theorem structSup_subset {N : Ntk} (hN : N.Ok) (hl : N.latches = []) {l : Lit} (h : l ∈ N.pos) :
    structSup N l.obj ⊆ Finset.range N.nPi := by
  have hg := hN.graph
  have hp := hN.pos l h
  rw [hl] at hg hp
  exact interp_support_subset hg hp

theorem getStructSup_spec (supp : NodeSupport) {N : Ntk} (hN : N.Ok) (hl : N.latches = [])
    {o : ℕ} {l : Lit} (ho : N.pos[o]? = some l) :
    getStructSup supp N o = some (structSup N l.obj) := by
  have hmem := supp.spec hN ho
  have hlt : ∀ i ∈ supp.run N o, i < N.nPi := fun i hi => Finset.mem_range.mp
    (structSup_subset hN hl (List.mem_of_getElem? ho) ((hmem i).mp hi))
  obtain ⟨sv, hrun, hsv⟩ := foldlM_some (l := supp.run N o) (b := (∅ : SupVec))
    (f := fun sv iPi => if iPi < N.nPi then some (insert iPi sv) else none)
    (fun pre sv => ∀ i, i ∈ sv ↔ i ∈ pre)
    (by
      intro pre a post sv hsplit h
      refine ⟨insert a sv, if_pos (hlt a (by simp [← hsplit])), fun i => ?_⟩
      rw [Finset.mem_insert, h, List.mem_append, List.mem_singleton]
      exact or_comm)
    (by simp)
  rw [getStructSup, hrun]
  congr 1
  ext i
  rw [hsv, hmem]

theorem supports_eq (supp : NodeSupport) {N : Ntk} (hN : N.Ok) (hl : N.latches = []) :
    (List.range N.pos.length).mapM (getStructSup supp N) = some (supports N) := by
  rw [mapM_eq_map (g := fun o => (supports N).getD o ∅)]
  · rw [show N.pos.length = (supports N).length by simp [supports],
      map_range_eq rfl fun k a hk => by simp [List.getD, hk]]
  · intro o ho
    have hget := List.getElem?_eq_getElem (List.mem_range.mp ho)
    rw [getStructSup_spec supp hN hl hget]
    simp [supports, List.getD, hget]

/-- The arrays hold the inputs of `L` at the positions `0, 1, ..`. -/
structure Filled (n : ℕ) (L : List ℕ) (s : PermArrays × ℕ) : Prop where
  inverse : s.1.Inverse n
  cnt : s.2 = L.length
  at_iff : ∀ j p, s.1.At j p ↔ L[p]? = some j

theorem appendInputs_spec {n : ℕ} {L js : List ℕ} {s : PermArrays × ℕ} (h : Filled n L s)
    (hnd : (L ++ js).Nodup) (hlt : ∀ j ∈ L ++ js, j < n) :
    ∃ s', appendInputs js s = some s' ∧ Filled n (L ++ js) s' := by
  induction js generalizing L s with
  | nil => exact ⟨s, rfl, by simpa using h⟩
  | cons j js ih =>
      have hj : j ∉ L := fun hmem => (List.nodup_append.mp hnd).2.2 j hmem j (by simp) rfl
      have hroom : L.length < n := by
        have hsub : L ++ j :: js ⊆ List.range n := fun i hi => List.mem_range.mpr (hlt i hi)
        have hle := (List.subperm_of_subset hnd hsub).length_le
        rw [List.length_append, List.length_cons, List.length_range] at hle
        omega
      obtain ⟨s', hput, hinv, hat⟩ := h.inverse.put (hlt j (by simp)) hroom
        (fun p hp => hj (List.mem_of_getElem? ((h.at_iff j p).mp hp)))
        (fun i hi => by simpa using (h.at_iff i _).mp hi)
      have hfilled : Filled n (L ++ [j]) (s', s.2 + 1) := by
        refine ⟨hinv, by simp [h.cnt], fun i p => ?_⟩
        rw [hat, h.at_iff]
        rcases Nat.lt_trichotomy p L.length with hlt | rfl | hgt
        · rw [List.getElem?_append_left hlt]
          simp [Nat.ne_of_lt hlt]
        · simp [eq_comm]
        · have hnone : (L ++ [j])[p]? = none := List.getElem?_eq_none (by simpa using hgt)
          rw [hnone, List.getElem?_eq_none (Nat.le_of_lt hgt)]
          simp [Nat.ne_of_gt hgt]
      obtain ⟨s'', hrun, hfin⟩ := ih hfilled (by simpa using hnd) (by simpa using hlt)
      refine ⟨s'', ?_, by simpa using hfin⟩
      rw [← h.cnt] at hput
      simpa [appendInputs, hput] using hrun

/-- After the outputs `pre` the inputs they need are placed, those of the first outputs first. -/
structure FrontInv (svs : List SupVec) (n : ℕ) (pre L : List ℕ) (s : FrontSt) : Prop where
  filled : Filled n L (s.arrays, s.cnt)
  nodup : L.Nodup
  curr : s.curr = unionSup svs pre
  mem : ∀ j, j ∈ L ↔ j ∈ s.curr
  fronts : ∀ q ≤ pre.length, ∃ L', L' <+: L ∧ ∀ j, j ∈ L' ↔ j ∈ unionSup svs (pre.take q)

theorem unionSup_subset {svs : List SupVec} {n : ℕ} (h : ∀ o, svs.getD o ∅ ⊆ Finset.range n)
    (idxs : List ℕ) : unionSup svs idxs ⊆ Finset.range n := by
  induction idxs using List.reverseRecOn with
  | nil => exact Finset.empty_subset _
  | append_singleton idxs idx ih =>
      rw [unionSup_concat]
      exact Finset.union_subset ih (h idx)

theorem FrontInv.step {svs : List SupVec} {n : ℕ} {pre L : List ℕ} {s : FrontSt}
    (h : FrontInv svs n pre L s) (hsup : ∀ o, svs.getD o ∅ ⊆ Finset.range n) (idx : ℕ) :
    ∃ s', frontStep svs n s idx = some s' ∧ ∃ L', FrontInv svs n (pre ++ [idx]) L' s' := by
  have hcurr : s.curr ∪ svs.getD idx ∅ = unionSup svs (pre ++ [idx]) := by
    rw [unionSup_concat, h.curr]
  have hbound : ∀ j ∈ s.curr ∪ svs.getD idx ∅, j < n := fun j hj =>
    Finset.mem_range.mp (unionSup_subset hsup _ (hcurr ▸ hj))
  obtain ⟨new, hnew⟩ : ∃ new, (List.range n).filter
    (· ∈ symmDiff s.curr (s.curr ∪ svs.getD idx ∅)) = new := ⟨_, rfl⟩
  have hmem : ∀ j, j ∈ new ↔ j ∈ s.curr ∪ svs.getD idx ∅ ∧ j ∉ s.curr := by
    intro j
    rw [← hnew, List.mem_filter, List.mem_range, decide_eq_true_eq, Finset.mem_symmDiff]
    constructor
    · rintro ⟨-, hj | hj⟩
      · exact absurd (Finset.mem_union_left _ hj.1) hj.2
      · exact hj
    · exact fun hj => ⟨hbound j hj.1, Or.inr hj⟩
  have hnd : (L ++ new).Nodup := by
    refine List.Nodup.append h.nodup (hnew ▸ List.nodup_range.filter _) fun j hj hj' => ?_
    exact ((hmem j).mp hj').2 ((h.mem j).mp hj)
  have hall : ∀ j, j ∈ L ++ new ↔ j ∈ s.curr ∪ svs.getD idx ∅ := by
    intro j
    rw [List.mem_append, h.mem, hmem]
    by_cases hj : j ∈ s.curr
    · simp [hj]
    · simp [hj]
  obtain ⟨r, hrun, hfilled⟩ := appendInputs_spec h.filled hnd fun j hj => hbound j ((hall j).mp hj)
  refine ⟨⟨r.1, r.2, s.curr ∪ svs.getD idx ∅⟩, ?_, L ++ new, hfilled, hnd, hcurr, hall,
    fun q hq => ?_⟩
  · simp only [frontStep, hnew, hrun]
    rfl
  · rcases Nat.lt_or_ge pre.length q with hlt | hle
    · refine ⟨L ++ new, List.prefix_refl _, fun j => ?_⟩
      rw [List.take_of_length_le (by simpa using hlt), ← hcurr]
      exact hall j
    · obtain ⟨L', hpre, hL'⟩ := h.fronts q hle
      refine ⟨L', hpre.trans (List.prefix_append _ _), fun j => ?_⟩
      rw [List.take_append_of_le_length hle]
      exact hL' j

/-- Where a prefix of the order lies. -/
theorem image_prefix {n : ℕ} {L L' : List ℕ} {s : PermArrays × ℕ} (h : Filled n L s)
    (hnd : L.Nodup) (hpre : L' <+: L) {S : Finset ℕ} (hS : ∀ j, j ∈ L' ↔ j ∈ S)
    {iPerm : List ℕ} (hi : s.1.iPerm = iPerm.map some) :
    S.image (iPerm.getD · 0) = Finset.range S.card := by
  have hcard : S.card = L'.length := by
    rw [← List.toFinset_card_of_nodup (hnd.sublist hpre.sublist)]
    congr 1
    ext j
    rw [List.mem_toFinset, hS]
  have hget : ∀ p < L'.length, ∃ j, L'[p]? = some j ∧ iPerm.getD j 0 = p := by
    intro p hp
    obtain ⟨j, hj⟩ : ∃ j, L'[p]? = some j := ⟨_, List.getElem?_eq_getElem hp⟩
    have hat : s.1.At j p := by
      obtain ⟨rest, rfl⟩ := hpre
      rw [h.at_iff, List.getElem?_append_left hp, hj]
    refine ⟨j, hj, ?_⟩
    rw [PermArrays.At, hi, List.getElem?_map, Option.map_eq_some_iff] at hat
    obtain ⟨q, hq, heq⟩ := hat
    simpa [List.getD, hq] using heq
  ext p
  rw [Finset.mem_image, Finset.mem_range, hcard]
  constructor
  · rintro ⟨j, hj, rfl⟩
    obtain ⟨p, hp⟩ := List.getElem?_of_mem ((hS j).mpr hj)
    have hlt := (List.getElem?_eq_some_iff.mp hp).1
    obtain ⟨j', hj', hpos⟩ := hget p hlt
    rw [hp] at hj'
    cases hj'
    exact hpos ▸ hlt
  · intro hp
    obtain ⟨j, hj, hpos⟩ := hget p hp
    exact ⟨j, (hS j).mp (List.mem_of_getElem? hj), hpos⟩

/-- `permPi` permutes the inputs, and the inputs of the first outputs come first. -/
theorem permPi_fronts (abc : AbcAig) (supp : NodeSupport) (sort : CountSort) {N : Ntk}
    (hN : N.Ok) (hl : N.latches = []) :
    ∃ M iPerm invPerm, permPi abc supp sort N = some (M, iPerm, invPerm) ∧
      MutuallyInverse N.nPi iPerm invPerm ∧ Rewired N M iPerm ∧
      ∀ i < N.pos.length,
        (unionSup (supports N) ((sort.run (supports N)).take (i + 1))).image (iPerm.getD · 0) =
          Finset.range (unionSup (supports N) ((sort.run (supports N)).take (i + 1))).card := by
  have hsup : ∀ o, (supports N).getD o ∅ ⊆ Finset.range N.nPi := by
    intro o
    cases ho : N.pos[o]? with
    | none => simp [supports, List.getD, ho]
    | some l =>
        simpa [supports, List.getD, ho] using structSup_subset hN hl (List.mem_of_getElem? ho)
  obtain ⟨s, hrun, L, hL⟩ := foldlM_some (l := sort.run (supports N))
    (f := frontStep (supports N) N.nPi) (b := ⟨.empty N.nPi, 0, ∅⟩)
    (fun pre s => ∃ L, FrontInv (supports N) N.nPi pre L s)
    (by
      rintro pre a post s - ⟨L, hL⟩
      exact hL.step hsup a)
    ⟨[], ⟨PermArrays.inverse_empty _, rfl, by simp [PermArrays.At, PermArrays.empty,
      List.getElem?_replicate]⟩, List.nodup_nil, rfl, by simp, fun q hq =>
      ⟨[], List.prefix_refl _, by simp [unionSup]⟩⟩
  obtain ⟨dummy, hdummy⟩ : ∃ dummy, (List.range N.nPi).filter (· ∉ s.curr) = dummy := ⟨_, rfl⟩
  have hmem : ∀ j, j ∈ dummy ↔ j < N.nPi ∧ j ∉ s.curr := by
    intro j
    rw [← hdummy, List.mem_filter, List.mem_range, decide_eq_true_eq]
  have hbound : ∀ j ∈ s.curr, j < N.nPi := fun j hj =>
    Finset.mem_range.mp (unionSup_subset hsup _ (hL.curr ▸ hj))
  have hnd : (L ++ dummy).Nodup := by
    refine List.Nodup.append hL.nodup (hdummy ▸ List.nodup_range.filter _) fun j hj hj' => ?_
    exact ((hmem j).mp hj').2 ((hL.mem j).mp hj)
  have hall : ∀ j, j ∈ L ++ dummy ↔ j < N.nPi := by
    intro j
    rw [List.mem_append, hL.mem, hmem]
    by_cases hj : j ∈ s.curr
    · simp [hj, hbound j hj]
    · simp [hj]
  obtain ⟨r, hrest, hfilled⟩ := appendInputs_spec hL.filled hnd fun j hj => (hall j).mp hj
  obtain ⟨M, iPerm, invPerm, happly, hi, hmut, hrew⟩ := applyPerm_spec abc hN hl hfilled.inverse (by
    intro j hj
    obtain ⟨p, hp⟩ := List.getElem?_of_mem ((hall j).mpr hj)
    exact ⟨p, (hfilled.at_iff j p).mpr hp⟩)
  refine ⟨M, iPerm, invPerm, ?_, hmut, hrew, fun i hi' => ?_⟩
  · simp only [permPi, supports_eq supp hN hl, Option.bind_eq_bind, Option.bind_some, hrun,
      hdummy, hrest]
    exact happly
  · have hlen : (sort.run (supports N)).length = N.pos.length := by
      simpa [supports] using (sort.perm (supports N)).length_eq
    obtain ⟨L', hpre, hL'⟩ := hL.fronts (i + 1) (by rw [hlen]; exact hi')
    exact image_prefix hfilled hnd (hpre.trans (List.prefix_append _ _)) hL' hi

/-- The support read off the cone, as a list. -/
def coneSupport : NodeSupport where
  run N o :=
    match N.pos[o]? with
    | some l => (structSup N l.obj).sort (· ≤ ·)
    | none => []
  spec _ ho i := by simp [ho]

/-- `x₂` and `x₁ ∧ x₂` over three inputs. -/
def lateNtk : Ntk where
  nPi := 3
  graph := [((Obj.pi 1).lit, (Obj.pi 2).lit)]
  latches := []
  pos := [(Obj.node 0).lit, (Obj.pi 2).lit]

theorem lateNtk_ok : lateNtk.Ok where
  graph := ⟨(by decide : 1 < 3), (by decide : 2 < 3), trivial⟩
  latches := by simp [lateNtk]
  pos := by simp [lateNtk, Obj.Ok, Ntk.IsLeaf, Obj.lit]

theorem permPi_lateNtk :
    ∃ M iPerm invPerm, permPi strash coneSupport countSort lateNtk = some (M, iPerm, invPerm) ∧
      MutuallyInverse 3 iPerm invPerm ∧ Rewired lateNtk M iPerm := by
  obtain ⟨M, iPerm, invPerm, h, hmut, hrew, -⟩ :=
    permPi_fronts strash coneSupport countSort lateNtk_ok rfl
  exact ⟨M, iPerm, invPerm, h, hmut, hrew⟩

/-! ## `readInfo` -/

/-- `vector<bool> bv`, and the arrays. -/
structure PlaceSt where
  arrays : PermArrays
  bv : List Bool

/-- `iPerm[j] = pos; invPerm[pos] = j; bv[pos] = true;` -/
def PlaceSt.put (j pos : ℕ) (s : PlaceSt) : Option PlaceSt := do
  let arrays ← s.arrays.put j pos
  if pos < s.bv.length then return ⟨arrays, s.bv.set pos true⟩ else none

/-- The new position of an input of the partial fold: the same frame and pin. -/
def newPos (nPi0 nPi p : ℕ) : ℕ := p / nPi0 * nPi + p % nPi0

/-- The loop over `kids`. -/
def placeKids (nPi0 nPi : ℕ) (kids iPerm0 : List ℕ) (s : PlaceSt) : Option PlaceSt :=
  kids.zipIdx.foldlM (fun s k => do
    let p ← iPerm0[k.2]?
    s.put k.1 (newPos nPi0 nPi p)) s

/-- `while(bv[pos]) pos++;` with a bound on the number of rounds. -/
def nextFree (bv : List Bool) : ℕ → ℕ → Option ℕ
  | 0, _ => none
  | fuel + 1, pos =>
      match bv[pos]? with
      | none => none
      | some true => nextFree bv fuel (pos + 1)
      | some false => some pos

/-- One input of the second loop, with the cursor `pos`. -/
def fillStep (s : PlaceSt × ℕ) (i : ℕ) : Option (PlaceSt × ℕ) := do
  match ← s.1.arrays.iPerm[i]? with
  | some _ => return s
  | none =>
      let pos ← nextFree s.1.bv (s.1.bv.length + 1) s.2
      return (← s.1.put i pos, pos)

/-- `readInfo` once both files have been parsed, with its assertions on what they hold. -/
def placeInputs (abc : AbcAig) (pNtk : Ntk) (kids iPerm0 : List ℕ) (nTimeFrame : ℕ) :
    Option (Ntk × List ℕ × List ℕ) := do
  if kids.length ≤ iPerm0.length ∧ iPerm0.length % nTimeFrame = 0 ∧
      ∀ i < iPerm0.length, kids.length ≤ i → iPerm0.getD i 0 = i then
    let nCi := pNtk.nPi
    let nPi := nCi / nTimeFrame
    let nPi0 := iPerm0.length / nTimeFrame
    let s ← placeKids nPi0 nPi kids iPerm0 ⟨.empty nCi, List.replicate nCi false⟩
    let (s, _) ← (List.range nCi).foldlM fillStep (s, 0)
    applyPerm abc pNtk s.arrays
  else none

def readInfo (abc : AbcAig) (pNtk : Ntk) (splitInfo permInfo : List Char) (nTimeFrame : ℕ) :
    Option (Ntk × List ℕ × List ℕ) := do
  let kids ← parseInfo splitInfo "p0-i:".toList
  let iPerm0 ← parseInfo permInfo "#iPerm:".toList
  placeInputs abc pNtk kids iPerm0 nTimeFrame

/-- The marks are the positions in use. -/
structure PlaceInv (n : ℕ) (s : PlaceSt) : Prop where
  inverse : s.arrays.Inverse n
  length : s.bv.length = n
  used : ∀ pos, s.bv[pos]? = some true ↔ ∃ j, s.arrays.At j pos

theorem placeInv_empty (n : ℕ) : PlaceInv n ⟨.empty n, List.replicate n false⟩ where
  inverse := PermArrays.inverse_empty n
  length := List.length_replicate
  used pos := by simp [PermArrays.At, PermArrays.empty, List.getElem?_replicate]

theorem PlaceInv.put {n : ℕ} {s : PlaceSt} (h : PlaceInv n s) {j pos : ℕ} (hj : j < n)
    (hpos : pos < n) (hfree : ∀ p, ¬ s.arrays.At j p) (hfree' : ∀ i, ¬ s.arrays.At i pos) :
    ∃ s', s.put j pos = some s' ∧ PlaceInv n s' ∧
      ∀ i p, s'.arrays.At i p ↔ s.arrays.At i p ∨ (i = j ∧ p = pos) := by
  obtain ⟨arrays, hput, hinv, hat⟩ := h.inverse.put hj hpos hfree hfree'
  have hlt : pos < s.bv.length := h.length.symm ▸ hpos
  refine ⟨⟨arrays, s.bv.set pos true⟩, by simp [PlaceSt.put, hput, hlt],
    ⟨hinv, by simpa using h.length, fun p => ?_⟩, hat⟩
  show (s.bv.set pos true)[p]? = some true ↔ ∃ i, arrays.At i p
  by_cases hp : p = pos
  · subst hp
    rw [List.getElem?_set_self hlt]
    exact iff_of_true rfl ⟨j, (hat j p).mpr (Or.inr ⟨rfl, rfl⟩)⟩
  · rw [List.getElem?_set_ne (Ne.symm hp), h.used]
    refine exists_congr fun i => ?_
    rw [hat]
    simp [hp]

theorem newPos_inj {nPi0 nPi p q : ℕ} (h0 : 0 < nPi0) (hle : nPi0 ≤ nPi)
    (h : newPos nPi0 nPi p = newPos nPi0 nPi q) : p = q := by
  obtain ⟨hdiv, hmod⟩ := frame_pin_inj ((Nat.mod_lt p h0).trans_le hle)
    ((Nat.mod_lt q h0).trans_le hle) h
  rw [← Nat.div_add_mod p nPi0, ← Nat.div_add_mod q nPi0, hdiv, hmod]

theorem newPos_lt {nPi0 nPi T p : ℕ} (hle : nPi0 ≤ nPi) (hp : p < nPi0 * T) :
    newPos nPi0 nPi p < nPi * T := by
  have h0 : 0 < nPi0 := Nat.pos_of_mul_pos_right (Nat.zero_lt_of_lt hp)
  have hmod := (Nat.mod_lt p h0).trans_le hle
  have hdiv : p / nPi0 + 1 ≤ T := Nat.div_lt_of_lt_mul hp
  calc newPos nPi0 nPi p < p / nPi0 * nPi + nPi := Nat.add_lt_add_left hmod _
    _ = nPi * (p / nPi0 + 1) := by ring
    _ ≤ nPi * T := Nat.mul_le_mul_left nPi hdiv

section ReadInfo

variable {nPi0 nPi T : ℕ} {kids iPerm0 : List ℕ}

/-- The placement of the inputs of the partial fold. -/
theorem placeKids_spec {n : ℕ} (hn : n = nPi * T) (hnd : kids.Nodup) (hlt : ∀ k ∈ kids, k < n)
    (hle : kids.length ≤ nPi0 * T) (hnPi : nPi0 ≤ nPi)
    (hperm : iPerm0.Perm (List.range (nPi0 * T))) :
    ∃ s, placeKids nPi0 nPi kids iPerm0 ⟨.empty n, List.replicate n false⟩ = some s ∧
      PlaceInv n s ∧ ∀ i p, s.arrays.At i p ↔
        ∃ k : ℕ, kids[k]? = some i ∧ p = newPos nPi0 nPi (iPerm0.getD k 0) := by
  have hlen : iPerm0.length = nPi0 * T := by simpa using hperm.length_eq
  have hnd0 : iPerm0.Nodup := hperm.nodup_iff.mpr List.nodup_range
  obtain ⟨s, hrun, hs, hat⟩ := foldlM_some (l := kids.zipIdx)
    (b := (⟨.empty n, List.replicate n false⟩ : PlaceSt))
    (f := fun s k => (iPerm0[k.2]?).bind fun p => s.put k.1 (newPos nPi0 nPi p))
    (fun pre s => PlaceInv n s ∧ ∀ i p, s.arrays.At i p ↔
      ∃ k, (i, k) ∈ pre ∧ p = newPos nPi0 nPi (iPerm0.getD k 0))
    (by
      rintro pre ⟨kid, k⟩ post s hsplit ⟨hs, hat⟩
      obtain ⟨hkid, hpre⟩ := zipIdx_split hsplit
      have hk : k < kids.length := (List.getElem?_eq_some_iff.mp hkid).1
      have hk0 : k < iPerm0.length := by rw [hlen]; exact hk.trans_le hle
      have hget : iPerm0[k]? = some (iPerm0.getD k 0) := by
        rw [List.getD_eq_getElem _ _ hk0, List.getElem?_eq_getElem hk0]
      have hp0 : iPerm0.getD k 0 < nPi0 * T := by
        rw [List.getD_eq_getElem _ _ hk0]
        exact List.mem_range.mp (hperm.mem_iff.mp (List.getElem_mem hk0))
      have h0 : 0 < nPi0 := Nat.pos_of_mul_pos_right (Nat.zero_lt_of_lt hp0)
      obtain ⟨s', hput, hs', hat'⟩ := hs.put (hlt kid (List.mem_of_getElem? hkid))
        (hn.symm ▸ newPos_lt hnPi hp0)
        (by
          intro p hp
          obtain ⟨m, hm, -⟩ := (hat kid p).mp hp
          obtain ⟨hmk, hkid'⟩ := hpre kid m hm
          rw [← hkid'] at hkid
          exact Nat.ne_of_gt hmk ((List.getElem?_inj hk hnd).mp hkid))
        (by
          intro i hi
          obtain ⟨m, hm, heq⟩ := (hat i _).mp hi
          have hmk := (hpre i m hm).1
          have hm0 := hmk.trans hk0
          have hval := newPos_inj h0 hnPi heq
          rw [List.getD_eq_getElem _ _ hk0, List.getD_eq_getElem _ _ hm0] at hval
          exact Nat.ne_of_gt hmk ((List.Nodup.getElem_inj_iff hnd0).mp hval))
      refine ⟨s', by simp only [hget, Option.bind_some, hput], hs', fun i p => ?_⟩
      rw [hat', hat]
      constructor
      · rintro (⟨m, hm, rfl⟩ | ⟨rfl, rfl⟩)
        · exact ⟨m, List.mem_append_left _ hm, rfl⟩
        · exact ⟨k, by simp, rfl⟩
      · rintro ⟨m, hm, rfl⟩
        rcases List.mem_append.mp hm with hm | hm
        · exact Or.inl ⟨m, hm, rfl⟩
        · obtain ⟨rfl, rfl⟩ : i = kid ∧ m = k := by simpa using hm
          exact Or.inr ⟨rfl, rfl⟩)
    ⟨placeInv_empty n, by simp [PermArrays.At, PermArrays.empty, List.getElem?_replicate]⟩
  refine ⟨s, hrun, hs, fun i p => ?_⟩
  rw [hat]
  refine exists_congr fun k => and_congr_left fun _ => ?_
  exact List.mk_mem_zipIdx_iff_getElem?

/-- The scan stops at the first free position. -/
theorem nextFree_spec (bv : List Bool) (fuel pos : ℕ) (hfuel : bv.length < fuel + pos)
    (hfree : ∃ q, pos ≤ q ∧ bv[q]? = some false) :
    ∃ q, nextFree bv fuel pos = some q ∧ pos ≤ q ∧ bv[q]? = some false ∧
      ∀ p, pos ≤ p → p < q → bv[p]? = some true := by
  obtain ⟨q, hpq, hq⟩ := hfree
  have hqlt : q < bv.length := (List.getElem?_eq_some_iff.mp hq).1
  induction fuel generalizing pos with
  | zero => omega
  | succ fuel ih =>
      cases hb : bv[pos]? with
      | none =>
          rw [List.getElem?_eq_none_iff] at hb
          omega
      | some b =>
          cases b with
          | false =>
              exact ⟨pos, by rw [nextFree, hb], le_rfl, hb, fun p h h' => absurd h' (by omega)⟩
          | true =>
              have hne : pos ≠ q := by
                rintro rfl
                rw [hq] at hb
                cases hb
              obtain ⟨r, hrun, hr, hfr, hall⟩ := ih (pos + 1) (by omega) (by omega)
              refine ⟨r, by rw [nextFree, hb]; exact hrun, by omega, hfr, fun p h h' => ?_⟩
              rcases Nat.eq_or_lt_of_le h with rfl | hlt
              · exact hb
              · exact hall p hlt h'

/-- The second loop after the inputs `pre`; `s₀` are the arrays before it. -/
structure GapInv (n : ℕ) (s₀ : PermArrays) (pre : List ℕ) (r : PlaceSt × ℕ) : Prop where
  place : PlaceInv n r.1
  keep : ∀ {i p}, s₀.At i p → r.1.arrays.At i p
  all : ∀ i ∈ pre, ∃ p, r.1.arrays.At i p
  below : ∀ p < r.2, r.1.bv[p]? = some true
  new : ∀ {i p}, r.1.arrays.At i p → s₀.At i p ∨ (i ∈ pre ∧ p ≤ r.2)
  mono : ∀ {i i' p p'}, i < i' → ¬ s₀.At i p → ¬ s₀.At i' p' → r.1.arrays.At i p →
    r.1.arrays.At i' p' → p < p'

theorem GapInv.step {n : ℕ} {s₀ : PermArrays} {pre : List ℕ} {r : PlaceSt × ℕ}
    (h : GapInv n s₀ pre r) {i : ℕ} (hi : i < n) (hpre : ∀ a ∈ pre, a < i) :
    ∃ r', fillStep r i = some r' ∧ GapInv n s₀ (pre ++ [i]) r' := by
  obtain ⟨s, pos⟩ := r
  have hilt : i < s.arrays.iPerm.length := h.place.inverse.iLength.symm ▸ hi
  cases hget : s.arrays.iPerm[i] with
  | some p =>
      have hat : s.arrays.At i p := by
        rw [PermArrays.At, List.getElem?_eq_getElem hilt, hget]
      refine ⟨(s, pos), ?_, h.place, h.keep, fun a ha => ?_, h.below, fun ha => ?_, h.mono⟩
      · simp [fillStep, List.getElem?_eq_getElem hilt, hget]
      · rcases List.mem_append.mp ha with ha | ha
        · exact h.all a ha
        · obtain rfl := List.mem_singleton.mp ha
          exact ⟨p, hat⟩
      · exact (h.new ha).imp_right fun h' => ⟨List.mem_append_left _ h'.1, h'.2⟩
  | none =>
      have hfree : ∀ p, ¬ s.arrays.At i p := by
        intro p hp
        rw [PermArrays.At, List.getElem?_eq_getElem hilt, hget] at hp
        cases hp
      obtain ⟨q₀, hq₀, hq₀free⟩ := h.place.inverse.exists_free hi hfree
      have hmark : ∀ {p}, p < n → (∀ j, ¬ s.arrays.At j p) → s.bv[p]? = some false := by
        intro p hp hno
        have hlt : p < s.bv.length := h.place.length.symm ▸ hp
        rw [List.getElem?_eq_getElem hlt]
        cases hb : s.bv[p] with
        | false => rfl
        | true =>
            obtain ⟨j, hj⟩ := (h.place.used p).mp (by rw [List.getElem?_eq_getElem hlt, hb])
            exact absurd hj (hno j)
      obtain ⟨q, hrun, hposq, hqfree, hbelow⟩ := nextFree_spec s.bv (s.bv.length + 1) pos
        (by omega) ⟨q₀, Nat.le_of_not_lt (by
          intro hlt
          have hused : s.bv[q₀]? = some true := h.below q₀ hlt
          rw [hmark hq₀ hq₀free] at hused
          cases hused), hmark hq₀ hq₀free⟩
      have hq : q < n := h.place.length ▸ (List.getElem?_eq_some_iff.mp hqfree).1
      have hnot : ∀ j, ¬ s.arrays.At j q := by
        intro j hj
        have hused := (h.place.used q).mpr ⟨j, hj⟩
        rw [hqfree] at hused
        cases hused
      obtain ⟨s', hput, hs', hat⟩ := h.place.put hi hq hfree hnot
      have hold : ∀ {j p}, s.arrays.At j p → s'.arrays.At j p := fun hj =>
        (hat _ _).mpr (Or.inl hj)
      refine ⟨(s', q), ?_, hs', fun ha => hold (h.keep ha), fun a ha => ?_, fun p hp => ?_,
        fun ha => ?_, fun {a a' p p'} haa hna hna' ha ha' => ?_⟩
      · simp [fillStep, List.getElem?_eq_getElem hilt, hget, hrun, hput]
      · rcases List.mem_append.mp ha with ha | ha
        · obtain ⟨p, hp⟩ := h.all a ha
          exact ⟨p, hold hp⟩
        · obtain rfl := List.mem_singleton.mp ha
          exact ⟨q, (hat _ _).mpr (Or.inr ⟨rfl, rfl⟩)⟩
      · have hused : s.bv[p]? = some true := by
          rcases Nat.lt_or_ge p pos with hlt | hge
          · exact h.below p hlt
          · exact hbelow p hge hp
        obtain ⟨j, hj⟩ := (h.place.used p).mp hused
        exact (hs'.used p).mpr ⟨j, hold hj⟩
      · rcases (hat _ _).mp ha with ha | ⟨rfl, rfl⟩
        · exact (h.new ha).imp_right fun h' =>
            ⟨List.mem_append_left _ h'.1, h'.2.trans hposq⟩
        · exact Or.inr ⟨by simp, le_rfl⟩
      · rcases (hat _ _).mp ha with hb | ⟨rfl, rfl⟩ <;>
          rcases (hat _ _).mp ha' with hb' | ⟨rfl, rfl⟩
        · exact h.mono haa hna hna' hb hb'
        · -- an earlier input is at or before the old cursor, and not at the new position
          have hle := ((h.new hb).resolve_left hna).2
          refine Nat.lt_of_le_of_ne (hle.trans hposq) ?_
          rintro rfl
          exact hnot a hb
        · have hlt := hpre a' ((h.new hb').resolve_left hna').1
          omega
        · exact absurd haa (Nat.lt_irrefl _)

/-- `readInfo` keeps the frames and pins of the partial fold and spreads the other inputs over
the remaining positions in increasing order. -/
theorem readInfo_extends (abc : AbcAig) {N : Ntk} (hN : N.Ok) (hl : N.latches = [])
    (hT : 1 ≤ T) (hpi : N.nPi = nPi * T) (hnd : kids.Nodup) (hlt : ∀ k ∈ kids, k < N.nPi)
    (hle : kids.length ≤ nPi0 * T) (hnPi : nPi0 ≤ nPi)
    (hperm : iPerm0.Perm (List.range (nPi0 * T)))
    (hid : ∀ i < nPi0 * T, kids.length ≤ i → iPerm0.getD i 0 = i) :
    ∃ M iPerm invPerm, placeInputs abc N kids iPerm0 T = some (M, iPerm, invPerm) ∧
      (∀ splitInfo permInfo, parseInfo splitInfo "p0-i:".toList = some kids →
        parseInfo permInfo "#iPerm:".toList = some iPerm0 →
        readInfo abc N splitInfo permInfo T = some (M, iPerm, invPerm)) ∧
      MutuallyInverse N.nPi iPerm invPerm ∧ Rewired N M iPerm ∧
      (∀ i < kids.length, iPerm.getD (kids.getD i 0) 0 =
        iPerm0.getD i 0 / nPi0 * nPi + iPerm0.getD i 0 % nPi0) ∧
      ∀ i i', i < i' → i' < N.nPi → i ∉ kids → i' ∉ kids →
        iPerm.getD i 0 < iPerm.getD i' 0 := by
  have hlen : iPerm0.length = nPi0 * T := by simpa using hperm.length_eq
  obtain ⟨s, hkids, hs, hat⟩ := placeKids_spec hpi hnd hlt hle hnPi hperm
  obtain ⟨⟨s', pos⟩, hfill, hinv⟩ := foldlM_some (l := List.range N.nPi) (f := fillStep)
    (b := (s, 0)) (GapInv N.nPi s.arrays)
    (by
      intro pre i post r hsplit h
      have hsorted : (pre ++ i :: post).Pairwise (· < ·) := hsplit ▸ List.pairwise_lt_range
      have hi : i ∈ List.range N.nPi := by rw [← hsplit]; simp
      exact h.step (List.mem_range.mp hi) fun a ha =>
        (List.pairwise_append.mp hsorted).2.2 a ha i List.mem_cons_self)
    ⟨hs, fun h => h, by simp, by simp, fun h => Or.inl h, fun _ hna _ ha => absurd ha hna⟩
  obtain ⟨M, iPerm, invPerm, happly, hi, hmut, hrew⟩ := applyPerm_spec abc hN hl
    hinv.place.inverse fun j hj => hinv.all j (List.mem_range.mpr hj)
  have hget : ∀ {j p}, s'.arrays.At j p → iPerm.getD j 0 = p := by
    intro j p hj
    rw [PermArrays.At, hi, List.getElem?_map, Option.map_eq_some_iff] at hj
    obtain ⟨q, hq, heq⟩ := hj
    simpa [List.getD, hq] using heq
  have hexists : ∀ j < N.nPi, s'.arrays.At j (iPerm.getD j 0) := by
    intro j hj
    obtain ⟨p, hp⟩ := hinv.all j (List.mem_range.mpr hj)
    rwa [hget hp]
  have hfree : ∀ {j}, j ∉ kids → ∀ p, ¬ s.arrays.At j p := by
    intro j hj p hp
    obtain ⟨k, hk, -⟩ := (hat j p).mp hp
    exact hj (List.mem_of_getElem? hk)
  have hplace : placeInputs abc N kids iPerm0 T = some (M, iPerm, invPerm) := by
    have hdiv : N.nPi / T = nPi := by rw [hpi]; exact Nat.mul_div_cancel nPi hT
    have hdiv0 : iPerm0.length / T = nPi0 := by rw [hlen]; exact Nat.mul_div_cancel nPi0 hT
    rw [placeInputs, if_pos ⟨hlen ▸ hle, by rw [hlen]; exact Nat.mul_mod_left nPi0 T,
      by rw [hlen]; exact hid⟩]
    simp only [hdiv, hdiv0, hkids, hfill, Option.bind_eq_bind, Option.bind_some]
    exact happly
  refine ⟨M, iPerm, invPerm, hplace, fun splitInfo permInfo hsplit hinfo => ?_, hmut, hrew,
    fun i hik => ?_, fun i i' hii hi' hk hk' => ?_⟩
  · simp only [readInfo, hsplit, hinfo, Option.bind_eq_bind, Option.bind_some, hplace]
  · have hk : kids[i]? = some (kids.getD i 0) := by
      rw [List.getD_eq_getElem _ _ hik, List.getElem?_eq_getElem hik]
    exact hget (hinv.keep ((hat _ _).mpr ⟨i, hk, rfl⟩))
  · exact hinv.mono hii (hfree hk _) (hfree hk' _) (hexists i (hii.trans hi')) (hexists i' hi')

end ReadInfo

/-- Four inputs in two frames; the partial fold has placed three of them. -/
def wideNtk : Ntk where
  nPi := 4
  graph := [((Obj.pi 0).lit, (Obj.pi 3).lit)]
  latches := []
  pos := [(Obj.node 0).lit]

theorem readInfo_wideNtk :
    ∃ M iPerm invPerm,
      readInfo strash wideNtk "p0-i: 3 0 1".toList "#iPerm: 2 0 1 3 \n".toList 2 =
        some (M, iPerm, invPerm) ∧
      MutuallyInverse 4 iPerm invPerm ∧ Rewired wideNtk M iPerm ∧ iPerm.getD 3 0 = 2 := by
  obtain ⟨M, iPerm, invPerm, -, hread, hmut, hrew, hkids, -⟩ :=
    readInfo_extends strash (N := wideNtk)
      ⟨⟨(by decide : 0 < 4), (by decide : 3 < 4), trivial⟩, by simp [wideNtk],
        by simp [wideNtk, Obj.Ok, Obj.lit]⟩
      rfl (by decide) (show wideNtk.nPi = 2 * 2 from rfl)
      (show [3, 0, 1].Nodup by decide) (by decide) (by decide) (by decide)
      (show [2, 0, 1, 3].Perm (List.range (2 * 2)) by decide) (by decide)
  exact ⟨M, iPerm, invPerm, hread _ _ (by decide) (by decide), hmut, hrew, hkids 0 (by decide)⟩

end ExtFolding.TimeMux4
