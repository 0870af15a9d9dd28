import ExtFolding.TimeFold.FoldLoop

/-!
# The states of the backward loop are the residual functions

The hyper-function of a frame combines its outputs with the classes behind it, so two
prefixes leave the same hyper-function exactly if no continuation tells their outputs apart,
in this frame and in the later ones. By induction from the last frame, the classes before
frame `i` are the prefixes with the same outputs from frame `i` on.
-/

namespace ExtFolding.TimeFold

open ExtFolding.Utils

section Defs

variable (dd : Cudd) (order : List ℕ)

/-- The table does not tell `x` and `y` apart. -/
def SameClass (table : Table dd) (x y : Assign) : Prop :=
  ∀ e ∈ table, dd.eval e.2 x = dd.eval e.2 y

/-- The outputs of frame `i` are the same on `x` and `y`. -/
def SameOutsAt (pNodeVec : List (Option dd.Node)) (nPo i : ℕ) (x y : Assign) : Prop :=
  ∀ k < nPo, ∀ f, pNodeVec.getD (i * nPo + k) none = some f → dd.eval f x = dd.eval f y

/-- Whatever follows the inputs above level `L`, the outputs from frame `i` on agree. -/
def SameOuts (pNodeVec : List (Option dd.Node)) (nPo T i L : ℕ) (x y : Assign) : Prop :=
  ∀ z, ∀ t, i ≤ t → t < T →
    SameOutsAt dd pNodeVec nPo t (glue (cuddI order) L x z) (glue (cuddI order) L y z)

end Defs

section Classes

variable {dd : Cudd} {order : List ℕ} {pNodeVec : List (Option dd.Node)} {nPo T : ℕ}
  {x y : Assign}

theorem TableOk.sameClass_iff {L : ℕ} {table : Table dd} (h : TableOk dd order L table) {c c' : ℕ}
    {e e' : dd.Node × dd.Node} (hc : table[c]? = some e) (hc' : table[c']? = some e')
    (hx : dd.eval e.2 x = true) (hy : dd.eval e'.2 y = true) :
    SameClass dd table x y ↔ c = c' := by
  constructor
  · intro hxy
    exact h.unique hc hc' ((hxy e (List.mem_of_getElem? hc)).symm.trans hx) hy
  · rintro rfl
    rw [hc] at hc'
    cases hc'
    intro e'' he''
    obtain ⟨c'', hc''⟩ := List.mem_iff_getElem?.mp he''
    rw [Bool.eq_iff_iff]
    constructor
    · intro hx''
      obtain rfl := h.unique hc'' hc hx'' hx
      rw [hc] at hc''
      cases hc''
      exact hy
    · intro hy''
      obtain rfl := h.unique hc'' hc hy'' hy
      rw [hc] at hc''
      cases hc''
      exact hx

/-- A cut tells prefixes apart exactly if they leave different functions. -/
theorem sameClass_cut {H : dd.Node} (hcut : Cuts dd order H) (L : ℕ) :
    SameClass dd (dd.nodePathsUnderCut order H L) x y ↔
      ∀ z, dd.eval H (glue (cuddI order) L x z) = dd.eval H (glue (cuddI order) L y z) := by
  constructor
  · intro h
    obtain ⟨e, he, hx⟩ := hcut.cover L x
    exact residual_of_cuts hcut he hx ((h e he).symm.trans hx)
  · intro h e he
    rw [Bool.eq_iff_iff, hcut.paths L e he, hcut.paths L e he]
    exact forall_congr' fun z => by rw [h z]

variable {i nPi : ℕ}

/-- The inputs of a frame moved from the continuation into the prefix. -/
theorem glue_extend {lev : ℕ → ℕ} {L L' : ℕ} (hle : L ≤ L') (x z z' : Assign) :
    glue lev L' (glue lev L x z) z' = glue lev L x (glue lev L' z z') := by
  rw [← glue_glue hle (x := z) (fun v hv => (glue_of_le hv).symm)]
  exact glue_congr (fun v hv => glue_of_lt hv) _

theorem sameOuts_succ {L L' : ℕ} (hle : L ≤ L') (hi : i < T) :
    SameOuts dd order pNodeVec nPo T i L x y ↔ ∀ z,
      SameOutsAt dd pNodeVec nPo i (glue (cuddI order) L x z) (glue (cuddI order) L y z) ∧
      SameOuts dd order pNodeVec nPo T (i + 1) L' (glue (cuddI order) L x z)
        (glue (cuddI order) L y z) := by
  constructor
  · intro h z
    refine ⟨h z i le_rfl hi, fun z' t ht htT => ?_⟩
    rw [glue_extend hle, glue_extend hle]
    exact h _ t (Nat.le_of_succ_le ht) htT
  · intro h z t ht htT
    rcases Nat.eq_or_lt_of_le ht with rfl | hlt
    · exact (h z).1
    · have := (h z).2 z t hlt htT
      rwa [glue_extend hle, glue_extend hle, glue_self] at this

/-- What the hyper-function leaves: the outputs of the frame and the classes behind it. -/
theorem IsHyper.residual_iff {L vEnd : ℕ} {nsts : Table dd} {H : dd.Node}
    (h : IsHyper dd order pNodeVec nPo i nsts H) (hvEnd : vEnd ≤ order.length) (hle : L ≤ vEnd)
    (hn : TableOk dd order vEnd nsts)
    (hcausal : ∀ k < nPo, ∀ f, pNodeVec.getD (i * nPo + k) none = some f →
      DependsOn (dd.eval f) { m | cuddI order m < vEnd }) :
    (∀ z, dd.eval H (glue (cuddI order) L x z) = dd.eval H (glue (cuddI order) L y z)) ↔ ∀ z,
      SameOutsAt dd pNodeVec nPo i (glue (cuddI order) L x z) (glue (cuddI order) L y z) ∧
      SameClass dd nsts (glue (cuddI order) L x z) (glue (cuddI order) L y z) := by
  constructor
  · intro hres z
    have hres' : ∀ z', dd.eval H (glue (cuddI order) L (glue (cuddI order) L x z) z') =
        dd.eval H (glue (cuddI order) L (glue (cuddI order) L y z) z') := by
      intro z'
      rw [glue_extend le_rfl, glue_extend le_rfl, hres]
    have hbelow : ∀ m, L ≤ cuddI order m →
        glue (cuddI order) L x z m = glue (cuddI order) L y z m := fun m hm => by
      rw [glue_of_le hm, glue_of_le hm]
    exact ⟨fun k hk f hf =>
        IsHyper.eq_of_residual hvEnd hle (hcausal k hk f hf) (h.out k hk f hf) hres' hbelow,
      fun e he => IsHyper.eq_of_residual hvEnd hle (hn.dep e he) (h.next e he) hres' hbelow⟩
  · intro hz z
    refine h.only (fun m hm => ?_) (hz z).1 (hz z).2
    have hLm : L ≤ cuddI order m := (hle.trans hvEnd).trans hm
    rw [glue_of_le hLm, glue_of_le hLm]

variable {B : List dd.Node} {nB : ℕ} {G : STG} {tab : ℕ → Table dd}

theorem Folded.table (h : Folded dd order pNodeVec B nB nPi nPo T G tab) (hi : i ≤ T) :
    TableOk dd order (i * nPi) (tab i) := by
  obtain ⟨rows, hlay⟩ := h.layers
  have := hlay.table i (h.frames.symm ▸ hi)
  rwa [h.pins] at this

/-- The classes before frame `i` are the prefixes with the same outputs from frame `i` on. -/
theorem Folded.sameClass_iff (h : Folded dd order pNodeVec B nB nPi nPo T G tab) (hi : i ≤ T) :
    SameClass dd (tab i) x y ↔ SameOuts dd order pNodeVec nPo T i (i * nPi) x y := by
  -- in the dummy table everything is in one class
  have hdummy : ∀ x y, SameClass dd (bddCreateDummyState dd) x y := by
    intro x y e he
    obtain rfl : e = (dd.b1, dd.b1) := by simpa [bddCreateDummyState] using he
    rw [dd.eval_b1, dd.eval_b1]
  induction hi using Nat.decreasingInduction generalizing x y with
  | self =>
      rw [h.tables.1]
      exact iff_of_true (hdummy x y) fun _ t ht htT => absurd htT (Nat.not_lt.mpr ht)
  | of_succ i hi ih =>
      obtain ⟨size, size', hcur⟩ := h.tables.2 i hi
      unfold currentStates at hcur
      by_cases h0 : i = 0
      · subst h0
        rw [if_neg (by simp), Option.some.injEq, Prod.mk.injEq] at hcur
        rw [← hcur.1, Nat.zero_mul]
        refine iff_of_true (hdummy x y) fun z t _ _ k _ f _ => ?_
        have hglue : ∀ x : Assign, glue (cuddI order) 0 x z = z := fun x =>
          funext fun m => glue_of_le (Nat.zero_le _)
        rw [hglue, hglue]
      · have hle : i * nPi ≤ (i + 1) * nPi := Nat.mul_le_mul_right _ (Nat.le_succ i)
        have hvEnd : (i + 1) * nPi ≤ order.length := by
          rw [h.nCi, Nat.mul_comm]
          exact Nat.mul_le_mul_left _ hi
        have hn := h.table (i := i + 1) hi
        obtain ⟨H, size'', hrun, -, hH⟩ := hyper_spec (i := i) h.sign h.length hn size
        rw [if_pos h0, hrun, Option.map_some, Option.some.injEq, Prod.mk.injEq] at hcur
        rw [← hcur.1, sameClass_cut (Cuts.of_ne_b0 h.perm (hH.ne_b0 hvEnd hn)),
          Nat.mul_comm nPi, hH.residual_iff hvEnd hle hn (h.causal i hi), sameOuts_succ hle hi]
        exact forall_congr' fun z => and_congr_right' ih

end Classes

end ExtFolding.TimeFold
