import ExtFolding.TimeFold.BuildTrans

/-!
# Graphs with one layer of states a frame

Every folding method partitions the input prefixes before each frame into classes and writes
the rows of one frame after those of another. A graph of this kind has exactly one run for
every input, and the run passes through the classes that contain the input.
-/

namespace ExtFolding.TimeFold

open ExtFolding.Utils

/-- The name of class `c` before frame `t`; behind the last frame there is only `*`. -/
def layerName (T t c : ℕ) : List Char := if t = T then ['*'] else stName t c

theorem layerName_of_lt {T t : ℕ} (h : t < T) (c : ℕ) : layerName T t c = stName t c :=
  if_neg h.ne

theorem nstName_eq {T i : ℕ} (h : i < T) (n : ℕ) : nstName T i n = layerName T (i + 1) n := by
  unfold nstName layerName
  exact if_congr (by omega) rfl rfl

/-- The pins `inp` carry the inputs `x` frame by frame. -/
def Carries (order : List ℕ) (nPi T : ℕ) (x : Assign) (inp : ℕ → ℕ → Bool) : Prop :=
  ∀ t < T, Slice order (t * nPi) ((t + 1) * nPi) x (inp t)

/-- `tab t` are the classes before frame `t`, `rows t` the rows of frame `t`, and `fs` is the
order in which the frames were written. -/
structure Layers (dd : Cudd) (order : List ℕ) (pNodeVec : List (Option dd.Node)) (nPo : ℕ)
    (G : STG) (tab : ℕ → Table dd) (rows : ℕ → List TransRow) (fs : List ℕ) : Prop where
  pos : 1 ≤ G.nTimeFrame
  first : tab 0 = bddCreateDummyState dd
  last : tab G.nTimeFrame = bddCreateDummyState dd
  table : ∀ t ≤ G.nTimeFrame, TableOk dd order (t * G.nPi) (tab t)
  frame : ∀ t < G.nTimeFrame, FrameRows dd order pNodeVec nPo t (tab t) (tab (t + 1)) G (rows t)
  perm : fs.Perm (List.range G.nTimeFrame)
  transs : G.transs = fs.flatMap rows

namespace Layers

variable {dd : Cudd} {order : List ℕ} {pNodeVec : List (Option dd.Node)} {nPo : ℕ} {G : STG}
  {tab : ℕ → Table dd} {rows : ℕ → List TransRow} {fs : List ℕ}
  (h : Layers dd order pNodeVec nPo G tab rows fs)
include h

theorem mem_frames {t : ℕ} : t ∈ fs ↔ t < G.nTimeFrame := by
  rw [h.perm.mem_iff, List.mem_range]

theorem mem_transs {r : TransRow} : r ∈ G.transs ↔ ∃ t < G.nTimeFrame, r ∈ rows t := by
  rw [h.transs, List.mem_flatMap]
  exact exists_congr fun t => and_congr_left' h.mem_frames

/-- The rows of a state are among those of its frame. -/
theorem matching_eq {t : ℕ} (ht : t < G.nTimeFrame) (c : ℕ) (v : ℕ → Bool) :
    G.matching (stName t c) v =
      (rows t).filter fun r => r.cst = stName t c ∧ accepts r.input v := by
  obtain ⟨pre, post, hfs⟩ := List.append_of_mem (h.mem_frames.mpr ht)
  have hnd : (pre ++ t :: post).Nodup := hfs ▸ h.perm.nodup_iff.mpr List.nodup_range
  obtain ⟨-, hnot, hdis⟩ := List.nodup_append.mp hnd
  have hother : ∀ l : List ℕ, (∀ u ∈ l, u ∈ fs ∧ u ≠ t) →
      (l.flatMap rows).filter (fun r => r.cst = stName t c ∧ accepts r.input v) = [] := by
    intro l hl
    apply filter_other
    intro r hr heq
    obtain ⟨u, hu, hr⟩ := List.mem_flatMap.mp hr
    obtain ⟨hufs, hut⟩ := hl u hu
    obtain ⟨c', -, -, -, hcst, -⟩ := (h.frame u (h.mem_frames.mp hufs)).names r hr
    exact hut (stName_inj (hcst.symm.trans heq)).1
  have hpre := hother pre fun u hu => ⟨by simp [hfs, hu], hdis u hu t List.mem_cons_self⟩
  have hpost := hother post fun u hu => ⟨by simp [hfs, hu], fun hut =>
    (List.nodup_cons.mp hnot).1 (hut ▸ hu)⟩
  rw [STG.matching, h.transs, hfs, List.flatMap_append, List.flatMap_cons, List.filter_append,
    List.filter_append, hpre, hpost, List.nil_append, List.append_nil]

/-- A member of a class, with its pins. -/
theorem exists_mem {t c : ℕ} (ht : t ≤ G.nTimeFrame) (hc : c < (tab t).length) :
    ∃ e x, (tab t)[c]? = some e ∧ dd.eval e.2 x = true := by
  have he := List.getElem?_eq_getElem hc
  obtain ⟨x, hx⟩ := dd.ne_b0_iff.mp ((h.table t ht).nonzero _ (List.mem_of_getElem? he))
  exact ⟨_, x, he, hx⟩

/-- The states with rows are the classes. -/
theorem exists_row_iff (hord : order.Perm (List.range order.length)) {t : ℕ}
    (ht : t < G.nTimeFrame) {c : ℕ} :
    (∃ r ∈ G.transs, r.cst = stName t c) ↔ c < (tab t).length := by
  constructor
  · rintro ⟨r, hr, hcst⟩
    obtain ⟨t', ht', hr⟩ := h.mem_transs.mp hr
    obtain ⟨c', hc', -, -, hcst', -⟩ := (h.frame t' ht').names r hr
    obtain ⟨rfl, rfl⟩ := stName_inj (hcst'.symm.trans hcst)
    exact hc'
  · intro hc
    obtain ⟨e, x, he, hx⟩ := h.exists_mem ht.le hc
    obtain ⟨v, hv⟩ := exists_slice hord (t * G.nPi) ((t + 1) * G.nPi) x
    obtain ⟨-, -, r, -, -, hr, -⟩ := (h.frame t ht).step hv c e he hx
    have hmem := List.mem_filter.mp (hr ▸ List.mem_singleton_self r)
    exact ⟨r, h.mem_transs.mpr ⟨t, ht, hmem.1⟩, (of_decide_eq_true hmem.2).1⟩

/-- In every state of a frame one row matches, whatever is on the pins. -/
theorem exists_matching {t c : ℕ} (ht : t < G.nTimeFrame) (hc : c < (tab t).length)
    (v : ℕ → Bool) : ∃ r, G.matching (stName t c) v = [r] := by
  obtain ⟨e, x, he, hx⟩ := h.exists_mem ht.le hc
  -- a member of the class with these pins
  let y : Assign := fun m => if InFrame order (t * G.nPi) ((t + 1) * G.nPi) m then
    v (cuddI order m - t * G.nPi) else x m
  have hv : Slice order (t * G.nPi) ((t + 1) * G.nPi) y v := fun m hm => (if_pos hm).symm
  have hy : dd.eval e.2 y = true := by
    rw [← hx]
    apply (h.table t ht.le).dep e (List.mem_of_getElem? he)
    intro m hm
    exact if_neg fun hf => Nat.not_lt.mpr hf.1 hm
  obtain ⟨-, -, r, -, -, hr, -⟩ := (h.frame t ht).step hv c e he hy
  exact ⟨r, by rw [h.matching_eq ht, hr]⟩

section Run

variable {x : Assign} {inp : ℕ → ℕ → Bool} (hx : Carries order G.nPi G.nTimeFrame x inp)
include hx

/-- In a class that contains the input, one row matches and leads to a class that contains
the input. -/
theorem step {t : ℕ} (ht : t < G.nTimeFrame) {c : ℕ} {e : dd.Node × dd.Node}
    (hc : (tab t)[c]? = some e) (he : dd.eval e.2 x = true) :
    ∃ (n : ℕ) (e' : dd.Node × dd.Node) (r : TransRow), (tab (t + 1))[n]? = some e' ∧
      dd.eval e'.2 x = true ∧ G.matching (layerName G.nTimeFrame t c) (inp t) = [r] ∧
      r.nst = layerName G.nTimeFrame (t + 1) n ∧ r.output = frameChars dd pNodeVec nPo t x := by
  obtain ⟨n, e', r, hn, he', hr, hnst, hout⟩ := (h.frame t ht).step (hx t ht) c e hc he
  refine ⟨n, e', r, hn, he', ?_, by rw [hnst, nstName_eq ht], hout⟩
  rw [layerName_of_lt ht, h.matching_eq ht, hr]

/-- The run passes through the classes of the input. -/
theorem exists_state {t : ℕ} (ht : t ≤ G.nTimeFrame) :
    ∃ (c : ℕ) (e : dd.Node × dd.Node), (tab t)[c]? = some e ∧ dd.eval e.2 x = true ∧
      G.stateAt inp t = some (layerName G.nTimeFrame t c) := by
  induction t with
  | zero =>
      refine ⟨0, (dd.b1, dd.b1), by rw [h.first]; rfl, dd.eval_b1 x, ?_⟩
      rw [layerName_of_lt h.pos]
      rfl
  | succ t ih =>
      obtain ⟨c, e, hc, he, hst⟩ := ih (Nat.le_of_succ_le ht)
      obtain ⟨n, e', r, hn, he', hr, hnst, -⟩ := h.step hx ht hc he
      refine ⟨n, e', hn, he', ?_⟩
      rw [STG.stateAt, hst]
      simp only [Option.bind_eq_bind, Option.bind_some, hr, hnst]

theorem stateAt_eq {t : ℕ} (ht : t ≤ G.nTimeFrame) {c : ℕ} {e : dd.Node × dd.Node}
    (hc : (tab t)[c]? = some e) (he : dd.eval e.2 x = true) :
    G.stateAt inp t = some (layerName G.nTimeFrame t c) := by
  obtain ⟨c', e', hc', he', hst⟩ := h.exists_state hx ht
  rwa [(h.table t ht).unique hc hc' he he']

/-- The only run of the graph on `x`, and what it shows. -/
theorem run : ∃ s : ℕ → List Char, s G.nTimeFrame = ['*'] ∧
    ∀ t < G.nTimeFrame, G.stateAt inp t = some (s t) ∧ (∃ c, s t = stName t c) ∧
      ∃ r, G.matching (s t) (inp t) = [r] ∧ r.nst = s (t + 1) ∧
        r.output = frameChars dd pNodeVec nPo t x := by
  choose! c e hc he hst using fun t (ht : t ≤ G.nTimeFrame) => h.exists_state hx ht
  refine ⟨fun t => layerName G.nTimeFrame t (c t), if_pos rfl, fun t ht => ?_⟩
  refine ⟨hst t ht.le, ⟨c t, layerName_of_lt ht _⟩, ?_⟩
  obtain ⟨n, e', r, hn, he', hr, hnst, hout⟩ := h.step hx ht (hc t ht.le) (he t ht.le)
  refine ⟨r, hr, ?_, hout⟩
  rw [hnst, (h.table (t + 1) ht).unique hn (hc (t + 1) ht) he' (he (t + 1) ht)]

end Run

end Layers

end ExtFolding.TimeFold
