import ExtFolding.TimeFold.BuildTrans
import ExtFolding.Utils.Robdd

/-!
# The rows of one transition

`buildTrans` hands the product of the encoded outputs and of the path to a next state to
`addOneTrans`. The codes tell the outputs apart below the frame, so the rows that are printed make
up the path, without overlap and with the outputs on each of their inputs.
-/

namespace ExtFolding.TimeFold

open ExtFolding.Utils

section Rows

variable {dd : Cudd} {order : List ℕ} {vStart vEnd : ℕ}

/-- The values `v` on the levels from `vStart` on. -/
def frameAssign (order : List ℕ) (vStart : ℕ) (v : ℕ → Bool) : Assign :=
  fun m => v (cuddI order m - vStart)

theorem slice_frameAssign (v : ℕ → Bool) :
    Slice order vStart vEnd (frameAssign order vStart v) v := fun _ _ => rfl

/-- `rows` are the transition relation: their inputs are disjoint and make up `path`, and their
outputs are those of `oFuncs`. -/
structure TransRows (dd : Cudd) (order : List ℕ) (vStart nPi : ℕ) (path : dd.Node)
    (oFuncs : List (Option dd.Node)) (rows : List TransRow) : Prop where
  columns : ∀ r ∈ rows, Column nPi r.input ∧ Column oFuncs.length r.output
  disjoint : rows.Pairwise fun r r' =>
    ∀ v, ¬ (accepts r.input v = true ∧ accepts r'.input v = true)
  union : ∀ v, (∃ r ∈ rows, accepts r.input v = true) ↔
    dd.eval path (frameAssign order vStart v) = true
  output : ∀ r ∈ rows, ∀ v, accepts r.input v = true → ∀ (k : ℕ) (f : dd.Node),
    oFuncs[k]? = some (some f) →
      r.output[k]? = some (bitChar (dd.eval f (frameAssign order vStart v)))

theorem transRows_of_rowsFor {G path : dd.Node} {oFuncs : List (Option dd.Node)}
    {cst nst : List Char} {rows : List TransRow}
    (h : RowsFor dd order vStart vEnd G oFuncs cst nst rows)
    (hact : ∀ x, Active dd order vEnd G x ↔ dd.eval path x = true) :
    TransRows dd order vStart (vEnd - vStart) path oFuncs rows := by
  -- the rows that match an input
  have hcases : ∀ v, (∃ r, rows.filter (fun r => accepts r.input v) = [r] ∧
      r.output = outChars dd oFuncs (frameAssign order vStart v) ∧
      dd.eval path (frameAssign order vStart v) = true) ∨
      (rows.filter (fun r => accepts r.input v) = [] ∧
        ¬ dd.eval path (frameAssign order vStart v) = true) := by
    intro v
    by_cases hv : Active dd order vEnd G (frameAssign order vStart v)
    · obtain ⟨r, hr, hout⟩ := h.active _ v (slice_frameAssign v) hv
      exact Or.inl ⟨r, hr, hout, (hact _).mp hv⟩
    · exact Or.inr ⟨h.inactive _ v (slice_frameAssign v) hv, mt (hact _).mpr hv⟩
  refine ⟨h.columns, ?_, fun v => ?_, fun r hr v hv k f hk => ?_⟩
  · rw [List.pairwise_iff_forall_sublist]
    intro r r' hsub v
    refine not_both_of_filter (p := fun r => accepts r.input v) hsub ?_
    rcases hcases v with ⟨q, hq, -⟩ | ⟨hq, -⟩ <;> rw [hq] <;> simp
  · constructor
    · rintro ⟨r, hr, hv⟩
      rcases hcases v with ⟨q, -, -, hpath⟩ | ⟨hq, -⟩
      · exact hpath
      · exact absurd (List.mem_filter.mpr ⟨hr, hv⟩) (by rw [hq]; exact List.not_mem_nil)
    · intro hpath
      rcases hcases v with ⟨q, hq, -, -⟩ | ⟨-, hno⟩
      · obtain ⟨hr, hv⟩ := List.mem_filter.mp (hq ▸ List.mem_singleton_self q)
        exact ⟨q, hr, hv⟩
      · exact absurd hpath hno
  · have hmem : r ∈ rows.filter (fun r => accepts r.input v) := List.mem_filter.mpr ⟨hr, hv⟩
    rcases hcases v with ⟨q, hq, hout, -⟩ | ⟨hq, -⟩
    · rw [hq, List.mem_singleton] at hmem
      rw [hmem, hout, outChars, List.getElem?_map, hk]
      rfl
    · rw [hq] at hmem
      exact absurd hmem List.not_mem_nil

end Rows

/-- `addOneTrans` ends without a failed assertion and enumerates the transition relation: `path` is
a function of the inputs of frame `i`, and the output functions are encoded by distinct codes over
variables below them. -/
theorem addOneTrans_exact {dd : Cudd} {order : List ℕ} {size : ℕ}
    (hord : order.Perm (List.range order.length)) (hsize : order.length ≤ size) (stg : STG) {i : ℕ}
    (hin : (i + 1) * stg.nPi ≤ order.length) {path : dd.Node} {oFuncs : List (Option dd.Node)}
    {B : List dd.Node}
    (hpath : DependsOn (dd.eval path) { m | InFrame order (i * stg.nPi) ((i + 1) * stg.nPi) m })
    (hdep : ∀ f, some f ∈ oFuncs →
      DependsOn (dd.eval f) { m | InFrame order (i * stg.nPi) ((i + 1) * stg.nPi) m })
    (hB : Codes dd order ((i + 1) * stg.nPi) B) (hlen : B.length = oFuncs.length * 2)
    (cCnt nCnt : ℕ) :
    ∃ rows, stg.addOneTrans dd order size
        (dd.bddAnd (encodeOutputs dd B oFuncs.length oFuncs).2 path) oFuncs i cCnt nCnt =
        some { stg with transs := stg.transs ++ rows } ∧
      TransRows dd order (i * stg.nPi) stg.nPi path oFuncs rows := by
  have hle : i * stg.nPi ≤ (i + 1) * stg.nPi := Nat.mul_le_mul_right _ (Nat.le_succ i)
  have hvars : ∀ m, InFrame order (i * stg.nPi) ((i + 1) * stg.nPi) m → m < size := fun m hm =>
    ((cuddI_lt hord).mp (hm.2.trans_le hin)).trans_le hsize
  obtain ⟨rows, hrun, hrows⟩ := STG.addOneTrans_spec size hord stg hvars
    (transOk_encode hB hlen rfl hdep hle hpath) cCnt nCnt
  refine ⟨rows, hrun, ?_⟩
  have hwidth : (i + 1) * stg.nPi - i * stg.nPi = stg.nPi := by
    rw [← Nat.sub_mul, Nat.add_sub_cancel_left, Nat.one_mul]
  have := transRows_of_rowsFor hrows (active_iff hB hlen rfl hdep hpath)
  rwa [hwidth] at this

/-- One input that is shown at the output. -/
theorem addOneTrans_exact_pin : ∃ (B : List Robdd.abcBdd.Node) (rows : List TransRow),
    STG.addOneTrans Robdd.abcBdd.toCudd [0] 2 ⟨1, 1, 1, 1, 1, 0, []⟩
      (Robdd.abcBdd.bddAnd (encodeOutputs Robdd.abcBdd.toCudd B 1
        [some (Robdd.abcBdd.ithVar 0)]).2 Robdd.abcBdd.b1)
      [some (Robdd.abcBdd.ithVar 0)] 0 0 0 = some ⟨1, 1, 1, 1, 1, 0, rows⟩ ∧
    TransRows Robdd.abcBdd.toCudd [0] 0 1 Robdd.abcBdd.b1 [some (Robdd.abcBdd.ithVar 0)] rows := by
  obtain ⟨B, -, hlen, hB⟩ := @bddComputeSign_spec Robdd.abcBdd.toCudd 1 2 (by decide)
  have hframe : InFrame [0] 0 1 0 := by decide
  obtain ⟨rows, hrun, hrows⟩ := @addOneTrans_exact Robdd.abcBdd.toCudd [0] 2 (by decide)
    (by decide) ⟨1, 1, 1, 1, 1, 0, []⟩ 0 (by decide) Robdd.abcBdd.b1
    [some (Robdd.abcBdd.ithVar 0)] B
    (fun x y _ => (Robdd.abcBdd.eval_b1 x).trans (Robdd.abcBdd.eval_b1 y).symm)
    (fun f hf x y hxy => by
      rw [Option.some.inj (List.mem_singleton.mp hf), Robdd.abcBdd.eval_ithVar,
        Robdd.abcBdd.eval_ithVar]
      exact hxy 0 hframe)
    (codes_of_isSign hB (by decide)) hlen 0 0
  exact ⟨B, rows, hrun, hrows⟩

end ExtFolding.TimeFold
