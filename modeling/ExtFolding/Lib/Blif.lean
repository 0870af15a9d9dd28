import Mathlib.Tactic

/-!
# BLIF netlists

A netlist with latches whose logic is given by covers: the rows of a `.names` block are cubes
over its input nets, in the phase that the last column tells. A run assigns a value to every
net in every cycle.
-/

namespace ExtFolding

/-- A cube of characters `0`, `1` and `-` over a list of values. -/
def cubeHolds (cube : List Char) (vals : List Bool) : Bool :=
  (cube.zip vals).all fun p => p.1 = '-' || p.1 = if p.2 then '1' else '0'

theorem cubeHolds_append {a b : List Char} {x y : List Bool} (h : a.length = x.length) :
    cubeHolds (a ++ b) (x ++ y) = (cubeHolds a x && cubeHolds b y) := by
  unfold cubeHolds
  rw [List.zip_append h, List.all_append]

theorem cubeHolds_dashes (n : ℕ) (x : List Bool) : cubeHolds (List.replicate n '-') x = true := by
  refine List.all_eq_true.mpr fun p hp => ?_
  rw [List.eq_of_mem_replicate (List.of_mem_zip hp).1]
  rfl

/-- A cube without dashes holds for one vector. -/
theorem cubeHolds_bits {a x : List Bool} (h : a.length = x.length) :
    cubeHolds (a.map fun b => if b then '1' else '0') x = true ↔ a = x := by
  induction a generalizing x with
  | nil => simp [cubeHolds, List.length_eq_zero_iff.mp h.symm]
  | cons b a ih =>
      cases x with
      | nil => simp at h
      | cons c x =>
          have hc : cubeHolds ((b :: a).map fun b => if b then '1' else '0') (c :: x) =
              (decide (b = c) && cubeHolds (a.map fun b => if b then '1' else '0') x) := by
            cases b <;> cases c <;> rfl
          rw [hc, Bool.and_eq_true, decide_eq_true_eq, ih (Nat.succ.inj h), List.cons.injEq]

/-- A `.names` block. -/
structure Blif.Names (σ : Type) where
  ins : List σ
  out : σ
  rows : List (List Char × Char)
deriving DecidableEq, Repr

structure Blif.Latch (σ : Type) where
  input : σ
  output : σ
  init : Char
deriving DecidableEq, Repr

structure Blif (σ : Type) where
  inputs : List σ
  outputs : List σ
  latches : List (Blif.Latch σ)
  names : List (Blif.Names σ)
deriving DecidableEq, Repr

section

variable {σ : Type}

/-- The sum of the cubes, complemented when the rows list the off-set. -/
def Blif.Names.value (c : Blif.Names σ) (env : σ → Bool) : Bool :=
  let on := c.rows.any fun r => cubeHolds r.1 (c.ins.map env)
  if c.rows.any (fun r => r.2 = '0') then !on else on

namespace Blif

variable (b : Blif σ)

/-- No line of the netlist gives `n` a value. -/
def Undriven (n : σ) : Prop :=
  n ∉ b.inputs ∧ (∀ l ∈ b.latches, l.output ≠ n) ∧ ∀ c ∈ b.names, c.out ≠ n

/-- `env t` are the values of the nets in cycle `t`, where `inp t` is on the inputs. -/
structure Run (inp : ℕ → ℕ → Bool) (env : ℕ → σ → Bool) : Prop where
  inputs : ∀ t i n, b.inputs[i]? = some n → env t n = inp t i
  init : ∀ l ∈ b.latches, env 0 l.output = decide (l.init = '1')
  next : ∀ t, ∀ l ∈ b.latches, env (t + 1) l.output = env t l.input
  names : ∀ t, ∀ c ∈ b.names, env t c.out = c.value (env t)
  undriven : ∀ t n, b.Undriven n → env t n = false

/-- Every net is driven once and covers read inputs and latches only. -/
structure TwoLevel : Prop where
  inputs : b.inputs.Nodup
  latches : (b.latches.map Blif.Latch.output).Nodup
  names : (b.names.map Blif.Names.out).Nodup
  inputs_latches : ∀ n ∈ b.inputs, ∀ l ∈ b.latches, l.output ≠ n
  inputs_names : ∀ n ∈ b.inputs, ∀ c ∈ b.names, c.out ≠ n
  latches_names : ∀ l ∈ b.latches, ∀ c ∈ b.names, c.out ≠ l.output
  reads : ∀ c ∈ b.names, ∀ n ∈ c.ins, n ∈ b.inputs ∨ ∃ l ∈ b.latches, l.output = n

section Eval

variable [DecidableEq σ]

/-- The values of inputs and latch outputs. -/
def leaves (x st : ℕ → Bool) (n : σ) : Bool :=
  if n ∈ b.inputs then x (b.inputs.idxOf n)
  else if n ∈ b.latches.map Blif.Latch.output then st ((b.latches.map Blif.Latch.output).idxOf n)
  else false

/-- The values of all nets. -/
def nets (x st : ℕ → Bool) (n : σ) : Bool :=
  match b.names.find? fun c => c.out = n with
  | some c => c.value (b.leaves x st)
  | none => b.leaves x st n

/-- The contents of the latches. -/
def stateAt (inp : ℕ → ℕ → Bool) : ℕ → ℕ → Bool
  | 0, k => (b.latches[k]?.map fun l => decide (l.init = '1')).getD false
  | t + 1, k => (b.latches[k]?.map fun l => b.nets (inp t) (stateAt inp t) l.input).getD false

variable {b}

theorem nets_of_not_name {x st : ℕ → Bool} {n : σ} (h : ∀ c ∈ b.names, c.out ≠ n) :
    b.nets x st n = b.leaves x st n := by
  unfold nets
  rw [List.find?_eq_none.mpr fun c hc => by simpa using h c hc]

theorem nets_input (hb : b.TwoLevel) {x st : ℕ → Bool} {i : ℕ} {n : σ}
    (h : b.inputs[i]? = some n) : b.nets x st n = x i := by
  obtain ⟨hi, rfl⟩ := List.getElem?_eq_some_iff.mp h
  rw [nets_of_not_name (hb.inputs_names _ (List.getElem_mem hi)), leaves,
    if_pos (List.getElem_mem hi), hb.inputs.idxOf_getElem]

theorem nets_latch (hb : b.TwoLevel) {x st : ℕ → Bool} {k : ℕ} {l : Blif.Latch σ}
    (h : b.latches[k]? = some l) : b.nets x st l.output = st k := by
  obtain ⟨hk, rfl⟩ := List.getElem?_eq_some_iff.mp h
  have hmem := List.getElem_mem hk
  rw [nets_of_not_name (hb.latches_names _ hmem), leaves,
    if_neg fun hin => hb.inputs_latches _ hin _ hmem rfl, if_pos (List.mem_map_of_mem hmem)]
  have := hb.latches.idxOf_getElem k (by simpa using hk)
  rw [List.getElem_map] at this
  rw [this]

theorem nets_name (hb : b.TwoLevel) {x st : ℕ → Bool} {c : Blif.Names σ} (hc : c ∈ b.names) :
    b.nets x st c.out = c.value (b.nets x st) := by
  have hfind : b.names.find? (fun c' => c'.out = c.out) = some c := by
    obtain ⟨c', hc'⟩ : ∃ c', b.names.find? (fun c' => c'.out = c.out) = some c' :=
      Option.isSome_iff_exists.mp (List.find?_isSome.mpr ⟨c, hc, by simp⟩)
    have heq : c'.out = c.out := by simpa using List.find?_some hc'
    rw [hc', List.inj_on_of_nodup_map hb.names (List.mem_of_find?_eq_some hc') hc heq]
  have hins : c.ins.map (b.leaves x st) = c.ins.map (b.nets x st) := by
    refine List.map_congr_left fun n hn => (nets_of_not_name ?_).symm
    rcases hb.reads c hc n hn with h | ⟨l, hl, rfl⟩
    · exact hb.inputs_names n h
    · exact hb.latches_names l hl
  have hval : c.value (b.leaves x st) = c.value (b.nets x st) := by
    unfold Blif.Names.value
    rw [hins]
  rw [← hval]
  show (match b.names.find? fun c' => c'.out = c.out with
    | some c => c.value (b.leaves x st)
    | none => b.leaves x st c.out) = _
  rw [hfind]

/-- A two-level netlist runs on every input sequence. -/
theorem exists_run (hb : b.TwoLevel) (inp : ℕ → ℕ → Bool) : ∃ env, b.Run inp env := by
  refine ⟨fun t => b.nets (inp t) (b.stateAt inp t), ?_, ?_, ?_, ?_, ?_⟩
  · intro t i n h
    exact nets_input hb h
  · intro l hl
    obtain ⟨k, hk⟩ := List.mem_iff_getElem?.mp hl
    show b.nets _ _ l.output = _
    rw [nets_latch hb hk, stateAt, hk]
    rfl
  · intro t l hl
    obtain ⟨k, hk⟩ := List.mem_iff_getElem?.mp hl
    show b.nets _ _ l.output = _
    rw [nets_latch hb hk, stateAt, hk]
    rfl
  · intro t c hc
    exact nets_name hb hc
  · intro t n ⟨hin, hlatch, hname⟩
    show b.nets _ _ n = false
    rw [nets_of_not_name hname, leaves, if_neg hin, if_neg]
    rintro h
    obtain ⟨l, hl, rfl⟩ := List.mem_map.mp h
    exact hlatch l hl rfl

end Eval

/-! ## Covers -/

variable {b}

/-- `n` is the sum of the cubes over `ins`: as a cover, or constant 0 in one of its two forms. -/
def Covers (b : Blif σ) (n : σ) (ins : List σ) (cubes : List (List Char)) : Prop :=
  ⟨ins, n, cubes.map fun q => (q, '1')⟩ ∈ b.names ∨
    cubes = [] ∧ (⟨ins, n, [(List.replicate ins.length '-', '0')]⟩ ∈ b.names ∨ b.Undriven n)

theorem Run.covers {inp : ℕ → ℕ → Bool} {env : ℕ → σ → Bool} (hr : b.Run inp env) {n : σ}
    {ins : List σ} {cubes : List (List Char)} (h : b.Covers n ins cubes) (t : ℕ) :
    env t n = cubes.any fun q => cubeHolds q (ins.map (env t)) := by
  rcases h with h | ⟨rfl, h | h⟩
  · rw [hr.names t _ h, Blif.Names.value, if_neg, List.any_map]
    · rfl
    · simp
  · rw [hr.names t _ h]
    simp [Blif.Names.value, cubeHolds_dashes]
  · rw [hr.undriven t n h]
    rfl

end Blif

end

end ExtFolding
