import ExtFolding.Lib.Cube

/-!
# Cubes as sets of assignments

A cube stands for the assignments that it holds for. Two cubes meet when no variable has
different literals in them; `meet` is their intersection, and `peel` cuts a cube into pieces
outside another one, literal by literal.
-/

namespace ExtFolding.Cube

/-- No variable has different literals. -/
def Compat (c d : Cube) : Prop := ∀ v a b, c v = some a → d v = some b → a = b

/-- The literals of both. -/
def meet (c d : Cube) : Cube := fun v => (c v).or (d v)

/-- Every literal of `d` is one of `c`. -/
def Sub (c d : Cube) : Prop := ∀ v b, d v = some b → c v = some b

variable {c d e : Cube} {x : Assign}

theorem compat_of_holds (hc : c.Holds x) (hd : d.Holds x) : Compat c d := fun v a b ha hb =>
  (hc v a ha).symm.trans (hd v b hb)

/-- Compatible cubes hold together. -/
theorem holds_meet (h : Compat c d) : (meet c d).Holds x ↔ c.Holds x ∧ d.Holds x := by
  constructor
  · intro hx
    refine ⟨fun v a ha => hx v a (by simp [meet, ha]), fun v b hb => ?_⟩
    cases hc : c v with
    | none => exact hx v b (by simp [meet, hc, hb])
    | some a =>
        rw [← h v a b hc hb]
        exact hx v a (by simp [meet, hc])
  · rintro ⟨hc, hd⟩ v b hb
    cases hcv : c v with
    | none => exact hd v b (by simpa [meet, hcv] using hb)
    | some a => exact hc v b (by simpa [meet, hcv] using hb)

theorem compat_iff_exists : Compat c d ↔ ∃ x, c.Holds x ∧ d.Holds x :=
  ⟨fun h => ⟨_, (holds_meet h).mp (holds_put (meet c d) fun _ => false)⟩,
    fun ⟨_, hc, hd⟩ => compat_of_holds hc hd⟩

theorem sub_iff : Sub c d ↔ ∀ x, c.Holds x → d.Holds x := by
  constructor
  · exact fun h x hc v b hb => hc v b (h v b hb)
  · intro h v b hb
    cases hc : c v with
    | some a =>
        have := h _ (holds_put c fun _ => false) v b hb
        rw [put_of_some hc] at this
        rw [this]
    | none =>
        have := h _ (holds_put c fun _ => !b) v b hb
        rw [put_of_none hc] at this
        cases b <;> exact absurd this (by decide)

theorem holds_inj (h : ∀ x, c.Holds x ↔ d.Holds x) : c = d := by
  have hcd := sub_iff.mpr fun x => (h x).mp
  have hdc := sub_iff.mpr fun x => (h x).mpr
  ext v b
  exact ⟨hdc v b, hcd v b⟩

/-! ## Difference -/

/-- The pieces of `last` outside `b`: at each variable of `ps` that only `b` fixes, the piece with
the other literal is cut off. -/
def peel (b : Cube) : List ℕ → Cube → List Cube
  | [], _ => []
  | p :: ps, last =>
      match last p, b p with
      | none, some v =>
          Function.update last p (some !v) :: peel b ps (Function.update last p (some v))
      | _, _ => peel b ps last

theorem holds_update {p : ℕ} {v : Bool} (hp : c p = none) :
    Holds (Function.update c p (some v)) x ↔ c.Holds x ∧ x p = v := by
  constructor
  · intro h
    refine ⟨fun w a ha => h w a ?_, h p v (Function.update_self ..)⟩
    rw [Function.update_of_ne (by rintro rfl; rw [hp] at ha; simp at ha), ha]
  · rintro ⟨hc, hx⟩ w a ha
    by_cases hw : w = p
    · subst hw
      rw [Function.update_self] at ha
      rw [hx, Option.some.inj ha]
    · exact hc w a (by rwa [Function.update_of_ne hw] at ha)

/-- A piece holds where `last` does and `b` fails at one of the variables. -/
theorem exists_peel_iff (b : Cube) (ps : List ℕ) (last : Cube) :
    (∃ q ∈ peel b ps last, q.Holds x) ↔
      last.Holds x ∧ ∃ p ∈ ps, last p = none ∧ b p = some (!x p) := by
  induction ps generalizing last with
  | nil => simp [peel]
  | cons p ps ih =>
      have hskip : (∀ v, ¬ (last p = none ∧ b p = some v)) →
          ((∃ q ∈ peel b ps last, q.Holds x) ↔
            last.Holds x ∧ ∃ p' ∈ p :: ps, last p' = none ∧ b p' = some (!x p')) := by
        intro hno
        rw [ih]
        refine and_congr_right fun _ => ?_
        simp only [List.mem_cons, exists_eq_or_imp]
        exact (or_iff_right fun h => hno _ h).symm
      cases hl : last p with
      | some a => simpa [peel, hl] using hskip (by simp [hl])
      | none =>
          cases hb : b p with
          | none => simpa [peel, hl, hb] using hskip (by simp [hb])
          | some v =>
              have hpeel : peel b (p :: ps) last = Function.update last p (some !v) ::
                  peel b ps (Function.update last p (some v)) := by
                simp only [peel, hl, hb]
              rw [hpeel]
              simp only [List.mem_cons, exists_eq_or_imp]
              rw [ih, holds_update hl, holds_update hl]
              -- the first variable decides between its own piece and the later ones
              by_cases hx : x p = v
              · have hne : x p ≠ !v := by rw [hx]; cases v <;> decide
                have hp : ¬ (last p = none ∧ b p = some (!x p)) := by
                  rw [hb, hx]
                  cases v <;> simp
                rw [or_iff_right fun h => hne h.2, or_iff_right hp]
                refine and_congr ⟨And.left, fun h => ⟨h, hx⟩⟩ (exists_congr fun p' => ?_)
                refine and_congr_right fun _ => ?_
                by_cases hpp : p' = p
                · subst hpp
                  simp [hb, hx]
                · rw [Function.update_of_ne hpp]
              · have heq : x p = !v := by
                  revert hx
                  cases x p <;> cases v <;> decide
                rw [or_iff_left fun h => hx h.1.2]
                exact and_congr_right fun _ => ⟨fun h => Or.inl ⟨hl, by rw [hb, h, Bool.not_not]⟩,
                  fun _ => heq⟩

theorem exists_of_mem_peel (b : Cube) (ps : List ℕ) (last : Cube) {q : Cube}
    (hq : q ∈ peel b ps last) :
    Sub q last ∧ ∃ p v, last p = none ∧ b p = some v ∧ q p = some (!v) := by
  induction ps generalizing last with
  | nil => exact absurd hq List.not_mem_nil
  | cons p ps ih =>
      unfold peel at hq
      split at hq
      · next v hl hb =>
          have hup : ∀ u, Sub (Function.update last p (some u)) last := by
            intro u w a ha
            rw [Function.update_of_ne (by rintro rfl; rw [hl] at ha; simp at ha), ha]
          rcases List.mem_cons.mp hq with rfl | hq
          · exact ⟨hup _, p, v, hl, hb, Function.update_self ..⟩
          · obtain ⟨hsub, p', v', hl', hb', hq'⟩ := ih _ hq
            have hne : p' ≠ p := by
              rintro rfl
              rw [Function.update_self] at hl'
              simp at hl'
            rw [Function.update_of_ne hne] at hl'
            exact ⟨fun w a ha => hsub w a (hup v w a ha), p', v', hl', hb', hq'⟩
      · exact ih _ hq

theorem pairwise_peel (b : Cube) (ps : List ℕ) (last : Cube) :
    (peel b ps last).Pairwise fun q r => ¬ Compat q r := by
  induction ps generalizing last with
  | nil => exact List.Pairwise.nil
  | cons p ps ih =>
      unfold peel
      split
      · next v hl hb =>
          refine List.pairwise_cons.mpr ⟨fun r hr hc => ?_, ih _⟩
          -- later pieces keep the literal of `b` at `p`
          have hrp := (exists_of_mem_peel b ps _ hr).1 p v (Function.update_self ..)
          have := hc p (!v) v (Function.update_self ..) hrp
          cases v <;> exact absurd this (by decide)
      · exact ih _

/-- With all variables of `b` listed, the pieces make up the difference. -/
theorem peel_spec {b : Cube} {ps : List ℕ} {last : Cube} (h : Compat last b)
    (hps : ∀ p, b p ≠ none → p ∈ ps) :
    (∃ q ∈ peel b ps last, q.Holds x) ↔ last.Holds x ∧ ¬ b.Holds x := by
  rw [exists_peel_iff]
  refine and_congr_right fun hlast => ?_
  constructor
  · rintro ⟨p, -, -, hb⟩ hx
    have := hx p _ hb
    cases hxp : x p <;> rw [hxp] at this <;> exact absurd this (by decide)
  · intro hx
    obtain ⟨p, v, hb, hne⟩ : ∃ p v, b p = some v ∧ x p ≠ v := by
      by_contra hcon
      exact hx fun p v hb => by_contra fun hne => hcon ⟨p, v, hb, hne⟩
    refine ⟨p, hps p (by rw [hb]; simp), ?_, ?_⟩
    · cases hl : last p with
      | none => rfl
      | some a => exact absurd ((hlast p a hl).trans (h p a v hl hb)) hne
    · rw [hb]
      revert hne
      cases x p <;> cases v <;> decide

end ExtFolding.Cube
