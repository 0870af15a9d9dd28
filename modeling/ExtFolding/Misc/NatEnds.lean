import ExtFolding.Misc.NatEnc

/-!
# `misc/natEnc.cpp`: when reading ends

The header loop counts five keywords and does not look at the stream. At the end of the file the
last word stays in `dump`: a keyword is counted again and again, any other word keeps the loop
going forever. The loops over the rows and over the bits always end.
-/

namespace ExtFolding.Misc

open ExtFolding.Text

/-! ## The loops -/

/-- The loop over the rows with its counter. -/
def rowLoop (dcVal : Bool) (term_num : ℤ) : ℕ → ℤ → RowVars → Option RowVars
  | 0, _, _ => none
  | fuel + 1, i, v =>
      if i < term_num then rowLoop dcVal term_num fuel (i + 1) (readRow dcVal v) else some v

/-- The loops of `natEnc` up to the width of the codes, with a bound on the rounds of each;
`term_num` holds `t` until it is read. -/
def natLoops (fuel₁ fuel₂ fuel₃ : ℕ) (text : List Char) (dcVal : Bool) (t : ℤ) : Option ℕ := do
  let (fin, h) ← headerLoop fuel₁ 0 ⟨text, false⟩
    ⟨[], none, none, none, some t, []⟩
  let v ← rowLoop dcVal (h.term_num.getD t) fuel₂ 0 ⟨fin, [], [], [], [], []⟩
  bnumLoop fuel₃ (v.state_list.length - 1 : ℤ) 0

/-! ## The items of a header -/

/-- The stream after the value of a keyword. -/
def Key.skip (s : IStream) : Key → IStream
  | .r => (s.getStr []).2
  | _ => (s.getInt32 none).2

/-- The rest of a file in items: words that are no keyword (`false`), and keywords with a value that
can be extracted (`true`). -/
inductive Items : IStream → List Bool → Prop
  | done {s : IStream} (h : (s.getStr []).2.fail = true) : Items s []
  | word {s : IStream} {bs : List Bool} (h : (s.getStr []).2.fail = false)
      (hw : ∀ k : Key, (s.getStr []).1 ≠ k.text) (hs : Items (s.getStr []).2 bs) :
      Items s (false :: bs)
  | key {s : IStream} {bs : List Bool} (k : Key) (h : (s.getStr []).2.fail = false)
      (hw : (s.getStr []).1 = k.text) (hv : (k.skip (s.getStr []).2).fail = false)
      (hs : Items (k.skip (s.getStr []).2) bs) : Items s (true :: bs)

/-- The whole file is made of items, with fewer than five keywords, and does not end with the value
of one. -/
def Endless (text : List Char) : Prop :=
  ∃ bs, Items ⟨text, false⟩ bs ∧ bs.count true < 5 ∧ bs.getLast? ≠ some true

/-! ## The header loop -/

theorem Key.text_injective {k k' : Key} (h : k.text = k'.text) : k = k' := by
  cases k <;> cases k' <;> first | rfl | exact absurd h (by decide)

/-- A keyword is counted, and its value is passed. -/
theorem headerStep_keyword {s : IStream} {h : NatHeader} (k : Key)
    (hw : (s.getStr h.dump).1 = k.text) :
    ∃ h', headerStep s h = (true, k.skip (s.getStr h.dump).2, h') ∧
      h'.dump = k.text := by
  cases k <;> simp only [headerStep, hw, Key.text, Key.skip]
  · exact ⟨_, by simp [IStream.getInt32_snd _ none h.input_num]; rfl, rfl⟩
  · exact ⟨_, by simp [IStream.getInt32_snd _ none h.output_num]; rfl, rfl⟩
  · exact ⟨_, by simp [IStream.getInt32_snd _ none h.state_num]; rfl, rfl⟩
  · exact ⟨_, by simp [IStream.getInt32_snd _ none h.term_num]; rfl, rfl⟩
  · exact ⟨_, by simp [IStream.getStr_snd _ [] h.reset]; rfl, rfl⟩

/-- The loop ends from `i` with the stream `s` and the variables `h`. -/
def Ends (i : ℕ) (s : IStream) (h : NatHeader) : Prop :=
  ∃ fuel r, headerLoop fuel i s h = some r

theorem ends_of_le {i : ℕ} (hi : 5 ≤ i) (s : IStream) (h : NatHeader) : Ends i s h :=
  ⟨1, (s, h), if_neg (Nat.not_lt.mpr hi)⟩

/-- One round. -/
theorem ends_iff_step {i : ℕ} (hi : i < 5) {s s' : IStream} {h h' : NatHeader} {key : Bool}
    (hstep : headerStep s h = (key, s', h')) :
    Ends i s h ↔ Ends (if key then i + 1 else i) s' h' := by
  have hloop : ∀ fuel, headerLoop (fuel + 1) i s h =
      headerLoop fuel (if key then i + 1 else i) s' h' := fun fuel => by
    rw [headerLoop, if_pos hi, hstep]
  constructor
  · rintro ⟨_ | fuel, r, hr⟩
    · exact absurd hr (Option.some_ne_none r).symm
    · exact ⟨fuel, r, (hloop fuel).symm.trans hr⟩
  · rintro ⟨fuel, r, hr⟩
    exact ⟨fuel + 1, r, (hloop fuel).trans hr⟩

theorem Key.skip_fail {s : IStream} (hs : s.fail = true) (k : Key) : k.skip s = s := by
  cases k <;> simp [Key.skip, IStream.getInt32_fail hs, IStream.getStr_fail hs]

/-- A keyword that stays in `dump` is counted until the loop ends. -/
theorem ends_of_keyword {s : IStream} (hs : s.fail = true) (k : Key) : ∀ (n i : ℕ) (h : NatHeader),
    5 ≤ i + n → h.dump = k.text → Ends i s h := by
  intro n
  induction n with
  | zero => exact fun i h hi _ => ends_of_le hi s h
  | succ n ih =>
      intro i h hi hd
      by_cases hlt : i < 5
      · have hget := IStream.getStr_fail hs h.dump
        obtain ⟨h', hstep, hd'⟩ := headerStep_keyword k (s := s) (h := h) (by rw [hget, hd])
        rw [hget, Key.skip_fail hs] at hstep
        exact (ends_iff_step hlt hstep).mpr (ih (i + 1) h' (by omega) hd')
      · exact ends_of_le (Nat.not_lt.mp hlt) s h

/-- Any other word keeps the loop going. -/
theorem not_ends_of_word {s : IStream} (hs : s.fail = true) {i : ℕ} (hi : i < 5) {h : NatHeader}
    (hd : ∀ k : Key, h.dump ≠ k.text) : ¬ Ends i s h := by
  have hget := IStream.getStr_fail hs h.dump
  have hstep : headerStep s h = (false, s, h) := by
    rw [headerStep_word (by rw [hget]; exact hd), hget]
  rintro ⟨fuel, r, hr⟩
  induction fuel with
  | zero => exact absurd hr (Option.some_ne_none r).symm
  | succ fuel ih =>
      rw [headerLoop, if_pos hi, hstep] at hr
      exact ih hr

/-- What is left of the file is made of items that do not bring the count to five, and the last
word that is looked at is no keyword. -/
def EndlessFrom (i : ℕ) (d : List Char) (s : IStream) : Prop :=
  ∃ bs, Items s bs ∧ i + bs.count true < 5 ∧
    bs.getLast?.getD (decide (∃ k ∈ keys, d = k.text)) = false

theorem Key.length_skip {s : IStream} {k : Key} (h : (k.skip s).fail = false) :
    (k.skip s).rest.length ≤ s.rest.length := by
  cases k
  case r => exact (IStream.length_getStr h).le
  all_goals exact IStream.length_getInt32 h

theorem getLast?_cons_getD {b : Bool} (bs : List Bool) (x : Bool) :
    (b :: bs).getLast?.getD x = bs.getLast?.getD b := by
  cases bs with
  | nil => rfl
  | cons c cs =>
      rw [List.getLast?_cons_cons]
      rw [List.getLast?_eq_some_getLast (List.cons_ne_nil c cs)]
      rfl

section Items

variable {i : ℕ} {d : List Char} {s : IStream}

/-- Nothing is left, and the last word counts. -/
theorem endlessFrom_end (hf : (s.getStr []).2.fail = true) :
    EndlessFrom i d s ↔ i < 5 ∧ ∀ k : Key, d ≠ k.text := by
  constructor
  · rintro ⟨bs, hbs, hcount, hlast⟩
    cases hbs with
    | done => exact ⟨hcount, fun k hk => of_decide_eq_false hlast ⟨k, mem_keys k, hk⟩⟩
    | word h => exact absurd (hf.symm.trans h) (by simp)
    | key k h => exact absurd (hf.symm.trans h) (by simp)
  · rintro ⟨hi, hd⟩
    exact ⟨[], .done hf, hi, decide_eq_false fun ⟨k, _, hk⟩ => hd k hk⟩

theorem endlessFrom_word (hf : (s.getStr []).2.fail = false)
    (hno : ∀ k : Key, (s.getStr []).1 ≠ k.text) :
    EndlessFrom i d s ↔ EndlessFrom i (s.getStr []).1 (s.getStr []).2 := by
  have hdec : decide (∃ k ∈ keys, (s.getStr []).1 = k.text) = false :=
    decide_eq_false fun ⟨k, _, hk⟩ => hno k hk
  constructor
  · rintro ⟨_, hbs, hcount, hlast⟩
    cases hbs with
    | done h => exact absurd (hf.symm.trans h) (by simp)
    | key k _ hk => exact absurd hk (hno k)
    | @word _ bs _ _ hrest =>
        rw [getLast?_cons_getD] at hlast
        exact ⟨bs, hrest, by simpa using hcount, by rwa [hdec]⟩
  · rintro ⟨bs, hbs, hcount, hlast⟩
    rw [hdec] at hlast
    refine ⟨false :: bs, .word hf hno hbs, ?_, ?_⟩
    · simpa using hcount
    · rwa [getLast?_cons_getD]

/-- A keyword needs a value, and is counted. -/
theorem endlessFrom_key (hf : (s.getStr []).2.fail = false) {k : Key}
    (hk : (s.getStr []).1 = k.text) :
    EndlessFrom i d s ↔ (k.skip (s.getStr []).2).fail = false ∧
      EndlessFrom (i + 1) k.text (k.skip (s.getStr []).2) := by
  have hdec : decide (∃ k' ∈ keys, k.text = k'.text) = true :=
    decide_eq_true ⟨k, mem_keys k, rfl⟩
  constructor
  · rintro ⟨_, hbs, hcount, hlast⟩
    cases hbs with
    | done h => exact absurd (hf.symm.trans h) (by simp)
    | word _ hno => exact absurd hk (hno k)
    | @key _ bs k' _ hk' hv hrest =>
        obtain rfl := Key.text_injective (hk.symm.trans hk')
        rw [List.count_cons_self] at hcount
        rw [getLast?_cons_getD] at hlast
        exact ⟨hv, bs, hrest, by omega, by rwa [hdec]⟩
  · rintro ⟨hv, bs, hbs, hcount, hlast⟩
    rw [hdec] at hlast
    refine ⟨true :: bs, .key k hf hk hv hbs, ?_, ?_⟩
    · rw [List.count_cons_self]
      omega
    · rwa [getLast?_cons_getD]

end Items

/-- The header loop ends unless it is left with such items. -/
theorem ends_iff (i : ℕ) (s : IStream) (h : NatHeader) (hs : s.fail = false) :
    Ends i s h ↔ ¬ EndlessFrom i h.dump s := by
  induction hn : s.rest.length using Nat.strong_induction_on generalizing s i h with
  | _ n ih =>
      by_cases hi : i < 5
      swap
      · exact iff_of_true (ends_of_le (Nat.not_lt.mp hi) s h) fun ⟨bs, _, hlt, _⟩ => by omega
      have hsnd : (s.getStr h.dump).2 = (s.getStr []).2 := IStream.getStr_snd s _ _
      have hfst := IStream.getStr_fst s h.dump
      cases hf : (s.getStr []).2.fail with
      | true =>
          -- `dump` is looked at again
          rw [hf, if_pos rfl] at hfst
          rw [endlessFrom_end hf]
          by_cases hk : ∃ k : Key, h.dump = k.text
          · obtain ⟨k, hd⟩ := hk
            obtain ⟨h', hstep, hd'⟩ := headerStep_keyword k (hfst.trans hd)
            rw [hsnd, Key.skip_fail hf] at hstep
            exact iff_of_true ((ends_iff_step hi hstep).mpr
              (ends_of_keyword hf k 5 _ h' (by omega) hd')) fun hno => hno.2 k hd
          · have hd : ∀ k : Key, h.dump ≠ k.text := fun k hd => hk ⟨k, hd⟩
            have hstep := headerStep_word (s := s) (h := h)
              (by rw [hfst]; exact hd)
            rw [hsnd, hfst] at hstep
            exact iff_of_false (fun he => not_ends_of_word hf hi hd
              ((ends_iff_step hi hstep).mp he)) (not_not.mpr ⟨hi, hd⟩)
      | false =>
          rw [hf, if_neg Bool.false_ne_true] at hfst
          have hlen := IStream.length_getStr hf
          by_cases hw : ∃ k : Key, (s.getStr []).1 = k.text
          · obtain ⟨k, hk⟩ := hw
            obtain ⟨h', hstep, hd'⟩ := headerStep_keyword k (hfst.trans hk)
            rw [hsnd] at hstep
            rw [ends_iff_step hi hstep, if_pos rfl, endlessFrom_key hf hk]
            cases hv : (k.skip (s.getStr []).2).fail with
            | true =>
                exact iff_of_true (ends_of_keyword hv k 5 _ h' (by omega) hd')
                  fun hno => Bool.noConfusion hno.1
            | false =>
                rw [ih _ ((Key.length_skip hv).trans_lt (hn ▸ hlen)) (i + 1) _ h' hv rfl, hd',
                  and_iff_right rfl]
          · have hno : ∀ k : Key, (s.getStr []).1 ≠ k.text := fun k hk => hw ⟨k, hk⟩
            have hstep := headerStep_word (s := s) (h := h)
              (by rw [hfst]; exact hno)
            rw [hsnd, hfst] at hstep
            rw [ends_iff_step hi hstep, if_neg Bool.false_ne_true,
              ih _ (hn ▸ hlen) i _ _ hf rfl, endlessFrom_word hf hno]

/-! ## The other loops -/

theorem rowLoop_ends (dcVal : Bool) (term_num : ℤ) (n : ℕ) : ∀ (i : ℤ) (v : RowVars),
    term_num ≤ i + n → ∃ v', rowLoop dcVal term_num (n + 1) i v = some v' := by
  induction n with
  | zero =>
      intro i v hi
      exact ⟨v, if_neg (by omega)⟩
  | succ n ih =>
      intro i v hi
      rw [rowLoop]
      split
      · exact ih _ _ (by omega)
      · exact ⟨v, rfl⟩

/-- Also without states, when the loop starts from -1. -/
theorem bnumLoop_ends (n : ℕ) : ∃ b, bnumLoop (n + 1) (n - 1 : ℤ) 0 = some b := by
  cases n with
  | zero => exact ⟨1, rfl⟩
  | succ n =>
      rw [Nat.cast_succ, Int.add_sub_cancel]
      exact ⟨_, bnumLoop_spec (by omega) 0⟩

/-- The loops of `natEnc` end on exactly the files that are not made of items with fewer than five
keywords and a last item that is no keyword. -/
theorem natEnc_ends_iff (text : List Char) (dcVal : Bool) (t : ℤ) :
    (∃ fuel₁ fuel₂ fuel₃ bnum, natLoops fuel₁ fuel₂ fuel₃ text dcVal t = some bnum) ↔
      ¬ Endless text := by
  have hfrom : Endless text ↔ EndlessFrom 0 [] ⟨text, false⟩ := by
    have hdec : decide (∃ k ∈ keys, ([] : List Char) = k.text) = false := by decide
    unfold Endless EndlessFrom
    rw [hdec]
    refine exists_congr fun bs => and_congr_right fun _ => ?_
    rw [Nat.zero_add]
    refine and_congr_right fun _ => ?_
    cases bs.getLast? with
    | none => simp
    | some b => cases b <;> simp
  rw [hfrom, ← ends_iff 0 ⟨text, false⟩ ⟨[], none, none, none, some t, []⟩ rfl]
  constructor
  · rintro ⟨fuel₁, fuel₂, fuel₃, bnum, h⟩
    obtain ⟨r, hr, -⟩ := Option.bind_eq_some_iff.mp h
    exact ⟨fuel₁, r, hr⟩
  · rintro ⟨fuel₁, ⟨fin, h⟩, hr⟩
    obtain ⟨v, hv⟩ := rowLoop_ends dcVal (h.term_num.getD t) (h.term_num.getD t).toNat 0
      ⟨fin, [], [], [], [], []⟩ (by omega)
    obtain ⟨bnum, hb⟩ := bnumLoop_ends v.state_list.length
    refine ⟨fuel₁, (h.term_num.getD t).toNat + 1, v.state_list.length + 1, bnum, ?_⟩
    simp only [natLoops, hr, hv, Option.bind_eq_bind, Option.bind_some]
    exact hb

/-- On an empty file the header loop does not end. -/
theorem natEnc_empty : ¬ ∃ fuel₁ fuel₂ fuel₃ bnum,
    natLoops fuel₁ fuel₂ fuel₃ [] false 0 = some bnum := by
  rintro ⟨fuel₁, fuel₂, fuel₃, bnum, h⟩
  obtain ⟨r, hr, -⟩ := Option.bind_eq_some_iff.mp h
  refine ((ends_iff 0 ⟨[], false⟩ ⟨[], none, none, none, some 0, []⟩ rfl).mp ⟨fuel₁, r, hr⟩)
    ((endlessFrom_end rfl).mpr ⟨by decide, fun k => ?_⟩)
  cases k <;> decide

end ExtFolding.Misc
