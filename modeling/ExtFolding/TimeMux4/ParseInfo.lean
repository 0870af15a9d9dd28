import ExtFolding.Utils.StgWrite

/-!
# `timeMux4/perm.cpp`: `parseInfo`

The first line that starts with `head` is cut by hand at its blanks. `pos` stands on the blank
in front of the next token; `npos` is `none`, and a length counted from `npos` reaches beyond
every string, so it means the rest of the line.
-/

namespace ExtFolding.TimeMux4

open ExtFolding.Text ExtFolding.Utils

/-- The lines that `while(getline(fp, line))` delivers: no empty line after the last end of line. -/
def readLines (s : List Char) : List (List Char) :=
  if (lines s).getLast? = some [] then (lines s).dropLast else lines s

/-- `line.find(" ", pos)` -/
def findBlank (line : List Char) (pos : ℕ) : Option ℕ :=
  ((line.drop pos).findIdx? (· = ' ')).map (pos + ·)

/-- `line.substr(pos, len)` throws when it starts past the end. -/
def substr (line : List Char) (pos : ℕ) (len : Option ℕ) : Option (List Char) :=
  if line.length < pos then none
  else match len with
    | some n => some ((line.drop pos).take n)
    | none => some (line.drop pos)

/-- `uint p = atoi(s.c_str())`, undefined for values that are no `int`. -/
def atoi (s : List Char) : Option ℕ :=
  match (readInt (s.dropWhile isSpace)).1 with
  | none => some 0
  | some n => if -2 ^ 31 ≤ n ∧ n < 2 ^ 31 then some (n % 2 ^ 32).toNat else none

/-- `while(pos != string::npos)` with a bound on the number of rounds. -/
def tokenLoop (line : List Char) : ℕ → ℕ → List ℕ → Option (List ℕ)
  | 0, _, _ => none
  | fuel + 1, pos, ret => do
      let pos' := findBlank line (pos + 1)
      let s ← substr line (pos + 1) (pos'.map (· - pos - 1))
      if s = [] then return ret
      else
        let p ← atoi s
        match pos' with
        | some pos' => tokenLoop line fuel pos' (ret ++ [p])
        | none => return ret ++ [p]

def parseInfo (file head : List Char) : Option (List ℕ) :=
  match (readLines file).find? fun line => line.take head.length = head with
  | some line => tokenLoop (line.drop head.length) (line.length + 1) 0 []
  | none => some []

/-! ## Lines -/

theorem readLines_line {l : List Char} (hl : '\n' ∉ l) (s : List Char) :
    readLines (l ++ '\n' :: s) = l :: readLines s := by
  have hne : lines s ≠ [] := List.splitOn_ne_nil _ _
  unfold readLines
  rw [lines_line hl, List.getLast?_cons_of_ne_nil hne]
  split
  · rw [List.dropLast_cons_of_ne_nil hne]
  · rfl

/-! ## Numbers -/

theorem atoi_dec {p : ℕ} (hp : p < 2 ^ 31) : atoi (dec p) = some p := by
  have hdig : ∀ c ∈ dec p, isSpace c = false := fun c hc =>
    not_isSpace_of_isDigit ((numeral_toDigits p).2.1 c hc)
  have hdrop : (dec p).dropWhile isSpace = dec p := by
    obtain ⟨c, u, hu⟩ := List.exists_cons_of_ne_nil (numeral_toDigits p).1
    rw [dec, hu, List.dropWhile_cons_of_neg]
    rw [hdig c (by rw [dec, hu]; exact List.mem_cons_self)]
    exact Bool.false_ne_true
  have hread := readInt_numeral (numeral_toDigits p) (u := []) (by simp)
  rw [List.append_nil] at hread
  have hlt : (-2 ^ 31 : ℤ) ≤ p ∧ (p : ℤ) < 2 ^ 31 := by omega
  simp only [atoi, hdrop, hread, if_pos hlt]
  congr 1
  omega

theorem dec_no_blank (p : ℕ) : ∀ c ∈ dec p, c ≠ ' ' := by
  rintro c hc rfl
  exact absurd ((numeral_toDigits p).2.1 _ hc) (by decide)

/-! ## The tokenising loop -/

/-- A token is found up to the next blank, or up to the end. -/
theorem findBlank_token (done rest : List Char) {t : List Char} (ht : ∀ c ∈ t, c ≠ ' ') :
    findBlank (done ++ ' ' :: t ++ ' ' :: rest) (done.length + 1) =
      some (done.length + 1 + t.length) := by
  have hdrop : (done ++ ' ' :: t ++ ' ' :: rest).drop (done.length + 1) = t ++ ' ' :: rest := by
    simp
  have hidx : (t ++ ' ' :: rest).findIdx? (· = ' ') = some t.length := by
    rw [List.findIdx?_append, List.findIdx?_eq_none_iff.mpr (by simpa using ht)]
    simp [List.findIdx?_cons]
  rw [findBlank, hdrop, hidx]
  rfl

theorem findBlank_end (done : List Char) {t : List Char} (ht : ∀ c ∈ t, c ≠ ' ') :
    findBlank (done ++ ' ' :: t) (done.length + 1) = none := by
  have hdrop : (done ++ ' ' :: t).drop (done.length + 1) = t := by simp
  rw [findBlank, hdrop, List.findIdx?_eq_none_iff.mpr (by simpa using ht)]
  rfl

/-- The numbers of a line, each with a blank before it. -/
def entriesText (ps : List ℕ) : List Char := ps.flatMap fun p => ' ' :: dec p

/-- What may follow the last number. -/
def Trailer (ps : List ℕ) (u : List Char) : Prop := u = [' '] ∨ (u = [] ∧ ps ≠ [])

/-- From the blank before the numbers `ps` the loop appends them and stops. -/
theorem tokenLoop_entries {ps : List ℕ} {u : List Char} (hu : Trailer ps u)
    (hps : ∀ p ∈ ps, p < 2 ^ 31) (done : List Char) (fuel : ℕ) (hfuel : ps.length < fuel)
      (ret : List ℕ) :
    tokenLoop (done ++ (entriesText ps ++ u)) fuel done.length ret = some (ret ++ ps) := by
  induction ps generalizing done fuel ret with
  | nil =>
      obtain ⟨fuel, rfl⟩ := Nat.exists_eq_add_one_of_ne_zero (Nat.ne_of_gt hfuel)
      rcases hu with rfl | ⟨-, hne⟩
      · have hfind := findBlank_end done (t := []) (by simp)
        simp [tokenLoop, entriesText, hfind, substr]
      · exact absurd rfl hne
  | cons p ps ih =>
      obtain ⟨fuel, rfl⟩ := Nat.exists_eq_add_one_of_ne_zero (Nat.ne_zero_of_lt hfuel)
      have hp := atoi_dec (hps p List.mem_cons_self)
      have hne : dec p ≠ [] := Nat.toDigits_ne_nil
      have hsplit : done ++ (entriesText (p :: ps) ++ u) =
          done ++ ' ' :: dec p ++ (entriesText ps ++ u) := by
        simp [entriesText]
      have hlen : ¬ (done ++ ' ' :: dec p ++ (entriesText ps ++ u)).length < done.length + 1 := by
        simp
      have hdrop : (done ++ ' ' :: dec p ++ (entriesText ps ++ u)).drop (done.length + 1) =
          dec p ++ (entriesText ps ++ u) := by
        simp
      rw [hsplit, tokenLoop]
      by_cases hlast : entriesText ps ++ u = []
      · -- the last number, with nothing behind it
        have hnil : ps = [] := by
          cases ps with
          | nil => rfl
          | cons q qs => simp [entriesText] at hlast
        simp only [hlast, List.append_nil, findBlank_end done (dec_no_blank p),
          Option.map_none] at *
        simp [substr, hdrop, hne, hp, hnil]
      · obtain ⟨w, hw⟩ : ∃ w, entriesText ps ++ u = ' ' :: w := by
          cases ps with
          | nil =>
              rcases hu with rfl | ⟨rfl, -⟩
              · exact ⟨[], rfl⟩
              · exact absurd rfl hlast
          | cons q qs => exact ⟨_, by simp [entriesText]; rfl⟩
        have hu' : Trailer ps u := by
          rcases hu with rfl | ⟨rfl, -⟩
          · exact Or.inl rfl
          · refine Or.inr ⟨rfl, ?_⟩
            rintro rfl
            exact hlast rfl
        have hfind := findBlank_token done w (dec_no_blank p)
        rw [← hw] at hfind
        have hcut : done.length + 1 + (dec p).length - done.length - 1 = (dec p).length := by
          omega
        have hnext := ih hu' (fun q hq => hps q (List.mem_cons_of_mem p hq))
          (done ++ ' ' :: dec p) fuel
          (by simpa using hfuel) (ret ++ [p])
        rw [show (done ++ ' ' :: dec p).length = done.length + 1 + (dec p).length by
          simp; omega] at hnext
        simp only [hfind, Option.map_some, substr, if_neg hlen, hdrop, hcut,
          List.take_left', Option.bind_eq_bind, Option.bind_some, if_neg hne, hp]
        rw [hnext, List.append_assoc]
        rfl

theorem length_le_entriesText (ps : List ℕ) : ps.length ≤ (entriesText ps).length := by
  induction ps with
  | nil => exact Nat.le_refl 0
  | cons p ps ih =>
      rw [entriesText, List.flatMap_cons, List.length_append, List.length_cons, List.length_cons]
      have := ih
      unfold entriesText at this
      omega

/-- The numbers behind `head` in the first line that starts with it. -/
theorem parseInfo_line {file head : List Char} (pre : List (List Char))
    {post : List (List Char)} {ps : List ℕ} {u : List Char} (hu : Trailer ps u)
      (hps : ∀ p ∈ ps, p < 2 ^ 31)
    (hpre : ∀ l ∈ pre, l.take head.length ≠ head)
    (hfile : readLines file = pre ++ (head ++ (entriesText ps ++ u)) :: post) :
    parseInfo file head = some ps := by
  have hfind : (readLines file).find? (fun line => line.take head.length = head) =
      some (head ++ (entriesText ps ++ u)) := by
    have hnone : pre.find? (fun line => line.take head.length = head) = none :=
      List.find?_eq_none.mpr fun l hl => by simpa using hpre l hl
    rw [hfile, List.find?_append, hnone, List.find?_cons_of_pos (by simp)]
    rfl
  rw [parseInfo, hfind]
  have hfuel : ps.length < (head ++ (entriesText ps ++ u)).length + 1 := by
    have := length_le_entriesText ps
    simp only [List.length_append]
    omega
  have hrun := tokenLoop_entries hu hps [] _ hfuel []
  simpa using hrun

/-! ## Written files -/

theorem permLine_eq (perm : List ℕ) (isPi : Bool) :
    STG.permLine perm isPi =
      '#' :: (if isPi then 'i' else 'o') :: "Perm:".toList ++ (entriesText perm ++ [' ']) := by
  have hshift : ∀ ps : List ℕ,
      ' ' :: ps.flatMap (fun p => dec p ++ [' ']) = entriesText ps ++ [' '] := by
    intro ps
    induction ps with
    | nil => rfl
    | cons p ps ih =>
        rw [List.flatMap_cons, List.append_assoc, List.singleton_append, ih]
        simp [entriesText]
  rw [STG.permLine, ← hshift]
  simp

/-- Both permutations of a written file are read back. A line that was written without the
trailing blank is read as well, as long as it has an entry. -/
theorem parseInfo_write (stg : STG) {iPerm oPerm : List ℕ} (hi : iPerm.length = stg.nCi)
    (ho : oPerm.length = stg.nCo) (hib : ∀ p ∈ iPerm, p < 2 ^ 31)
    (hob : ∀ p ∈ oPerm, p < 2 ^ 31) :
    (∃ file, stg.write (some iPerm) (some oPerm) = some file ∧
      parseInfo file "#iPerm:".toList = some iPerm ∧
      parseInfo file "#oPerm:".toList = some oPerm) ∧
    ∀ (file head : List Char) (pre post : List (List Char)) (ps : List ℕ) (u : List Char),
      u = [' '] ∨ (u = [] ∧ ps ≠ []) → (∀ p ∈ ps, p < 2 ^ 31) →
      (∀ l ∈ pre, l.take head.length ≠ head) →
      readLines file = pre ++ (head ++ ((ps.flatMap fun p => ' ' :: dec p) ++ u)) :: post →
      parseInfo file head = some ps := by
  have hlines := readLines_line (STG.not_mem_permLine iPerm true).1
    (STG.permLine oPerm false ++ '\n' :: stg.bodyLines.flatMap (· ++ ['\n']))
  rw [readLines_line (STG.not_mem_permLine oPerm false).1] at hlines
  have hfile : (STG.permLine iPerm true ++ ['\n']) ++ (STG.permLine oPerm false ++ ['\n']) ++
      stg.bodyLines.flatMap (· ++ ['\n']) = STG.permLine iPerm true ++ '\n' ::
        (STG.permLine oPerm false ++ '\n' :: stg.bodyLines.flatMap (· ++ ['\n'])) := by
    simp
  refine ⟨⟨_, stg.write_eq hi ho, ?_, ?_⟩, fun file head pre post ps u hu hps hpre hfile =>
    parseInfo_line pre hu hps hpre hfile⟩
  · exact parseInfo_line [] (Or.inl rfl) hib (by simp)
      (hfile ▸ hlines.trans (by rw [permLine_eq iPerm]; rfl))
  · -- the line of `iPerm` does not start with the head
    refine parseInfo_line [STG.permLine iPerm true] (Or.inl rfl) hob ?_
      (hfile ▸ hlines.trans (by rw [permLine_eq oPerm]; rfl))
    simp [permLine_eq]

/-- Two inputs exchanged, one output in the last of its slots. -/
def sampleStg : STG where
  nCi := 2
  nCo := 1
  nPi := 1
  nPo := 1
  nTimeFrame := 2
  nSts := 2
  transs := [⟨['-'], stName 0 0, stName 1 0, ['-']⟩]

theorem parseInfo_write_sample :
    (∃ file, sampleStg.write (some [1, 0]) (some [1]) = some file ∧
      parseInfo file "#iPerm:".toList = some [1, 0] ∧
      parseInfo file "#oPerm:".toList = some [1]) ∧
    parseInfo "p0: 2\np0-i: 12 5\n".toList "p0-i:".toList = some [12, 5] := by
  have h := parseInfo_write sampleStg (show [1, 0].length = sampleStg.nCi from rfl)
    (show [1].length = sampleStg.nCo from rfl) (by decide) (by decide)
  refine ⟨h.1, h.2 _ _ ["p0: 2".toList] [] [12, 5] [] (Or.inr ⟨rfl, by decide⟩) (by decide) ?_ ?_⟩
  · decide
  · decide

end ExtFolding.TimeMux4
