import ExtFolding.Lib.Text
import ExtFolding.Utils.Stg

/-!
# `utils/stg.cpp`: `STG::writePerm` and `STG::write`

The file starts with one line for each permutation array, followed by the header and the rows.
An array that is too short for the loop that prints it is a failure.
-/

namespace ExtFolding.Utils

/-- `fp << n` -/
abbrev dec (n : ℕ) : List Char := Nat.toDigits 10 n

/-- The string that `addOneTrans` puts into `transs`. -/
def TransRow.text (r : TransRow) : List Char :=
  r.input ++ ' ' :: r.cst ++ ' ' :: r.nst ++ ' ' :: r.output

namespace STG

def writePerm (stg : STG) (perm : List ℕ) (isPi : Bool) : Option (List Char) := do
  let n := if isPi then stg.nCi else stg.nCo
  let entries ← (List.range n).mapM fun i => perm[i]?
  return '#' :: (if isPi then 'i' else 'o') :: "Perm: ".toList ++
    entries.flatMap (fun p => dec p ++ [' ']) ++ ['\n']

/-- The lines after the permutations. -/
def bodyLines (stg : STG) : List (List Char) :=
  [".i ".toList ++ dec stg.nPi, ".o ".toList ++ dec stg.nPo,
    ".p ".toList ++ dec stg.transs.length, ".s ".toList ++ dec stg.nSts, ".r S0_0".toList] ++
  stg.transs.map TransRow.text ++ [".e".toList]

def write (stg : STG) (iPerm oPerm : Option (List ℕ)) : Option (List Char) := do
  let iLine ← match iPerm with
    | some perm => stg.writePerm perm true
    | none => some []
  let oLine ← match oPerm with
    | some perm => stg.writePerm perm false
    | none => some []
  return iLine ++ oLine ++ stg.bodyLines.flatMap (· ++ ['\n'])

/-! ## What is written -/

/-- The line of a permutation array without its end. -/
def permLine (perm : List ℕ) (isPi : Bool) : List Char :=
  '#' :: (if isPi then 'i' else 'o') :: "Perm: ".toList ++ perm.flatMap fun p => dec p ++ [' ']

theorem mapM_getElem?_range (l : List ℕ) : (List.range l.length).mapM (fun i => l[i]?) =
    some l := by
  obtain ⟨ps, hps, hlen, hget⟩ := mapM_range_some (f := fun i => l[i]?) (n := l.length)
    fun i hi => ⟨_, List.getElem?_eq_getElem hi⟩
  rw [hps]
  congr 1
  exact List.ext_getElem? fun i => by
    rcases Nat.lt_or_ge i l.length with hlt | hge
    · exact hget i hlt
    · rw [List.getElem?_eq_none (hlen.symm ▸ hge), List.getElem?_eq_none hge]

theorem writePerm_eq (stg : STG) (isPi : Bool) {perm : List ℕ}
    (h : perm.length = if isPi then stg.nCi else stg.nCo) :
    stg.writePerm perm isPi = some (permLine perm isPi ++ ['\n']) := by
  simp only [writePerm, ← h, mapM_getElem?_range]
  rfl

theorem write_eq (stg : STG) {iPerm oPerm : List ℕ} (hi : iPerm.length = stg.nCi)
    (ho : oPerm.length = stg.nCo) :
    stg.write (some iPerm) (some oPerm) = some ((permLine iPerm true ++ ['\n']) ++
      (permLine oPerm false ++ ['\n']) ++ stg.bodyLines.flatMap (· ++ ['\n'])) := by
  simp only [write, writePerm_eq stg true hi, writePerm_eq stg false ho]
  rfl

/-- The line of a permutation has neither a line end nor a dot. -/
theorem not_mem_permLine (perm : List ℕ) (isPi : Bool) :
    '\n' ∉ permLine perm isPi ∧ '.' ∉ permLine perm isPi := by
  have hdec : ∀ p : ℕ, ∀ c ∈ dec p, c.isDigit := fun p => (Text.numeral_toDigits p).2.1
  have hline : ∀ p : ℕ, '\n' ∉ dec p := fun p hc => absurd (hdec p _ hc) (by decide)
  have hdot : ∀ p : ℕ, '.' ∉ dec p := fun p hc => absurd (hdec p _ hc) (by decide)
  cases isPi <;> simp [permLine, hline, hdot]

end STG

end ExtFolding.Utils
