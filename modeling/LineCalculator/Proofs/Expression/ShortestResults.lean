import LineCalculator.Proofs.Binary64.Undefined
import LineCalculator.Proofs.Decimal.Canonical
import LineCalculator.Proofs.Decimal.Minimal
import LineCalculator.Proofs.Expression.Retyping

namespace LineCalculator

def IsPlainText (negative : Bool) (text : List Char) : Prop :=
  ∃ n : Numeral, n.IsPlain ∧ text = Binary64.signText negative ++ n.text

/-- The digits of a natural number, with a zero in front of them only if there is one digit. -/
structure IsPadded (digits : List Char) (n : Nat) : Prop where
  isDigit : ∀ c ∈ digits, c.isDigit = true
  value : Nat.ofDigitChars 10 digits 0 = n
  two_le_length : 2 ≤ digits.length
  head?_ne : 2 < digits.length → digits.head? ≠ some '0'

/-- A sign, a numeral with one digit before the point, and an exponent from -324 to -5. -/
def IsScientificText (negative : Bool) (text : List Char) : Prop :=
  ∃ (n : Numeral) (k : Nat) (digits : List Char), n.IsMantissa ∧ 5 ≤ k ∧ k ≤ 324 ∧
    IsPadded digits k ∧ text = Binary64.signText negative ++ n.text ++ 'e' :: '-' :: digits

/-- What is found as the exponent of a text. -/
inductive ExponentCase where
  | missing
  | unreadable
  | negative
  | nonnegative
  deriving DecidableEq, Repr

/-- The text with a sign and two digits at least in its exponent. It stays as it is where there is
no exponent, or none that is a number of 32 bits. -/
def padExponent (text : List Char) : ExponentCase × List Char :=
  let mantissa := text.takeWhile (· != 'e')
  match text.dropWhile (· != 'e') with
  | [] => (.missing, text)
  | _ :: tail =>
    match readInteger? tail with
    | none => (.unreadable, text)
    | some n =>
      if n < -2 ^ 31 ∨ 2 ^ 31 ≤ n then (.unreadable, text)
      else if n < 0 then (.negative, mantissa ++ 'e' :: '-' :: Binary64.twoDigits n.natAbs)
      else (.nonnegative, mantissa ++ 'e' :: '+' :: Binary64.twoDigits n.natAbs)

/-- The value in scientific notation, the exponent as a whole number is written. -/
def Binary64.exponentialText (a : Binary64) : String :=
  a.render fun rank =>
    let d := Decimal.shortest rank
    d.mantissa ++ 'e' :: (toString d.leadingExponent).toList

theorem Binary64.isPadded_twoDigits (n : Nat) : IsPadded (twoDigits n) n := by
  have hread := readNatural?_twoDigits n
  rw [readNatural?, Option.ite_none_right_eq_some] at hread
  obtain ⟨⟨-, hdigits⟩, hvalue⟩ := hread
  have hpos := Nat.length_toDigits_pos (b := 10) (n := n)
  have hone := Nat.length_toDigits_le_iff (b := 10) (k := 1) (n := n) (by decide) (by decide)
  rw [pow_one] at hone
  refine ⟨List.all_eq_true.mp hdigits, Option.some.inj hvalue, ?_, ?_⟩
  · unfold twoDigits
    split
    · rw [List.length_cons]
      omega
    · omega
  · unfold twoDigits
    split
    · rw [List.length_cons]
      omega
    · intro _
      obtain ⟨c, tail, htoDigits, hc⟩ := Decimal.exists_toDigits_eq_cons (n := n) (by omega)
      simpa [htoDigits] using hc

section Exponent

variable (d : Decimal)

theorem Decimal.ne_e_of_mem_mantissa {c : Char} (hc : c ∈ d.mantissa) : c ≠ 'e' := by
  rw [← mantissaNumeral_text] at hc
  rintro rfl
  rcases Numeral.of_mem_text d.mantissaNumeral_valid hc with hdigit | hpoint
  · exact absurd hdigit (by decide)
  · exact absurd hpoint (by decide)

/-- A negative exponent is found behind the mantissa, and it keeps its sign. -/
theorem padExponent_of_neg (negative : Bool) (hlow : -2 ^ 31 ≤ d.leadingExponent)
    (hneg : d.leadingExponent < 0) :
    padExponent (Binary64.signText negative ++
      (d.mantissa ++ 'e' :: (toString d.leadingExponent).toList)) =
      (.negative, Binary64.signText negative ++
        (d.mantissa ++ 'e' :: Binary64.exponentText d.leadingExponent)) := by
  have hfront : ∀ c ∈ Binary64.signText negative ++ d.mantissa, (c != 'e') = true := by
    intro c hc
    rw [bne_iff_ne]
    rcases List.mem_append.mp hc with hc | hc
    · rintro rfl
      cases negative <;> simp [Binary64.signText] at hc
    · exact d.ne_e_of_mem_mantissa hc
  have htail : StartsOutside (· != 'e') ('e' :: (toString d.leadingExponent).toList) :=
    startsOutside_cons.mpr (by decide)
  have hread : readInteger? (toString d.leadingExponent).toList = some d.leadingExponent := by
    have hdigits : ∀ c ∈ Nat.toDigits 10 d.leadingExponent.natAbs, c.isDigit = true := fun c hc =>
      Nat.isDigit_of_mem_toDigits (by decide) (by decide) hc
    rw [toList_toString, decide_eq_true hneg, Binary64.signText, if_pos rfl, List.singleton_append,
      readInteger?, readNatural?_of_digits Nat.toDigits_ne_nil hdigits,
      Nat.ofDigitChars_ten_toDigits, Option.map_some, Option.some.injEq]
    omega
  rw [← List.append_assoc, padExponent, takeWhile_append_of_startsOutside hfront htail,
    dropWhile_append_of_startsOutside hfront htail]
  dsimp only
  rw [hread]
  dsimp only
  rw [if_neg (by omega), if_pos hneg, Binary64.exponentText, if_pos hneg, List.append_assoc]

end Exponent

namespace Binary64

theorem toList_resultText_of_ne_zero (negative : Bool) {rank : Fin finiteCount}
    (hne : rank.val ≠ 0) : (finite negative rank).resultText.toList =
      signText negative ++ resultMagnitude rank := by
  rw [toList_resultText_finite, bne_iff_ne.mpr hne, Bool.and_true]

section Fraction

variable {negative : Bool} {rank : Fin finiteCount}

theorem units_mod_ne_zero (h : ∀ n : Int, (finite negative rank).toRat ≠ n) :
    units rank % unitsPerOne ≠ 0 := by
  intro hwhole
  have hinteger : (finite negative rank).isInteger = true := beq_iff_eq.mpr hwhole
  obtain ⟨n, hn⟩ := isInteger_iff.mp hinteger
  exact h n (isInt_iff_toRat.mp hn).2

variable (hfraction : units rank % unitsPerOne ≠ 0)

include hfraction

theorem rank_ne_zero : rank.val ≠ 0 := by
  intro hzero
  rw [hzero, units_zero, Nat.zero_mod] at hfraction
  exact hfraction rfl

theorem exponent_shortest_neg : (Decimal.shortest rank).exponent < 0 :=
  Decimal.exponent_neg (by rwa [Decimal.nearestRank_shortest])

theorem resultMagnitude_eq_positional (hlarge : smallLimit ≤ rank) :
    resultMagnitude rank = (Decimal.shortest rank).positional := by
  rw [resultMagnitude, if_neg hfraction]
  dsimp only
  rw [if_neg (not_lt.mpr hlarge)]

theorem ofText?_resultMagnitude :
    Decimal.ofText? (resultMagnitude rank) = some (Decimal.shortest rank) := by
  rcases lt_or_ge rank.val smallLimit with hsmall | hlarge
  · rw [resultMagnitude_eq_scientific (rank_ne_zero hfraction) hsmall]
    exact Decimal.ofText?_scientific _
  · rw [resultMagnitude_eq_positional hfraction hlarge, Decimal.ofText?_positional,
      Decimal.numeral_toDecimal_of_neg (exponent_shortest_neg hfraction)]

theorem isPlainText_resultText (hlarge : smallLimit ≤ rank) :
    IsPlainText negative (finite negative rank).resultText.toList := by
  have hplain := Decimal.isPlain_numeral (Decimal.shortest_coefficient_mod (rank_ne_zero hfraction))
    (exponent_shortest_neg hfraction)
  refine ⟨_, hplain, ?_⟩
  rw [toList_resultText_of_ne_zero negative (rank_ne_zero hfraction),
    resultMagnitude_eq_positional hfraction hlarge, Decimal.numeral_text]

end Fraction

section Small

variable {rank : Fin finiteCount} (hne : rank.val ≠ 0) (hsmall : rank.val < smallLimit)

include hne hsmall

theorem leadingExponent_shortest_bounds :
    -324 ≤ (Decimal.shortest rank).leadingExponent ∧
      (Decimal.shortest rank).leadingExponent ≤ -5 := by
  have hrank := Decimal.nearestRank_shortest rank
  have hcoefficient := Decimal.coefficient_ne_zero hne hrank
  have hlow := Decimal.le_leadingExponent hcoefficient (by rwa [hrank])
  have hhigh := Decimal.leadingExponent_lt hcoefficient (by rwa [hrank])
  exact ⟨hlow, by omega⟩

theorem padExponent_exponentialText (negative : Bool) :
    padExponent (finite negative rank).exponentialText.toList =
      (.negative, (finite negative rank).resultText.toList) := by
  obtain ⟨hlow, hhigh⟩ := leadingExponent_shortest_bounds hne hsmall
  rw [exponentialText, toList_render_finite, padExponent_of_neg _ _ (by omega) (by omega),
    toList_resultText_of_ne_zero negative hne, resultMagnitude_eq_scientific hne hsmall]

theorem isScientificText_resultText (negative : Bool) :
    IsScientificText negative (finite negative rank).resultText.toList := by
  obtain ⟨hlow, hhigh⟩ := leadingExponent_shortest_bounds hne hsmall
  refine ⟨_, (Decimal.shortest rank).leadingExponent.natAbs, _,
    Decimal.isMantissa_mantissaNumeral (Decimal.shortest_coefficient_mod hne), by omega, by omega,
    isPadded_twoDigits _, ?_⟩
  rw [toList_resultText_of_ne_zero negative hne, resultMagnitude_eq_scientific hne hsmall,
    Decimal.mantissaNumeral_text, exponentText, if_pos (by omega), List.append_assoc]

end Small

/-- The text of a negative value is that of the positive one behind a sign. -/
theorem resultText_neg {a : Binary64} (h : zero false < a) :
    (-a).resultText = "-" ++ a.resultText := by
  cases a with
  | nan => cases h
  | infinity negative =>
    cases negative
    · rfl
    · cases h
  | finite negative rank =>
    obtain ⟨rfl, hne⟩ := zero_lt_finite_iff.mp h
    have hneg : -finite false rank = finite true rank := rfl
    rw [hneg, ← String.toList_inj, String.toList_append, toList_resultText_of_ne_zero true hne,
      toList_resultText_of_ne_zero false hne]
    rfl

/-- The text of a result with a fraction is canonical. It is read back as a shortest decimal of the
result. From one ten-thousandth on it is plain, and below it has an exponent, which is found and is
negative when it is padded. A negative result is written as the positive one behind a sign. -/
theorem resultText_shortest {a : Binary64} (hfinite : a.isFinite = true)
    (hfraction : ∀ n : Int, a.toRat ≠ n) :
    (∃ d : Decimal, Decimal.ofSignedText? a.resultText.toList = some (a.isNegative, d) ∧
      d.IsShortest a.isNegative a) ∧
    (¬ a.abs < Decimal.toBinary64 ⟨1, -4⟩ → IsPlainText a.isNegative a.resultText.toList) ∧
    (a.abs < Decimal.toBinary64 ⟨1, -4⟩ →
      IsScientificText a.isNegative a.resultText.toList ∧
        padExponent a.exponentialText.toList = (.negative, a.resultText.toList)) ∧
    (zero false < a → (-a).resultText = "-" ++ a.resultText) := by
  cases a with
  | nan | infinity negative => cases hfinite
  | finite negative rank =>
    have hunits := units_mod_ne_zero hfraction
    have hne := rank_ne_zero hunits
    rw [abs_lt_iff, not_lt, isNegative]
    refine ⟨⟨Decimal.shortest rank, ?_, Decimal.isShortest_shortest negative hne⟩, ?_, ?_, ?_⟩
    · rw [toList_resultText_of_ne_zero negative hne]
      exact Decimal.ofSignedText?_signText_append negative (ofText?_resultMagnitude hunits)
    · exact isPlainText_resultText hunits
    · intro hsmall
      exact ⟨isScientificText_resultText hne hsmall negative,
        padExponent_exponentialText hne hsmall negative⟩
    · exact resultText_neg

def least : Binary64 :=
  finite false ⟨1, by decide⟩

theorem resultText_least : least.isFinite = true ∧ (∀ n : Int, least.toRat ≠ n) ∧
    (∃ d : Decimal, Decimal.ofSignedText? least.resultText.toList = some (false, d) ∧
      d.IsShortest false least) ∧
    IsScientificText false least.resultText.toList ∧
    padExponent least.exponentialText.toList = (.negative, least.resultText.toList) ∧
    (-least).resultText = "-" ++ least.resultText ∧ least.resultText = "5e-324" := by
  have hfinite : least.isFinite = true := rfl
  have hfraction (n : Int) : least.toRat ≠ n := by
    intro hn
    have hinteger := isInteger_iff.mpr ⟨n, isInt_iff_toRat.mpr ⟨hfinite, hn⟩⟩
    exact absurd hinteger (by decide +kernel)
  have hsmall : least.abs < Decimal.toBinary64 ⟨1, -4⟩ := by decide +kernel
  obtain ⟨hshortest, -, hscientific, hneg⟩ := resultText_shortest hfinite hfraction
  exact ⟨hfinite, hfraction, hshortest, (hscientific hsmall).1, (hscientific hsmall).2,
    hneg (by decide), by decide +kernel⟩

end Binary64

end LineCalculator
