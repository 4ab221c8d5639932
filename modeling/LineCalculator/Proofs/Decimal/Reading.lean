import LineCalculator.Proofs.Binary64.Nearest
import LineCalculator.Proofs.Decimal.Shortest

namespace LineCalculator

def readNatural? (text : List Char) : Option Nat :=
  if text ≠ [] ∧ text.all Char.isDigit then some (Nat.ofDigitChars 10 text 0) else none

def readInteger? : List Char → Option Int
  | '-' :: digits => (readNatural? digits).map fun (n : Nat) => -(n : Int)
  | '+' :: digits => (readNatural? digits).map fun (n : Nat) => (n : Int)
  | digits => (readNatural? digits).map fun (n : Nat) => (n : Int)

/-- The decimal written by a text that is a numeral with or without an exponent. -/
def Decimal.ofText? (text : List Char) : Option Decimal :=
  match Numeral.read? text with
  | some (n, []) => some n.toDecimal
  | some (n, 'e' :: tail) =>
    (readInteger? tail).map fun exponent =>
      ⟨n.toDecimal.coefficient, n.toDecimal.exponent + exponent⟩
  | _ => none

def Decimal.ofSignedText? : List Char → Option (Bool × Decimal)
  | '-' :: rest => (ofText? rest).map fun d => (true, d)
  | text => (ofText? text).map fun d => (false, d)

/-- No binary64 magnitude is nearer to the decimal than the one with this rank, and another one is
as near only if this rank is even. -/
def Decimal.IsNearest (d : Decimal) (rank : Nat) : Prop :=
  Binary64.IsNearest (d.coefficient * Nat.pow 10 d.exponent.toNat * Binary64.unitsPerOne)
    (Nat.pow 10 (-d.exponent).toNat) rank

/-- The value is the nearest one to the number written by the text, ties to even. -/
def Binary64.IsValueOf (a : Binary64) (text : String) : Prop :=
  ∃ negative d rank, Decimal.ofSignedText? text.toList = some (negative, d) ∧ d.IsNearest rank ∧
    ofRank negative rank = a

theorem readNatural?_of_digits {text : List Char} (hne : text ≠ [])
    (hdigits : ∀ c ∈ text, c.isDigit = true) :
    readNatural? text = some (Nat.ofDigitChars 10 text 0) := by
  rw [readNatural?, if_pos ⟨hne, List.all_eq_true.mpr hdigits⟩]

theorem Binary64.readNatural?_twoDigits (n : Nat) :
    readNatural? (twoDigits n) = some n := by
  have hdigits : ∀ c ∈ Nat.toDigits 10 n, c.isDigit = true := fun c hc =>
    Nat.isDigit_of_mem_toDigits (by decide) (by decide) hc
  have hvalue := Nat.ofDigitChars_ten_toDigits (n := n)
  unfold twoDigits
  split
  -- The zero in front of a single digit adds nothing.
  · have hpadded : ∀ c ∈ '0' :: Nat.toDigits 10 n, c.isDigit = true := by
      simpa using hdigits
    rw [readNatural?_of_digits (by simp) hpadded, Nat.ofDigitChars_cons]
    simp
  · rw [readNatural?_of_digits Nat.toDigits_ne_nil hdigits, hvalue]

theorem Binary64.readInteger?_exponentText (exponent : Int) :
    readInteger? (exponentText exponent) = some exponent := by
  unfold exponentText
  split
  · rw [readInteger?, readNatural?_twoDigits, Option.map_some, Option.some.injEq]
    omega
  · rw [readInteger?, readNatural?_twoDigits, Option.map_some, Option.some.injEq]
    omega

namespace Decimal

/-- A text that writes a magnitude starts with a digit, so a sign before it is told apart. -/
theorem ofSignedText?_signText_append {magnitude : List Char} {d : Decimal} (negative : Bool)
    (h : ofText? magnitude = some d) :
    ofSignedText? (Binary64.signText negative ++ magnitude) = some (negative, d) := by
  cases negative with
  | true => simp [ofSignedText?, Binary64.signText, h]
  | false =>
    unfold ofSignedText?
    split
    -- A sign in front of the magnitude itself would leave no numeral to read.
    · rename_i rest hrest
      obtain rfl : magnitude = '-' :: rest := hrest
      have hsign : Numeral.read? ('-' :: rest) = none :=
        Numeral.read?_eq_none_iff.mpr (startsOutside_cons.mpr (by decide))
      simp [ofText?, hsign] at h
    · simp [Binary64.signText, h]

theorem nearestRank_eq_iff {d : Decimal} {rank : Nat} :
    d.nearestRank = rank ↔ d.IsNearest rank :=
  Binary64.nearestRank_eq_iff (pow_ten_pos _)

/-- A number has one value. -/
theorem isValueOf_iff {text : String} {magnitude : List Char} {negative : Bool} {d : Decimal}
    {a : Binary64} (htext : text.toList = Binary64.signText negative ++ magnitude)
    (h : ofText? magnitude = some d) :
    a.IsValueOf text ↔ Binary64.ofRank negative d.nearestRank = a := by
  have hread := ofSignedText?_signText_append negative h
  rw [← htext] at hread
  simp only [Binary64.IsValueOf, hread, Option.some.injEq, Prod.mk.injEq, ← nearestRank_eq_iff]
  constructor
  · rintro ⟨_, _, _, ⟨rfl, rfl⟩, rfl, ha⟩
    exact ha
  · intro ha
    exact ⟨negative, d, d.nearestRank, ⟨rfl, rfl⟩, rfl, ha⟩

variable (d : Decimal)

def mantissaNumeral : Numeral :=
  ⟨d.digits.take 1, d.digits.drop 1⟩

theorem mantissaNumeral_text : d.mantissaNumeral.text = d.mantissa := by
  unfold mantissaNumeral mantissa
  split
  · rename_i hdigits
    simp [Numeral.text, hdigits]
  · rename_i hshort
    have hrest : d.digits.drop 1 = [] := by
      cases hdigits : d.digits with
      | nil => rfl
      | cons first tail =>
        cases tail with
        | nil => rfl
        | cons second rest => exact absurd hdigits (hshort first second rest)
    have hall := List.take_append_drop 1 d.digits
    rw [hrest, List.append_nil] at hall
    rw [Numeral.text_of_fraction_eq_nil hrest, hall]

theorem mantissaNumeral_valid : d.mantissaNumeral.Valid := by
  have hdigits : ∀ c ∈ d.digits, isDecimalDigit c = true := fun c hc =>
    isDecimalDigit_of_isDigit (isDigit_of_mem_digits hc)
  refine ⟨?_, fun c hc => hdigits c (List.mem_of_mem_take hc),
    fun c hc => hdigits c (List.mem_of_mem_drop hc)⟩
  simp [mantissaNumeral, digits, Nat.toDigits_ne_nil]

theorem mantissaNumeral_toDecimal :
    d.mantissaNumeral.toDecimal = ⟨d.coefficient, 1 - (d.digits.length : Int)⟩ := by
  have hpos : 0 < d.digits.length := List.length_pos_iff.mpr Nat.toDigits_ne_nil
  have hvalue : Nat.ofDigitChars 10 d.digits 0 = d.coefficient := Nat.ofDigitChars_ten_toDigits
  rw [Numeral.toDecimal, mantissaNumeral, List.take_append_drop,
    ofDigits_map_digitValue _ fun c hc => isDigit_of_mem_digits hc, List.length_drop, hvalue]
  simp only [mk.injEq, true_and]
  omega

/-- A decimal in scientific notation is read back as it is. -/
theorem ofText?_scientific :
    ofText? (d.mantissa ++ 'e' :: Binary64.exponentText d.leadingExponent) = some d := by
  have hends : d.mantissaNumeral.EndsBefore ('e' :: Binary64.exponentText d.leadingExponent) := by
    apply d.mantissaNumeral.endsBefore_of_startsOutside
    · exact startsOutside_cons.mpr (by decide)
    · exact startsOutside_cons.mpr (by decide)
  have hread := Numeral.read?_text_append d.mantissaNumeral_valid hends
  rw [mantissaNumeral_text] at hread
  -- The point has moved behind the first digit, and the leading exponent makes up for it.
  have hexponent : 1 - (d.digits.length : Int) + d.leadingExponent = d.exponent := by
    rw [leadingExponent]
    omega
  simp only [ofText?, hread, Binary64.readInteger?_exponentText, mantissaNumeral_toDecimal,
    Option.map_some, hexponent]

/-- A decimal in positional notation is read back by its numeral. -/
theorem ofText?_positional : ofText? d.positional = some d.numeral.toDecimal := by
  have hends : d.numeral.EndsBefore [] :=
    d.numeral.endsBefore_of_startsOutside (startsOutside_nil _) (startsOutside_nil _)
  have hread := Numeral.read?_text_append d.numeral_valid hends
  rw [List.append_nil, numeral_text] at hread
  simp only [ofText?, hread]

end Decimal

end LineCalculator
