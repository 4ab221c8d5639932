import LineCalculator.Proofs.Binary64.Thresholds
import LineCalculator.Proofs.Decimal.Rationals
import LineCalculator.Proofs.Text.DigitRuns
import LineCalculator.Proofs.Token.LongestMatch
import LineCalculator.Proofs.Token.Tiling

namespace LineCalculator

open Binary64 (RoundsTo)

namespace Numeral

/-- The numeral writes this number: its characters stand for digits, the last one before the point
counts ones and the first one behind it tenths. -/
def Writes (n : Numeral) (x : ℚ) : Prop :=
  ∃ whole fraction, List.Forall₂ StandsFor n.whole whole ∧
    List.Forall₂ StandsFor n.fraction fraction ∧
    x = Nat.ofDigits (10 : ℚ) whole.reverse + Nat.ofDigits (10⁻¹ : ℚ) (0 :: fraction)

theorem forall₂_standsFor_iff {chars : List Char} {digits : List Nat} :
    List.Forall₂ StandsFor chars digits ↔
      (∀ c ∈ chars, isDecimalDigit c = true) ∧ chars.map digitValue = digits := by
  have hstands : StandsFor = fun c digit => isDecimalDigit c = true ∧ digitValue c = digit := by
    funext c digit
    exact propext standsFor_iff
  rw [hstands, List.forall₂_and_left, ← List.forall₂_eq_eq_eq, List.forall₂_map_left_iff]

/-- A numeral of the grammar writes exactly one number. -/
theorem writes_iff {n : Numeral} (hn : n.Valid) (x : ℚ) : n.Writes x ↔ x = n.toDecimal.toRat := by
  have hvalue : n.toDecimal.toRat = Nat.ofDigits (10 : ℚ) (n.whole.map digitValue).reverse +
      Nat.ofDigits (10⁻¹ : ℚ) (0 :: n.fraction.map digitValue) := by
    rw [← Decimal.toRat_ofDigits, List.length_map, ← List.map_append]
    rfl
  rw [hvalue]
  constructor
  · rintro ⟨whole, fraction, hwhole, hfraction, rfl⟩
    rw [(forall₂_standsFor_iff.mp hwhole).2, (forall₂_standsFor_iff.mp hfraction).2]
  · intro hx
    have hwhole := forall₂_standsFor_iff.mpr ⟨hn.whole_digits, rfl⟩
    have hfraction := forall₂_standsFor_iff.mpr ⟨hn.fraction_digits, rfl⟩
    exact ⟨_, _, hwhole, hfraction, hx⟩

end Numeral

section Token

variable {n : Numeral} {source : List Char} {stream : TokenStream} {token : Token}

theorem scan_numeral (hn : n.Valid) : TokenStream.scan n.text =
    .ok ⟨[⟨.number n.value, ⟨0, byteLength n.text⟩⟩], ⟨byteLength n.text, byteLength n.text⟩⟩ := by
  have hlayout := Layout.piece gap_nil (IsLexeme.number n hn).longest_nil (.done gap_nil)
  exact hlayout.scan_alone List.mem_cons_self

/-- Where a token stands on a numeral, it is the number of this numeral. -/
theorem kind_of_slice (hn : n.Valid) (hscan : TokenStream.scan source = .ok stream)
    (htoken : token ∈ stream.body)
    (hslice : sliceBytes? source token.span.start token.span.stop = some n.text) :
    token.kind = .number n.value := by
  obtain ⟨pieces, last, hlayout, rfl⟩ := TokenStream.exists_layout_of_scan hscan
  obtain ⟨lexeme, hlexeme, hkind, hcovers⟩ := TokenStream.exists_covers_of_mem hlayout htoken
  rw [hcovers.slice, Option.some.injEq] at hslice
  have hnumber := IsLexeme.number n hn
  rw [← hslice] at hnumber
  rw [hkind]
  exact hlexeme.isLexeme.kind_unique hnumber

end Token

/-- The value of a number token is the one number that its numeral writes, rounded to nearest with
ties to even. It vanishes and overflows only from half a place beyond the positive values on, and it
is never negative nor NaN. -/
theorem tokenize_number_value (n : Numeral) (hn : n.Valid) :
    (∀ records, ((tokenize (String.ofList n.text)).run.run records).1 =
      .ok ⟨[⟨.number n.value, ⟨0, byteLength n.text⟩⟩],
        ⟨byteLength n.text, byteLength n.text⟩⟩) ∧
    (∀ source records stream, ((tokenize source).run.run records).1 = .ok stream →
      ∀ token ∈ stream.body,
        sliceBytes? source.toList token.span.start token.span.stop = some n.text →
        token.kind = .number n.value) ∧
    ∃ x, (∀ y, n.Writes y ↔ y = x) ∧ RoundsTo x n.value ∧
      (n.value.isZero = true ↔ x ≤ 1 / 2 ^ 1075) ∧
      (n.value = .infinity false ↔ 2 ^ 1024 - 2 ^ 970 ≤ x) ∧
      n.value.isNegative = false ∧ n.value ≠ .nan := by
  refine ⟨?_, ?_, n.toDecimal.toRat, n.writes_iff hn, n.toDecimal.roundsTo_toBinary64,
    n.toDecimal.isZero_toBinary64_iff, n.toDecimal.toBinary64_eq_infinity_iff,
    n.toDecimal.isNegative_toBinary64, n.toDecimal.toBinary64_ne_nan⟩
  · intro records
    rw [tokenize_eq_ok_iff, String.toList_ofList]
    exact scan_numeral hn
  · intro source records stream hstream token htoken hslice
    exact kind_of_slice hn (tokenize_eq_ok_iff.mp hstream) htoken hslice

/-- A number of three scripts that lies in the middle of two values. -/
def mixedNumeral : Numeral :=
  ⟨"9٠०7199254740993".toList, "٠".toList⟩

theorem mixedNumeral_value : mixedNumeral.Valid ∧ mixedNumeral.Writes 9007199254740993 ∧
    RoundsTo 9007199254740993 mixedNumeral.value ∧
    mixedNumeral.value = .finite false ⟨0x4340000000000000, by decide⟩ := by
  have hn : mixedNumeral.Valid := by
    refine ⟨by decide, ?_, ?_⟩
    · exact List.all_eq_true.mp (by decide +kernel)
    · exact List.all_eq_true.mp (by decide +kernel)
  have hwrites : mixedNumeral.Writes 9007199254740993 := by
    refine ⟨[9, 0, 0, 7, 1, 9, 9, 2, 5, 4, 7, 4, 0, 9, 9, 3], [0], ?_, ?_, ?_⟩
    · decide +kernel
    · decide +kernel
    · norm_num [Nat.ofDigits]
  obtain ⟨-, -, x, hx, hround, -⟩ := tokenize_number_value mixedNumeral hn
  rw [← (hx _).mp hwrites] at hround
  exact ⟨hn, hwrites, hround, by decide +kernel⟩

end LineCalculator
