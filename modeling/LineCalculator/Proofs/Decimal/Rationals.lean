import LineCalculator.Decimal.Basic
import LineCalculator.Proofs.Binary64.Thresholds
import Mathlib.Data.Nat.Digits.Defs

namespace LineCalculator.Decimal

def toRat (d : Decimal) : ℚ :=
  d.coefficient * 10 ^ d.exponent

theorem zpow_eq_div (n : Int) : (10 : ℚ) ^ n = 10 ^ n.toNat / 10 ^ (-n).toNat := by
  rw [← zpow_natCast, ← zpow_natCast, ← zpow_sub₀ (by norm_num), Int.toNat_sub_toNat_neg]

theorem toRat_nonneg (d : Decimal) : 0 ≤ d.toRat :=
  mul_nonneg (Nat.cast_nonneg _) (zpow_nonneg (by norm_num) _)

def signedRat (negative : Bool) (d : Decimal) : ℚ :=
  if negative then -d.toRat else d.toRat

theorem abs_signedRat (negative : Bool) (d : Decimal) : |d.signedRat negative| = d.toRat := by
  cases negative <;> simp [signedRat, abs_of_nonneg d.toRat_nonneg]

theorem signedQuotient_eq_signedRat (negative : Bool) (d : Decimal) :
    Binary64.signedQuotient negative
      (d.coefficient * Nat.pow 10 d.exponent.toNat * Binary64.unitsPerOne)
      (Nat.pow 10 (-d.exponent).toNat) = d.signedRat negative := by
  have hvalue : ((d.coefficient * Nat.pow 10 d.exponent.toNat * Binary64.unitsPerOne : Nat) : ℚ) /
      (((Nat.pow 10 (-d.exponent).toNat : Nat) : ℚ) * Binary64.unitsPerOne) = d.toRat := by
    simp only [Nat.pow_eq, Nat.cast_mul, Nat.cast_pow, Nat.cast_ofNat]
    rw [mul_div_mul_right _ _ Binary64.unitsPerOne_cast_pos.ne', mul_div_assoc, ← zpow_eq_div,
      toRat]
  cases negative with
  | false => exact hvalue
  | true => rw [Binary64.signedQuotient, if_pos rfl, neg_div, hvalue, signedRat, if_pos rfl]

/-- Under either sign the number is nearest to its rank. -/
theorem isNearestRatio (negative : Bool) (d : Decimal) :
    Binary64.IsNearestRatio (d.signedRat negative) negative d.nearestRank := by
  have hden : 0 < Nat.pow 10 (-d.exponent).toNat := Nat.pow_pos (by decide)
  rw [← signedQuotient_eq_signedRat]
  exact (Binary64.nearestRank_isNearest _ hden).isNearestRatio hden negative

theorem roundsTo_toBinary64 (d : Decimal) : Binary64.RoundsTo d.toRat d.toBinary64 :=
  ⟨false, d.nearestRank, rfl, d.isNearestRatio false⟩

section Order

variable {d d' : Decimal} {rank : Nat}

theorem nearestRank_le_nearestRank (h : d.toRat ≤ d'.toRat) : d.nearestRank ≤ d'.nearestRank := by
  apply (d.isNearestRatio false).rank_mono (d'.isNearestRatio false)
  rwa [abs_signedRat, abs_signedRat]

/-- A magnitude bounds the ranks of the numbers on its two sides. -/
theorem nearestRank_le_of_toRat_le (h : d.toRat ≤ Binary64.ratio false rank) :
    d.nearestRank ≤ rank := by
  apply (d.isNearestRatio false).rank_mono (Binary64.isNearestRatio_ratio false rank)
  rw [abs_signedRat]
  exact h.trans (le_abs_self _)

theorem le_nearestRank_of_le_toRat (h : Binary64.ratio false rank ≤ d.toRat) :
    rank ≤ d.nearestRank := by
  apply (Binary64.isNearestRatio_ratio false rank).rank_mono (d.isNearestRatio false)
  rw [abs_signedRat, abs_of_nonneg (Binary64.ratio_false_nonneg rank)]
  exact h

/-- So does the middle between two magnitudes. -/
theorem two_mul_toRat_le (h : d.nearestRank ≤ rank) :
    2 * d.toRat ≤ Binary64.ratio false rank + Binary64.ratio false (rank + 1) := by
  have hmiddle := ((d.isNearestRatio false).rank_le_iff rank).mp h
  rw [abs_signedRat] at hmiddle
  exact hmiddle.1

theorem le_two_mul_toRat (h : rank < d.nearestRank) :
    Binary64.ratio false rank + Binary64.ratio false (rank + 1) ≤ 2 * d.toRat := by
  have hmiddle := (d.isNearestRatio false).rank_le_iff rank
  rw [abs_signedRat] at hmiddle
  by_contra hlt
  have hle := hmiddle.mpr ⟨(not_le.mp hlt).le, fun heq => absurd heq.ge hlt⟩
  omega

end Order

section Value

variable (d : Decimal)

theorem toBinary64_cases :
    (∃ rank, d.toBinary64 = .finite false rank) ∨ d.toBinary64 = .infinity false := by
  unfold toBinary64 Binary64.ofRank
  split
  · exact .inl ⟨_, rfl⟩
  · exact .inr rfl

theorem isNegative_toBinary64 : d.toBinary64.isNegative = false := by
  rcases d.toBinary64_cases with ⟨rank, hvalue⟩ | hvalue <;> rw [hvalue, Binary64.isNegative]

theorem toBinary64_ne_nan : d.toBinary64 ≠ .nan := by
  rcases d.toBinary64_cases with ⟨rank, hvalue⟩ | hvalue <;> simp [hvalue]

theorem isZero_toBinary64_iff : d.toBinary64.isZero = true ↔ d.toRat ≤ 1 / 2 ^ 1075 := by
  rw [d.roundsTo_toBinary64.isZero_iff, abs_of_nonneg d.toRat_nonneg]

theorem toBinary64_eq_infinity_iff :
    d.toBinary64 = .infinity false ↔ 2 ^ 1024 - 2 ^ 970 ≤ d.toRat := by
  have hfinite := d.roundsTo_toBinary64.isFinite_iff
  rw [abs_of_nonneg d.toRat_nonneg] at hfinite
  rw [← not_lt, ← hfinite]
  rcases d.toBinary64_cases with ⟨rank, hvalue⟩ | hvalue <;> rw [hvalue, Binary64.isFinite] <;> simp

end Value

section Digits

variable (whole fraction : List Nat)

theorem coefficient_ofDigits (digits : List Nat) (places : Nat) :
    (ofDigits digits places).coefficient = Nat.ofDigits 10 digits.reverse := by
  rw [Nat.ofDigits_eq_foldr, List.foldr_reverse]
  change digits.foldl (fun value digit => 10 * value + digit) 0 = _
  congr 1
  funext value digit
  exact Nat.add_comm _ _

/-- Digits behind the point are digits before it, moved down by as many places. -/
theorem cast_ofDigits_reverse : ((Nat.ofDigits 10 fraction.reverse : Nat) : ℚ) =
    10 ^ fraction.length * Nat.ofDigits (10⁻¹ : ℚ) (0 :: fraction) := by
  induction fraction with
  | nil => simp [Nat.ofDigits]
  | cons digit rest ih =>
    have hshift (x : ℚ) : (10 : ℚ) ^ (rest.length + 1) * (10⁻¹ * x) = 10 ^ rest.length * x := by
      rw [pow_succ, mul_assoc, mul_inv_cancel_left₀ (by norm_num)]
    calc ((Nat.ofDigits 10 (digit :: rest).reverse : Nat) : ℚ)
        = ((Nat.ofDigits 10 rest.reverse : Nat) : ℚ) + 10 ^ rest.length * digit := by
          rw [Nat.ofDigits_reverse_cons, Nat.cast_add, Nat.cast_mul, Nat.cast_pow, Nat.cast_ofNat]
      _ = 10 ^ rest.length * (digit + Nat.ofDigits (10⁻¹ : ℚ) (0 :: rest)) := by
          rw [ih]
          ring
      _ = 10 ^ (digit :: rest).length * Nat.ofDigits (10⁻¹ : ℚ) (0 :: digit :: rest) := by
          simp only [Nat.ofDigits, Nat.cast_zero, zero_add, List.length_cons, hshift]

theorem toRat_ofDigits : (ofDigits (whole ++ fraction) fraction.length).toRat =
    Nat.ofDigits (10 : ℚ) whole.reverse + Nat.ofDigits (10⁻¹ : ℚ) (0 :: fraction) := by
  have hpow : (10 : ℚ) ^ fraction.length ≠ 0 := pow_ne_zero _ (by norm_num)
  have hexponent : (ofDigits (whole ++ fraction) fraction.length).exponent =
      -(fraction.length : Int) := rfl
  rw [toRat, coefficient_ofDigits, hexponent, zpow_neg, zpow_natCast, List.reverse_append,
    Nat.ofDigits_append, List.length_reverse, Nat.cast_add, cast_ofDigits_reverse]
  push_cast
  field_simp
  ring

end Digits

end LineCalculator.Decimal
