import LineCalculator.Proofs.Binary64.FlooredRemainder
import LineCalculator.Proofs.Binary64.Thresholds

/-!
Rounding under a sign. A rounded value keeps the sign of the exact number even where it vanishes or
overflows, and an exact zero has the sign that the operation gives it. This leaves one value for
each number, which sum, difference, product and quotient of finite values all return.
-/
namespace LineCalculator.Binary64

/-- The value is the number rounded to nearest, ties to even, under the sign of the number. A number
that is zero becomes the zero of the given sign. -/
structure RoundsSigned (x : ℚ) (zeroNegative : Bool) (a : Binary64) : Prop where
  roundsTo : RoundsTo x a
  isNegative : x ≠ 0 → a.isNegative = decide (x < 0)
  eq_zero : x = 0 → a = zero zeroNegative

theorem IsNearestRatio.rank_unique {x : ℚ} {s t : Bool} {m n : Nat} (hm : IsNearestRatio x s m)
    (hn : IsNearestRatio x t n) : m = n :=
  le_antisymm (hm.rank_mono hn le_rfl) (hn.rank_mono hm le_rfl)

namespace RoundsSigned

variable {x : ℚ} {zeroNegative : Bool} {a b : Binary64}

theorem unique (ha : RoundsSigned x zeroNegative a) (hb : RoundsSigned x zeroNegative b) :
    a = b := by
  by_cases hx : x = 0
  · rw [ha.eq_zero hx, hb.eq_zero hx]
  -- Elsewhere the sign and the rank, which make up a value, are those of the number.
  · have hsign := (ha.isNegative hx).trans (hb.isNegative hx).symm
    obtain ⟨s, m, rfl, hm⟩ := ha.roundsTo
    obtain ⟨t, n, rfl, hn⟩ := hb.roundsTo
    rw [isNegative_ofRank, isNegative_ofRank] at hsign
    rw [hsign, hm.rank_unique hn]

theorem of_zeroNegative {zeroNegative' : Bool} (h : RoundsSigned x zeroNegative a)
    (hzero : x = 0 → zeroNegative = zeroNegative') : RoundsSigned x zeroNegative' a := by
  refine ⟨h.roundsTo, h.isNegative, ?_⟩
  intro hx
  rw [← hzero hx]
  exact h.eq_zero hx

theorem eq_ofRank (h : RoundsSigned x zeroNegative a) (hx : x ≠ 0) :
    ∃ rank, a = ofRank (decide (x < 0)) rank := by
  have hsign := h.isNegative hx
  obtain ⟨s, rank, rfl, -⟩ := h.roundsTo
  rw [isNegative_ofRank] at hsign
  exact ⟨rank, by rw [hsign]⟩

/-- An overflow goes to the infinity of the number's sign. -/
theorem eq_infinity (h : RoundsSigned x zeroNegative a) (hx : 2 ^ 1024 - 2 ^ 970 ≤ |x|) :
    a = .infinity (decide (x < 0)) := by
  have hfinite := mt h.roundsTo.isFinite_iff.mp (not_lt.mpr hx)
  -- A zero would be rounded to a finite value.
  have hne : x ≠ 0 := by
    rintro rfl
    rw [h.eq_zero rfl] at hfinite
    exact hfinite rfl
  obtain ⟨rank, rfl⟩ := h.eq_ofRank hne
  rw [isFinite_ofRank] at hfinite
  rw [ofRank, dif_neg hfinite]

/-- An underflow goes to the zero of the number's sign. -/
theorem eq_zero_of_le (h : RoundsSigned x zeroNegative a) (hne : x ≠ 0)
    (hx : |x| ≤ 1 / 2 ^ 1075) : a = zero (decide (x < 0)) := by
  have hzero := h.roundsTo.isZero_iff.mpr hx
  obtain ⟨rank, rfl⟩ := h.eq_ofRank hne
  rw [(isZero_ofRank _ _).mp hzero]
  rfl

end RoundsSigned

section Results

variable {a b : Binary64}

theorem signedQuotient_eq_zero_iff (negative : Bool) {num den : Nat} (hden : 0 < den) :
    signedQuotient negative num den = 0 ↔ num = 0 := by
  have hpos : (den : ℚ) * unitsPerOne ≠ 0 :=
    mul_ne_zero (by exact_mod_cast hden.ne') unitsPerOne_cast_pos.ne'
  rw [← abs_eq_zero, abs_signedQuotient, div_eq_zero_iff, or_iff_left hpos, Nat.cast_eq_zero]

theorem signedQuotient_lt_zero_iff (negative : Bool) {num den : Nat} (hnum : 0 < num)
    (hden : 0 < den) : signedQuotient negative num den < 0 ↔ negative = true := by
  have hpos : (0 : ℚ) < num / (den * unitsPerOne) :=
    div_pos (by exact_mod_cast hnum) (mul_pos (by exact_mod_cast hden) unitsPerOne_cast_pos)
  cases negative with
  | false => simpa [signedQuotient] using hpos.le
  | true => simpa [signedQuotient, neg_div] using hpos

/-- A quotient under a sign keeps that sign, whether it is rounded to zero or not. -/
theorem roundsSigned_ofRatio (negative : Bool) (num : Nat) {den : Nat} (hden : 0 < den) :
    RoundsSigned (signedQuotient negative num den) negative (ofRatio negative num den) := by
  refine ⟨roundsTo_ofRatio negative num hden, ?_, ?_⟩
  · intro hx
    have hnum := Nat.pos_of_ne_zero (mt (signedQuotient_eq_zero_iff negative hden).mpr hx)
    rw [ofRatio, isNegative_ofRank]
    simp only [signedQuotient_lt_zero_iff negative hnum hden, Bool.decide_eq_true]
  · intro hx
    have hnum := (signedQuotient_eq_zero_iff negative hden).mp hx
    have hrank : nearestRank num den = 0 := by
      apply nearestRank_eq_of_units hden
      rw [hnum, units_zero, Nat.zero_mul]
    rw [ofRatio, hrank]
    rfl

theorem roundsSigned_ofUnits (zeroNegative : Bool) (value : Int) :
    RoundsSigned (value / unitsPerOne) zeroNegative (ofUnits zeroNegative value) := by
  have hzero : (value : ℚ) / unitsPerOne = 0 ↔ value = 0 := by
    rw [div_eq_zero_iff, or_iff_left unitsPerOne_cast_pos.ne', Int.cast_eq_zero]
  have hneg : (value : ℚ) / unitsPerOne < 0 ↔ value < 0 := by
    rw [div_lt_iff₀ unitsPerOne_cast_pos, zero_mul, Int.cast_lt_zero]
  refine ⟨roundsTo_ofUnits zeroNegative value, ?_, ?_⟩
  · intro hx
    rw [isNegative_ofUnits (mt hzero.mpr hx)]
    simp only [hneg]
  · intro hx
    rw [ofUnits, if_pos (hzero.mp hx)]

theorem toRat_nonpos (h : a.isNegative = true) : a.toRat ≤ 0 := by
  have hnonneg (rank : Nat) : (0 : ℚ) ≤ units rank / unitsPerOne :=
    div_nonneg (Nat.cast_nonneg _) (Nat.cast_nonneg _)
  cases a with
  | nan | infinity s => exact le_refl 0
  | finite s rank =>
    obtain rfl : s = true := h
    rw [toRat, ratio_true]
    exact neg_nonpos.mpr (hnonneg rank)

theorem eq_zero_of_toRat (ha : a.isFinite = true) (h : a.toRat = 0) : a = zero a.isNegative := by
  obtain ⟨s, rank, rfl⟩ := exists_finite ha
  rw [toRat, ← abs_eq_zero, abs_ratio, div_eq_zero_iff, or_iff_left unitsPerOne_cast_pos.ne',
    Nat.cast_eq_zero, units_eq_zero_iff] at h
  obtain rfl : rank = ⟨0, by decide⟩ := Fin.ext h
  rfl

/-- Two negative terms only sum up to zero where both of them are zeros. -/
theorem and_isNegative_eq (ha : a.isFinite = true) (hb : b.isFinite = true)
    (hsum : a.toRat + b.toRat = 0) :
    (a.isNegative && b.isNegative) = decide (a = zero true ∧ b = zero true) := by
  rw [Bool.eq_iff_iff, Bool.and_eq_true_iff, decide_eq_true_iff]
  constructor
  · rintro ⟨hs, ht⟩
    have hleft := toRat_nonpos hs
    have hright := toRat_nonpos ht
    have hazero := eq_zero_of_toRat ha (by linarith)
    have hbzero := eq_zero_of_toRat hb (by linarith)
    rw [hs] at hazero
    rw [ht] at hbzero
    exact ⟨hazero, hbzero⟩
  · rintro ⟨rfl, rfl⟩
    exact ⟨rfl, rfl⟩

theorem roundsSigned_add (ha : a.isFinite = true) (hb : b.isFinite = true) :
    RoundsSigned (a.toRat + b.toRat) (decide (a = zero true ∧ b = zero true)) (a + b) := by
  obtain ⟨s, rank, rfl⟩ := exists_finite ha
  obtain ⟨t, rank', rfl⟩ := exists_finite hb
  have hround := roundsSigned_ofUnits (s && t) (signedUnits s rank + signedUnits t rank')
  rw [Int.cast_add, add_div] at hround
  exact hround.of_zeroNegative (and_isNegative_eq ha hb)

theorem roundsSigned_sub (ha : a.isFinite = true) (hb : b.isFinite = true) :
    RoundsSigned (a.toRat - b.toRat) (decide (a = zero true ∧ -b = zero true)) (a - b) := by
  rw [sub_eq_add_neg, ← toRat_neg]
  exact roundsSigned_add ha (by rwa [isFinite_neg])

theorem roundsSigned_mul (ha : a.isFinite = true) (hb : b.isFinite = true) :
    RoundsSigned (a.toRat * b.toRat) (a.isNegative != b.isNegative) (a * b) := by
  obtain ⟨s, rank, rfl⟩ := exists_finite ha
  obtain ⟨t, rank', rfl⟩ := exists_finite hb
  have hround := roundsSigned_ofRatio (s != t) (units rank * units rank') unitsPerOne_pos
  rw [signedQuotient_mul] at hround
  exact hround

theorem roundsSigned_div (ha : a.isFinite = true) (hb : b.isFinite = true)
    (hzero : b.isZero = false) :
    RoundsSigned (a.toRat / b.toRat) (a.isNegative != b.isNegative) (a / b) := by
  obtain ⟨s, rank, rfl⟩ := exists_finite ha
  obtain ⟨t, divisor, rfl⟩ := exists_finite hb
  have hne : divisor.val ≠ 0 := by simpa [isZero] using hzero
  have hpos : 0 < units divisor := Nat.pos_of_ne_zero (units_eq_zero_iff.not.mpr hne)
  have hround := roundsSigned_ofRatio (s != t) (units rank * unitsPerOne) hpos
  rw [signedQuotient_div s t rank hpos] at hround
  rw [div_finite_eq s t rank divisor hne]
  exact hround

end Results

end LineCalculator.Binary64
