import LineCalculator.Binary64.Notation
import LineCalculator.Proofs.Binary64.RationalArithmetic
import LineCalculator.Proofs.Decimal.Neighbours
import LineCalculator.Proofs.Decimal.Reading

namespace LineCalculator

/-- A whole part without a zero in front of other digits, and a fraction that does not end in
zero. -/
structure Numeral.IsPlain (n : Numeral) : Prop where
  whole_digits : ∀ c ∈ n.whole, c.isDigit = true
  fraction_digits : ∀ c ∈ n.fraction, c.isDigit = true
  whole : n.whole = ['0'] ∨ ∃ c tail, n.whole = c :: tail ∧ c ≠ '0'
  fraction : ∃ c, n.fraction.getLast? = some c ∧ c ≠ '0'

/-- One digit other than zero, and perhaps a fraction that does not end in zero. -/
structure Numeral.IsMantissa (n : Numeral) : Prop where
  whole_digits : ∀ c ∈ n.whole, c.isDigit = true
  fraction_digits : ∀ c ∈ n.fraction, c.isDigit = true
  whole : ∃ c, n.whole = [c] ∧ c ≠ '0'
  fraction : n.fraction.getLast? ≠ some '0'

namespace Decimal

variable {d : Decimal}

section Digits

theorem exists_toDigits_eq_cons {n : Nat} (hn : n ≠ 0) :
    ∃ c tail, Nat.toDigits 10 n = c :: tail ∧ c ≠ '0' := by
  induction n using Nat.strong_induction_on with
  | _ n ih =>
    rw [Nat.toDigits_eq_if (by decide)]
    split
    · exact ⟨_, [], rfl, Nat.digitChar_eq_zero.not.mpr hn⟩
    · obtain ⟨c, tail, hdigits, hc⟩ := ih (n / 10) (by omega) (by omega)
      rw [hdigits]
      exact ⟨c, _, rfl, hc⟩

theorem exists_digits_eq_cons (h : d.coefficient % 10 ≠ 0) :
    ∃ c tail, d.digits = c :: tail ∧ c ≠ '0' :=
  exists_toDigits_eq_cons fun hzero => h (by rw [hzero])

/-- The last digit is that of the coefficient. -/
theorem getLast?_digits (h : d.coefficient % 10 ≠ 0) :
    ∃ c, d.digits.getLast? = some c ∧ c ≠ '0' := by
  refine ⟨Nat.digitChar (d.coefficient % 10), ?_, Nat.digitChar_eq_zero.not.mpr h⟩
  rw [digits, Nat.toDigits_eq_if (by decide)]
  split
  · rename_i hlt
    rw [List.getLast?_singleton, Nat.mod_eq_of_lt hlt]
  · rw [List.getLast?_append, List.getLast?_singleton, Option.some_or]

end Digits

section Numerals

theorem isPlain_numeral (h : d.coefficient % 10 ≠ 0) (hexponent : d.exponent < 0) :
    d.numeral.IsPlain := by
  obtain ⟨first, tail, hdigits, hfirst⟩ := exists_digits_eq_cons h
  obtain ⟨last, hlast, hne⟩ := getLast?_digits h
  obtain ⟨hwhole, hfraction⟩ := d.isDigit_of_mem_numeral
  have hplaces : (-d.exponent).toNat ≠ 0 := by omega
  have hlt := d.lt_length_padded (-d.exponent).toNat
  refine ⟨hwhole, hfraction, ?_, ?_⟩
  · rw [numeral, if_neg (not_le.mpr hexponent)]
    dsimp only
    generalize (-d.exponent).toNat = places at hplaces hlt
    -- Digits that all stand behind the point leave one zero before it.
    rcases Nat.lt_or_ge places d.digits.length with hlong | hshort
    · right
      have hpadded : d.padded places = first :: tail := by
        rw [padded, Nat.sub_eq_zero_of_le hlong, List.replicate_zero, List.nil_append, hdigits]
      rw [hpadded] at hlt ⊢
      obtain ⟨count, hcount⟩ := Nat.exists_eq_add_one_of_ne_zero (Nat.sub_pos_of_lt hlt).ne'
      rw [hcount, List.take_succ_cons]
      exact ⟨first, _, rfl, hfirst⟩
    · left
      have hlength : (d.padded places).length - places = 1 := by
        simp only [padded, List.length_append, List.length_replicate]
        omega
      rw [hlength, padded, Nat.sub_add_comm hshort, List.replicate_succ]
      rfl
  · refine ⟨last, ?_, hne⟩
    rw [numeral, if_neg (not_le.mpr hexponent), List.getLast?_drop, if_neg (by omega), padded,
      List.getLast?_append, hlast, Option.some_or]

theorem isMantissa_mantissaNumeral (h : d.coefficient % 10 ≠ 0) :
    d.mantissaNumeral.IsMantissa := by
  obtain ⟨first, tail, hdigits, hfirst⟩ := exists_digits_eq_cons h
  obtain ⟨last, hlast, hne⟩ := getLast?_digits h
  refine ⟨fun c hc => isDigit_of_mem_digits (List.mem_of_mem_take hc),
    fun c hc => isDigit_of_mem_digits (List.mem_of_mem_drop hc), ⟨first, ?_, hfirst⟩, ?_⟩
  · rw [mantissaNumeral, hdigits]
    rfl
  · rw [mantissaNumeral, List.getLast?_drop, hlast]
    split <;> simp [hne]

end Numerals

section Size

/-- The power of ten of the first digit is the last one that is not above the number. -/
theorem leadingExponent_bounds (h : d.coefficient ≠ 0) :
    10 ^ d.leadingExponent ≤ d.toRat ∧ d.toRat < 10 ^ (d.leadingExponent + 1) := by
  have hlow := pow_length_toDigits_le (Nat.pos_of_ne_zero h)
  have hhigh := lt_pow_length_toDigits d.coefficient
  have hpos : 0 < d.digits.length := List.length_pos_iff.mpr Nat.toDigits_ne_nil
  have hpow := zpow_ten_pos d.exponent
  rw [← digits] at hlow hhigh
  have hfirst : (10 : ℚ) ^ d.leadingExponent = 10 ^ (d.digits.length - 1) * 10 ^ d.exponent := by
    apply zpow_ten_eq_mul
    rw [leadingExponent]
    omega
  have hbeyond : (10 : ℚ) ^ (d.leadingExponent + 1) = 10 ^ d.digits.length * 10 ^ d.exponent := by
    apply zpow_ten_eq_mul
    rw [leadingExponent]
    omega
  rw [hfirst, hbeyond, toRat]
  constructor
  · exact mul_le_mul_of_nonneg_right (by exact_mod_cast hlow) hpow.le
  · exact mul_lt_mul_of_pos_right (by exact_mod_cast hhigh) hpow

/-- A decimal that rounds below one ten-thousandth is itself below it. -/
theorem leadingExponent_lt (h : d.coefficient ≠ 0) (hsmall : d.nearestRank < Binary64.smallLimit) :
    d.leadingExponent < -4 := by
  by_contra hlarge
  have hlimit : toRat ⟨1, -4⟩ ≤ d.toRat := by
    rw [toRat, Nat.cast_one, one_mul]
    exact (zpow_le_zpow_right₀ (by norm_num) (not_lt.mp hlarge)).trans (leadingExponent_bounds h).1
  exact absurd (nearestRank_le_nearestRank hlimit) (not_le.mpr hsmall)

/-- A decimal that does not round to zero is above half of the least magnitude. -/
theorem le_leadingExponent (h : d.coefficient ≠ 0) (hrank : d.nearestRank ≠ 0) :
    -324 ≤ d.leadingExponent := by
  have hpositive : ¬ d.toRat ≤ 1 / 2 ^ 1075 := by
    rwa [← isZero_toBinary64_iff, toBinary64, Binary64.isZero_ofRank]
  have hplaces : 2 ^ 1075 ≤ 10 ^ 324 := by
    decide +kernel
  have hcast : (324 : Int) = ((324 : Nat) : Int) := rfl
  rw [hcast]
  generalize 324 = places at hplaces ⊢
  generalize 1075 = bits at hplaces hpositive
  by_contra hsmall
  apply hpositive
  calc d.toRat ≤ 10 ^ (d.leadingExponent + 1) := (leadingExponent_bounds h).2.le
    _ ≤ 10 ^ (-(places : Int)) := zpow_le_zpow_right₀ (by norm_num) (by omega)
    _ ≤ 1 / 2 ^ bits := by
      rw [zpow_neg, zpow_natCast, ← one_div]
      apply one_div_le_one_div_of_le (by positivity)
      exact_mod_cast hplaces

/-- A decimal that rounds to a magnitude with a fraction has a fraction itself: small whole numbers
are not rounded, and large magnitudes are whole. -/
theorem exponent_neg (h : Binary64.units d.nearestRank % Binary64.unitsPerOne ≠ 0) :
    d.exponent < 0 := by
  by_contra hexponent
  rw [not_lt] at hexponent
  have hvalue : d.toRat = ((d.coefficient * 10 ^ d.exponent.toNat : Nat) : ℚ) := by
    rw [toRat, Nat.cast_mul, Nat.cast_pow, Nat.cast_ofNat, ← zpow_natCast,
      Int.toNat_of_nonneg hexponent]
  generalize d.coefficient * 10 ^ d.exponent.toNat = n at hvalue
  have hratio {m rank : Nat} (hunits : Binary64.units rank = m * Binary64.unitsPerOne) :
      Binary64.ratio false rank = m := by
    rw [Binary64.ratio_false, hunits, Nat.cast_mul,
      mul_div_cancel_right₀ _ Binary64.unitsPerOne_cast_pos.ne']
  rcases le_total n (2 ^ 53) with hsmall | hlarge
  · obtain ⟨rank, hunits⟩ := Binary64.exists_rank_of_le hsmall
    have hsame : d.toRat = Binary64.ratio false rank := by rw [hvalue, hratio hunits]
    have hrank : d.nearestRank = rank :=
      le_antisymm (nearestRank_le_of_toRat_le hsame.le) (le_nearestRank_of_le_toRat hsame.ge)
    rw [hrank, hunits, Nat.mul_mod_left] at h
    exact h rfl
  · obtain ⟨rank, hunits⟩ := Binary64.exists_rank_of_le (le_refl (2 ^ 53))
    have hrank : rank ≤ d.nearestRank := by
      apply le_nearestRank_of_le_toRat
      rw [hvalue, hratio hunits]
      exact_mod_cast hlarge
    have hbound := Binary64.units_lt_of_not_dvd (Nat.dvd_iff_mod_eq_zero.not.mpr h)
    have hle := Binary64.units_strictMono.le_iff_le.mpr hrank
    rw [hunits] at hle
    omega

end Size

end Decimal

end LineCalculator
