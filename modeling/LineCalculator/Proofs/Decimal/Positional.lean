import LineCalculator.Proofs.Decimal.Digits

namespace LineCalculator.Decimal

theorem isDigit_of_mem_digits {d : Decimal} {c : Char} (h : c ∈ d.digits) : c.isDigit = true :=
  Nat.isDigit_of_mem_toDigits (by decide) (by decide) h

theorem isDigit_of_mem_replicate {n : Nat} {c : Char} (h : c ∈ List.replicate n '0') :
    c.isDigit = true := by
  rw [List.eq_of_mem_replicate h]
  decide

def padded (d : Decimal) (places : Nat) : List Char :=
  List.replicate (places + 1 - d.digits.length) '0' ++ d.digits

theorem lt_length_padded (d : Decimal) (places : Nat) : places < (d.padded places).length := by
  simp only [padded, List.length_append, List.length_replicate]
  omega

theorem isDigit_of_mem_padded {d : Decimal} {places : Nat} {c : Char} (h : c ∈ d.padded places) :
    c.isDigit = true := by
  rcases List.mem_append.mp h with h | h
  · exact isDigit_of_mem_replicate h
  · exact isDigit_of_mem_digits h

/-- Zeros in front of a number do not change it. -/
theorem ofDigitChars_padded (d : Decimal) (places : Nat) :
    Nat.ofDigitChars 10 (d.padded places) 0 = d.coefficient := by
  rw [padded, Nat.ofDigitChars_append, Nat.ofDigitChars_replicate_zero, Nat.mul_zero, digits,
    Nat.ofDigitChars_ten_toDigits]

def numeral (d : Decimal) : Numeral :=
  if 0 ≤ d.exponent then ⟨d.digits ++ List.replicate d.exponent.toNat '0', []⟩
  else
    let places := (-d.exponent).toNat
    let digits := d.padded places
    ⟨digits.take (digits.length - places), digits.drop (digits.length - places)⟩

theorem numeral_text (d : Decimal) : d.numeral.text = d.positional := by
  unfold numeral positional
  split
  · simp [Numeral.text]
  · rename_i hexponent
    have hlt := d.lt_length_padded (-d.exponent).toNat
    have hne : (d.padded (-d.exponent).toNat).drop
        ((d.padded (-d.exponent).toNat).length - (-d.exponent).toNat) ≠ [] := by
      rw [ne_eq, List.drop_eq_nil_iff]
      omega
    exact Numeral.text_of_fraction_ne_nil hne

theorem isDigit_of_mem_numeral (d : Decimal) :
    (∀ c ∈ d.numeral.whole, c.isDigit = true) ∧ ∀ c ∈ d.numeral.fraction, c.isDigit = true := by
  unfold numeral
  split
  · refine ⟨fun c hc => ?_, by simp⟩
    rcases List.mem_append.mp hc with hc | hc
    · exact isDigit_of_mem_digits hc
    · exact isDigit_of_mem_replicate hc
  · exact ⟨fun c hc => isDigit_of_mem_padded (List.mem_of_mem_take hc),
      fun c hc => isDigit_of_mem_padded (List.mem_of_mem_drop hc)⟩

theorem numeral_valid (d : Decimal) : d.numeral.Valid := by
  obtain ⟨hwhole, hfraction⟩ := d.isDigit_of_mem_numeral
  refine ⟨?_, fun c hc => isDecimalDigit_of_isDigit (hwhole c hc),
    fun c hc => isDecimalDigit_of_isDigit (hfraction c hc)⟩
  unfold numeral
  split
  · simp [digits, Nat.toDigits_ne_nil]
  · have hlt := d.lt_length_padded (-d.exponent).toNat
    rw [← List.length_pos_iff, List.length_take]
    omega

theorem numeral_toDecimal (d : Decimal) : d.numeral.toDecimal =
    ⟨Nat.ofDigitChars 10 (d.numeral.whole ++ d.numeral.fraction) 0,
      -(d.numeral.fraction.length : Int)⟩ := by
  obtain ⟨hwhole, hfraction⟩ := d.isDigit_of_mem_numeral
  have hdigits : ∀ c ∈ d.numeral.whole ++ d.numeral.fraction, c.isDigit = true := by
    intro c hc
    exact (List.mem_append.mp hc).elim (hwhole c) (hfraction c)
  rw [Numeral.toDecimal, ofDigits_map_digitValue _ hdigits]

/-- The point parts the digits without changing them. -/
theorem numeral_toDecimal_of_neg {d : Decimal} (h : d.exponent < 0) : d.numeral.toDecimal = d := by
  have hlt := d.lt_length_padded (-d.exponent).toNat
  have hplaces : (d.padded (-d.exponent).toNat).length -
      ((d.padded (-d.exponent).toNat).length - (-d.exponent).toNat) = (-d.exponent).toNat := by
    omega
  have hneg : -((-d.exponent).toNat : Int) = d.exponent := by omega
  rw [numeral_toDecimal, numeral, if_neg (not_le.mpr h)]
  dsimp only
  rw [List.take_append_drop, ofDigitChars_padded, List.length_drop, hplaces, hneg]

/-- The numeral of a decimal stands for a decimal of the same size. -/
theorem nearestRank_numeral (d : Decimal) : d.numeral.toDecimal.nearestRank = d.nearestRank := by
  rcases lt_or_ge d.exponent 0 with hneg | hexponent
  · rw [numeral_toDecimal_of_neg hneg]
  -- The zeros after a whole number multiply it by the power of ten.
  · have hplaces : (-d.exponent).toNat = 0 := by omega
    rw [numeral_toDecimal, numeral, if_pos hexponent, List.append_nil, Nat.ofDigitChars_append,
      Nat.ofDigitChars_replicate_zero, digits, Nat.ofDigitChars_ten_toDigits, nearestRank,
      nearestRank, hplaces]
    simp [Nat.mul_comm]

/-- The text of a decimal is read as the binary64 value nearest to it. -/
theorem numeral_value (d : Decimal) : d.numeral.value = d.toBinary64 := by
  rw [Numeral.value, toBinary64, nearestRank_numeral, toBinary64]

end LineCalculator.Decimal
