import LineCalculator.Proofs.Binary64.IntegerDivision
import LineCalculator.Proofs.Binary64.IntegerPower
import LineCalculator.Proofs.Expression.Printing

namespace LineCalculator

theorem toList_toString (n : Int) : (toString n).toList =
    Binary64.signText (decide (n < 0)) ++ Nat.toDigits 10 n.natAbs := by
  rw [Int.toString_eq_repr, Int.repr_eq_if]
  by_cases h : 0 ≤ n
  · have hnat : n.toNat = n.natAbs := by omega
    rw [if_pos h, Nat.toList_repr, decide_eq_false (not_lt.mpr h), hnat]
    rfl
  · have hnat : (-n).toNat = n.natAbs := by omega
    rw [if_neg h, String.toList_append, Nat.toList_repr, decide_eq_true (not_le.mp h), hnat]
    simp [Binary64.signText]

/-- A whole result is written without a fraction, and zero without a sign. -/
theorem Binary64.IsInt.resultText_eq {a : Binary64} {n : Int} (h : IsInt a n) :
    a.resultText = toString n := by
  have hzero := h.isZero_iff
  obtain ⟨negative, rank, rfl, hunits⟩ := h
  have hmagnitude := units_eq_of_signedUnits hunits
  obtain ⟨hneg, hpos⟩ := sign_of_signedUnits hunits
  rw [resultText]
  by_cases hn : n = 0
  · rw [if_pos (hzero.mpr hn), hn]
    rfl
  · have hmod : units rank % unitsPerOne = 0 := by rw [hmagnitude, Nat.mul_mod_left]
    have hdiv : units rank / unitsPerOne = n.natAbs := by
      rw [hmagnitude, Nat.mul_div_cancel _ unitsPerOne_pos]
    have hsign : negative = decide (n < 0) := by
      cases negative with
      | false => exact (decide_eq_false (not_lt.mpr (hpos rfl))).symm
      | true => exact (decide_eq_true (lt_of_le_of_ne (hneg rfl) hn)).symm
    rw [if_neg (hzero.not.mpr hn), ← String.toList_inj, toList_render_finite, toList_toString,
      resultMagnitude, if_pos hmod, hdiv, hsign]

theorem Binary64.resultText_of_isZero {a : Binary64} (h : a.isZero = true) :
    a.resultText = "0" := by
  rw [resultText, if_pos h]

def Literal.ofInt (n : Int) : Literal :=
  ⟨decide (n < 0), Decimal.numeral ⟨n.natAbs, 0⟩, Decimal.numeral_valid _⟩

theorem Literal.text_ofInt (n : Int) : (ofInt n).text = (toString n).toList := by
  rw [text_eq_append, toList_toString, ofInt, Decimal.numeral_text]
  simp [Decimal.positional, Decimal.digits]

theorem Literal.value_ofInt {n : Int} (h : n.natAbs ≤ 2 ^ 53) : (ofInt n).value.IsInt n := by
  -- A whole number in reach is a magnitude, so its conversion does not round.
  obtain ⟨rank, hunits⟩ := Binary64.exists_rank_of_le h
  have hpos : (0 : Int) ≤ Binary64.unitsPerOne := Int.natCast_nonneg _
  refine ⟨decide (n < 0), rank, ?_, ?_⟩
  · rw [ofInt, value_numeral, Decimal.nearestRank_whole hunits, Binary64.ofRank,
      dif_pos rank.isLt]
  · apply Binary64.signedUnits_eq
    · rw [hunits, Int.natAbs_mul, Int.natAbs_natCast]
    · intro hsign
      exact mul_nonpos_of_nonpos_of_nonneg (of_decide_eq_true hsign).le hpos
    · intro hsign
      exact mul_nonneg (not_lt.mp (of_decide_eq_false hsign)) hpos

end LineCalculator
