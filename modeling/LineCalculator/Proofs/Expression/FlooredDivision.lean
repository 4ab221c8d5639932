import LineCalculator.Expression.Basic
import LineCalculator.Proofs.Binary64.FlooredQuotient

namespace LineCalculator

open Binary64

/-- The modulo operation gives the exact floored remainder, rounded once, however large the quotient
is. -/
theorem value_modulo_roundsTo (a b : Binary64) (ha : a.isFinite = true) (hb : b.isFinite = true)
    (hzero : b.isZero = false) :
    Expression.value ⟨a, .modulo, b⟩ = .ok (a.floorMod b) ∧
      (a.floorMod b).isFinite = true ∧
      RoundsTo (a.toRat - b.toRat * ⌊a.toRat / b.toRat⌋) (a.floorMod b) ∧
      ((a.floorMod b).isZero = true ↔ ∃ k : Int, a.toRat = k * b.toRat) ∧
      (a.floorMod b).isNegative = b.isNegative ∧
      |(a.floorMod b).toRat| ≤ |b.toRat| ∧
      |a.toRat - b.toRat * ⌊a.toRat / b.toRat⌋| < |b.toRat| := by
  obtain ⟨t, value, heq, hexact, hsign, hnonzero, hlt⟩ := exists_floorMod_eq ha hb hzero
  have hround : RoundsTo (exactMod a b) (a.floorMod b) := by
    rw [heq, hexact]
    exact roundsTo_ofUnits t value
  have hfinite := hround.isFinite hb hlt.le
  refine ⟨by simp [Expression.value, Operator.apply, hzero], hfinite, hround, ?_, ?_, ?_, hlt⟩
  · have hdivisor : b.toRat ≠ 0 := abs_pos.mp ((abs_nonneg _).trans_lt hlt)
    rw [← exactMod_eq_zero_iff hdivisor, heq, isZero_ofUnits_iff, hexact]
    simp [unitsPerOne_cast_pos.ne']
  · rw [heq, hsign]
    by_cases hvalue : value = 0
    · rw [hvalue]
      rfl
    · rw [isNegative_ofUnits hvalue, hnonzero hvalue]
  · exact hround.abs_toRat_le hfinite (isRatio_toRat b) hlt.le

/-- The least negative dividend leaves a remainder that rounds up to the divisor. -/
theorem value_modulo_least_negative :
    Expression.value ⟨.finite true ⟨1, by decide⟩, .modulo, one⟩ = .ok one ∧
      RoundsTo ((Binary64.finite true ⟨1, by decide⟩).toRat -
        one.toRat * ⌊(Binary64.finite true ⟨1, by decide⟩).toRat / one.toRat⌋) one ∧
      |(Binary64.finite true ⟨1, by decide⟩).toRat -
        one.toRat * ⌊(Binary64.finite true ⟨1, by decide⟩).toRat / one.toRat⌋| < |one.toRat| := by
  have h := value_modulo_roundsTo (.finite true ⟨1, by decide⟩) one rfl rfl rfl
  have hmod : floorMod (.finite true ⟨1, by decide⟩) one = one := by decide +kernel
  rw [hmod] at h
  exact ⟨h.1, h.2.2.1, h.2.2.2.2.2.2⟩

/-- Floor division gives the exact floor below `2 ^ 51`. Beyond it the result is whole or infinite,
and infinite only together with the quotient. -/
theorem value_floorDivide_isInt (a b : Binary64) (ha : a.isFinite = true)
    (hb : b.isFinite = true) (hzero : b.isZero = false) :
    Expression.value ⟨a, .floorDivide, b⟩ = .ok (a.floorDiv b) ∧
      (|⌊a.toRat / b.toRat⌋| < 2 ^ 51 → IsInt (a.floorDiv b) ⌊a.toRat / b.toRat⌋) ∧
      ((∃ n, IsInt (a.floorDiv b) n) ∨
        ∃ u v, a.floorDiv b = .infinity u ∧ a / b = .infinity v) ∧
      a.floorDiv b ≠ .nan := by
  have hcases := floorDiv_cases ha hb hzero
  refine ⟨by simp [Expression.value, Operator.apply, hzero], isInt_floorDiv ha hb hzero, hcases, ?_⟩
  intro hnan
  rw [hnan] at hcases
  obtain ⟨n, hn⟩ | ⟨u, v, hu, -⟩ := hcases
  · exact absurd hn.isFinite (by decide)
  · cases hu

/-- One by the value nearest to one tenth: the quotient is rounded up to ten, and yet the floored
one is nine. -/
theorem value_floorDivide_one_tenth :
    IsInt (one / .finite false ⟨0x3FB999999999999A, by decide⟩) 10 ∧
      ⌊one.toRat / (Binary64.finite false ⟨0x3FB999999999999A, by decide⟩).toRat⌋ = 9 ∧
      IsInt (one.floorDiv (.finite false ⟨0x3FB999999999999A, by decide⟩)) 9 := by
  have hfloor :
      ⌊one.toRat / (Binary64.finite false ⟨0x3FB999999999999A, by decide⟩).toRat⌋ = 9 := by
    refine (floor_div_eq false false _ _).trans ?_
    decide +kernel
  have h := (value_floorDivide_isInt one (.finite false ⟨0x3FB999999999999A, by decide⟩)
    rfl rfl rfl).2.1
  rw [hfloor] at h
  refine ⟨⟨false, ⟨0x4024000000000000, by decide⟩, ?_, ?_⟩, hfloor, h (by decide)⟩
  · decide +kernel
  · decide +kernel

end LineCalculator
