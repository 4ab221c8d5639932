import LineCalculator.Proofs.Binary64.Undefined
import LineCalculator.Proofs.Decimal.Rationals
import LineCalculator.Proofs.Expression.Sentences

namespace LineCalculator

open Binary64

namespace Operator

/-- Where the operation has no value on two values that are not NaN. -/
def Undefined (operator : Operator) (a b : Binary64) : Prop :=
  match operator with
  | .add => ∃ s, a = .infinity s ∧ b = .infinity (!s)
  | .subtract => ∃ s, a = .infinity s ∧ b = .infinity s
  | .multiply =>
    a.isZero = true ∧ (∃ t, b = .infinity t) ∨ (∃ s, a = .infinity s) ∧ b.isZero = true
  | .divide => (∃ s, a = .infinity s) ∧ ∃ t, b = .infinity t
  | .floorDivide | .modulo => ∃ s, a = .infinity s
  | .power => (a.isFinite = true ∧ a < .zero false) ∧ b.isFinite = true ∧ ∀ n, ¬ IsInt b n

section Apply

variable {operator : Operator} {a b : Binary64}

/-- No operation makes a NaN of values on which it is defined. -/
theorem apply_eq_nan_iff (ha : a ≠ .nan) (hb : b ≠ .nan)
    (hzero : (operator.divides && b.isZero) = false) :
    operator.apply a b = .nan ↔ operator.Undefined a b := by
  cases operator with
  | add => exact add_eq_nan_iff ha hb
  | subtract => exact sub_eq_nan_iff ha hb
  | multiply => exact mul_eq_nan_iff ha hb
  | divide => exact div_eq_nan_iff ha hb hzero
  | floorDivide => exact floorDiv_eq_nan_iff ha hb hzero
  | modulo => exact floorMod_eq_nan_iff ha hb hzero
  | power => exact pow_eq_nan_iff ha hb

/-- Finite values have every result but some powers. -/
theorem not_undefined_of_isFinite (ha : a.isFinite = true) (hb : b.isFinite = true)
    (hpower : operator ≠ .power) : ¬ operator.Undefined a b := by
  obtain ⟨s, rank, rfl⟩ := exists_finite ha
  obtain ⟨t, rank', rfl⟩ := exists_finite hb
  cases operator with
  | power => exact absurd rfl hpower
  | add | subtract | multiply | divide | floorDivide | modulo => simp [Undefined]

end Apply

end Operator

theorem Literal.value_ne_nan (l : Literal) : l.value ≠ .nan := by
  obtain ⟨negative, n, hn⟩ := l
  have hvalue : n.value ≠ .nan := n.toDecimal.toBinary64_ne_nan
  cases negative with
  | false => rwa [Literal.value_unsigned]
  | true =>
    rw [Literal.value_signed]
    exact neg_ne_nan hvalue

theorem operands_ne_nan {source : String} {e : Expression} (h : Denotes source e) :
    e.left ≠ .nan ∧ e.right ≠ .nan := by
  obtain ⟨s, -, rfl⟩ := denotes_iff_sentence.mp h
  exact ⟨s.left.value_ne_nan, s.right.value_ne_nan⟩

theorem Expression.value_eq_ok_iff {e : Expression} {value : Binary64} :
    e.value = .ok value ↔ (e.operator.divides && e.right.isZero) = false ∧
      e.operator.apply e.left e.right = value := by
  unfold Expression.value
  split <;> simp_all

/-- A result is NaN exactly where its operation is undefined on the two operands, neither of which
is NaN. Finite operands reach this in powers only, although the quotient inside of a floored
division may overflow, and a finite dividend meets an infinite divisor with a definite result. -/
theorem outcome_eq_nan_iff_undefined {source : String} {value : Binary64}
    (h : outcome source = .ok value) :
    ∃ a operator b, Denotes source ⟨a, operator, b⟩ ∧ a ≠ .nan ∧ b ≠ .nan ∧
      (value = .nan ↔ operator.Undefined a b) ∧
      (a.isFinite = true → b.isFinite = true → operator ≠ .power → value ≠ .nan) ∧
      (operator = .floorDivide → ∀ u, (a - a.truncatedRem b) / b = .infinity u →
        value = .infinity u) ∧
      (a.isFinite = true → ∀ t, b = .infinity t →
        (operator = .floorDivide → value =
          if a.isZero = true ∨ a.isNegative = t then zero (a.isNegative != t) else -one) ∧
        (operator = .modulo → value =
          if a.isZero = true then zero t else if a.isNegative = t then a else b)) := by
  obtain ⟨⟨a, operator, b⟩, hdenotes⟩ := outcome_ne_malformed_iff.mp (by rw [h]; simp)
  obtain ⟨ha, hb⟩ := operands_ne_nan hdenotes
  rw [outcome_of_denotes hdenotes] at h
  obtain ⟨hzero, rfl⟩ := Expression.value_eq_ok_iff.mp h
  have hnan := Operator.apply_eq_nan_iff ha hb hzero
  refine ⟨a, operator, b, hdenotes, ha, hb, hnan, ?_, ?_, ?_⟩
  · intro hafinite hbfinite hpower
    exact mt hnan.mp (Operator.not_undefined_of_isFinite hafinite hbfinite hpower)
  · rintro rfl u hu
    exact floorDiv_eq_infinity hu
  · rintro hafinite t rfl
    refine ⟨?_, ?_⟩
    · rintro rfl
      exact floorDiv_infinity_right hafinite t
    · rintro rfl
      exact floorMod_infinity_right hafinite t

/-- A root of a negative number. -/
theorem outcome_negative_root : outcome "-8 ** 0.5" = .ok .nan ∧
    ∃ a operator b, Denotes "-8 ** 0.5" ⟨a, operator, b⟩ ∧ operator.Undefined a b := by
  have hvalue : outcome "-8 ** 0.5" = .ok .nan := by decide +kernel
  obtain ⟨a, operator, b, hdenotes, -, -, hnan, -⟩ := outcome_eq_nan_iff_undefined hvalue
  exact ⟨hvalue, a, operator, b, hdenotes, hnan.mp rfl⟩

end LineCalculator
