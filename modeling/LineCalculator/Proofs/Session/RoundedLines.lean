import LineCalculator.Proofs.Binary64.SignedRounding
import LineCalculator.Proofs.Expression.WholeNumbers
import LineCalculator.Proofs.Session.Kinds

namespace LineCalculator

namespace Operator

/-- The exact result of the operation on rational numbers, of those operations that are rounded
once. A quotient by zero has none. -/
def exactResult? (operator : Operator) (x y : ℚ) : Option ℚ :=
  match operator with
  | .add => some (x + y)
  | .subtract => some (x - y)
  | .multiply => some (x * y)
  | .divide => if y = 0 then none else some (x / y)
  | .floorDivide | .modulo | .power => none

/-- Whether an exact zero is negative. A sum is when both terms are negative zeros, a difference is
a sum, and a product or quotient takes the sign of its operands. -/
def zeroNegative (operator : Operator) (a b : Binary64) : Bool :=
  match operator with
  | .add => decide (a = .zero true ∧ b = .zero true)
  | .subtract => decide (a = .zero true ∧ -b = .zero true)
  | .multiply | .divide | .floorDivide | .modulo | .power => a.isNegative != b.isNegative

end Operator

section Rounded

variable {operator : Operator} {a b : Binary64} {x : ℚ}

theorem Operator.roundsSigned_apply (ha : a.isFinite = true) (hb : b.isFinite = true)
    (hx : operator.exactResult? a.toRat b.toRat = some x) :
    Binary64.RoundsSigned x (operator.zeroNegative a b) (operator.apply a b) := by
  cases operator with
  | floorDivide | modulo | power => simp [exactResult?] at hx
  | add =>
    obtain rfl := Option.some.inj hx
    exact Binary64.roundsSigned_add ha hb
  | subtract =>
    obtain rfl := Option.some.inj hx
    exact Binary64.roundsSigned_sub ha hb
  | multiply =>
    obtain rfl := Option.some.inj hx
    exact Binary64.roundsSigned_mul ha hb
  | divide =>
    obtain ⟨hne, hx⟩ := Option.ite_none_left_eq_some.mp hx
    obtain rfl := Option.some.inj hx
    apply Binary64.roundsSigned_div ha hb
    rw [Bool.eq_false_iff]
    intro hzero
    exact hne (Binary64.toRat_of_isZero hzero)

/-- An operation with an exact result is not rejected. -/
theorem Expression.value_of_exactResult? {e : Expression}
    (hx : e.operator.exactResult? e.left.toRat e.right.toRat = some x) :
    e.value = .ok (e.operator.apply e.left e.right) := by
  -- Of the operators that divide only one has exact results, and none of them by a zero.
  have hne : (e.operator.divides && e.right.isZero) ≠ true := by
    intro h
    obtain ⟨hdivides, hzero⟩ := Bool.and_eq_true_iff.mp h
    have hright := Binary64.toRat_of_isZero hzero
    rcases Operator.divides_iff.mp hdivides with hoperator | hoperator | hoperator <;>
      simp [hoperator, Operator.exactResult?, hright] at hx
  rw [Expression.value, if_neg hne]

end Rounded

/-- A line that adds, subtracts, multiplies or divides finite operands is answered by the one value
that its exact result is rounded to: the nearest one, ties to even, where an overflow gives the
infinity and an underflow the zero of the exact sign, and an exact zero the zero of the operation's
sign. -/
theorem handleLine_rounded (line : String) (e : Expression) (x : ℚ) (he : Denotes line e)
    (ha : e.left.isFinite = true) (hb : e.right.isFinite = true)
    (hx : e.operator.exactResult? e.left.toRat e.right.toRat = some x) :
    ∃ value, outcome line = .ok value ∧
      Binary64.RoundsSigned x (e.operator.zeroNegative e.left e.right) value ∧
      (∀ other, Binary64.RoundsSigned x (e.operator.zeroNegative e.left e.right) other →
        other = value) ∧
      (2 ^ 1024 - 2 ^ 970 ≤ |x| → value = .infinity (decide (x < 0))) ∧
      (x ≠ 0 → |x| ≤ 1 / 2 ^ 1075 → value = .zero (decide (x < 0))) ∧
      (handleLine line).Emits (.ok .proceed) ("= " ++ value.resultText ++ "\n").toUTF8.data := by
  have hvalue := (outcome_of_denotes he).trans (Expression.value_of_exactResult? hx)
  have hround := Operator.roundsSigned_apply ha hb hx
  have hemits := handleLine_emits line
  rw [LineKind.reply_eq (expression_holds_of_denotes he), LineKind.reply, hvalue] at hemits
  refine ⟨_, hvalue, hround, ?_, hround.eq_infinity, hround.eq_zero_of_le, hemits⟩
  intro other hother
  exact hother.unique hround

def negativeThird : Binary64 :=
  .finite true ⟨0x3FD5555555555555, by decide⟩

theorem handleLine_third :
    Denotes "-1 / 3" ⟨(Literal.ofInt (-1)).value, .divide, (Literal.ofInt 3).value⟩ ∧
    Binary64.RoundsSigned (-1 / 3) true negativeThird ∧
    (handleLine "-1 / 3").Emits (.ok .proceed) "= -0.3333333333333333\n".toUTF8.data := by
  have hline : toString (-1 : Int) ++ " " ++ Operator.divide.symbol ++ " " ++ toString (3 : Int) =
      "-1 / 3" := by
    decide
  have he := @Sentence.denotes_spaced _ _ .divide _ _ (Literal.text_ofInt (-1))
    (Literal.text_ofInt 3)
  rw [hline] at he
  have hleft := Binary64.isInt_iff_toRat.mp (Literal.value_ofInt (n := -1) (by decide))
  have hright := Binary64.isInt_iff_toRat.mp (Literal.value_ofInt (n := 3) (by decide))
  have hx : Operator.divide.exactResult? (Literal.ofInt (-1)).value.toRat
      (Literal.ofInt 3).value.toRat = some (-1 / 3) := by
    rw [hleft.2, hright.2]
    norm_num [Operator.exactResult?]
  have hrounded := handleLine_rounded "-1 / 3" _ (-1 / 3) he
  dsimp only at hrounded
  obtain ⟨value, hvalue, hround, -, -, -, hemits⟩ := hrounded hleft.1 hright.1 hx
  have hthird : outcome "-1 / 3" = .ok negativeThird := by
    decide +kernel
  obtain rfl := Except.ok.inj (hvalue.symm.trans hthird)
  have htext : ("= " ++ negativeThird.resultText ++ "\n") = "= -0.3333333333333333\n" := by
    decide +kernel
  have hsign : Operator.divide.zeroNegative (Literal.ofInt (-1)).value (Literal.ofInt 3).value =
      true := by
    decide +kernel
  rw [htext] at hemits
  rw [hsign] at hround
  exact ⟨he, hround, hemits⟩

end LineCalculator
