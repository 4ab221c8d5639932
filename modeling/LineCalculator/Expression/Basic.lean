import LineCalculator.Binary64.Arithmetic
import LineCalculator.Binary64.Notation
import LineCalculator.Binary64.Power
import LineCalculator.Error
import LineCalculator.Operator

namespace LineCalculator

structure Expression where
  left : Binary64
  operator : Operator
  right : Binary64
  deriving DecidableEq, Repr

namespace Operator

def apply (operator : Operator) (a b : Binary64) : Binary64 :=
  match operator with
  | .add => a + b
  | .subtract => a - b
  | .multiply => a * b
  | .divide => a / b
  | .floorDivide => a.floorDiv b
  | .modulo => a.floorMod b
  | .power => a.pow b

end Operator

namespace Expression

def text (e : Expression) : String :=
  e.left.plainText ++ " " ++ e.operator.symbol ++ " " ++ e.right.plainText

/-- The value of the expression. A division rejects both zeros on its right. -/
def value (e : Expression) : Except Error Binary64 :=
  if e.operator.divides && e.right.isZero then .error .divisionByZero
  else .ok (e.operator.apply e.left e.right)

end Expression

end LineCalculator
