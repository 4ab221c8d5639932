namespace LineCalculator

inductive Operator where
  | add
  | subtract
  | multiply
  | divide
  | floorDivide
  | modulo
  | power
  deriving DecidableEq, Repr

namespace Operator

def all : List Operator :=
  [.add, .subtract, .multiply, .divide, .floorDivide, .modulo, .power]

def symbol : Operator → String
  | .add => "+"
  | .subtract => "-"
  | .multiply => "*"
  | .divide => "/"
  | .floorDivide => "//"
  | .modulo => "%"
  | .power => "**"

/-- Whether the operator divides, and so rejects a zero on its right. -/
def divides : Operator → Bool
  | .divide | .floorDivide | .modulo => true
  | _ => false

theorem divides_iff {operator : Operator} : operator.divides = true ↔
    operator = .divide ∨ operator = .floorDivide ∨ operator = .modulo := by
  cases operator <;> simp [divides]

end Operator

end LineCalculator
