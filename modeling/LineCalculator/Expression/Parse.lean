import LineCalculator.Expression.Basic
import LineCalculator.Token.Basic

namespace LineCalculator

inductive Expected where
  | number
  | operator
  | endOfInput
  deriving DecidableEq, Repr

/-- The place of the first token that fits no expression, and what was needed there. -/
structure SyntaxFault where
  expected : Expected
  offset : Nat
  deriving DecidableEq, Repr

def SyntaxFault.at (expected : Expected) : List Token → SyntaxFault
  | [] => ⟨expected, 0⟩
  | token :: _ => ⟨expected, token.span.start⟩

namespace Expression

/-- An operand and the tokens after it. An operand is a number, or a minus sign and a number that
touches it. -/
def parseOperand : List Token → Except SyntaxFault (Binary64 × List Token)
  | ⟨.number value, _⟩ :: rest => .ok (value, rest)
  | ⟨.operator .subtract, sign⟩ :: ⟨.number value, digits⟩ :: rest =>
    if sign.stop = digits.start then .ok (-value, rest)
    else .error (.at .number (⟨.operator .subtract, sign⟩ :: ⟨.number value, digits⟩ :: rest))
  | tokens => .error (.at .number tokens)

def parseOperator : List Token → Except SyntaxFault (Operator × List Token)
  | ⟨.operator operator, _⟩ :: rest => .ok (operator, rest)
  | tokens => .error (.at .operator tokens)

def parseEnd : List Token → Except SyntaxFault Unit
  | [⟨.endOfInput, _⟩] => .ok ()
  | tokens => .error (.at .endOfInput tokens)

def parse (stream : TokenStream) : Except SyntaxFault Expression := do
  let (left, rest) ← parseOperand stream.toList
  let (operator, rest) ← parseOperator rest
  let (right, rest) ← parseOperand rest
  parseEnd rest
  return ⟨left, operator, right⟩

end Expression

end LineCalculator
