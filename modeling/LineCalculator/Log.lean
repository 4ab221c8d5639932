import LineCalculator.Expression.Parse

/-!
Log records. Each evaluation is recorded once, by the stage that decided its outcome.
-/
namespace LineCalculator

inductive LogRecord where
  | unreadable (offset : Nat)
  | misplaced (fault : SyntaxFault)
  | evaluated (expression : Expression) (outcome : Except Error Binary64)

abbrev Logged :=
  ExceptT Error (StateM (List LogRecord))

def record (entry : LogRecord) : Logged Unit :=
  modify (· ++ [entry])

namespace LogRecord

def level (_ : LogRecord) : String :=
  "DEBUG"

def target : LogRecord → String
  | .unreadable _ => "simple_calc::tokenizer"
  | .misplaced _ => "simple_calc::parser"
  | .evaluated _ _ => "simple_calc::evaluator"

def outcomeText : Except Error Binary64 → String
  | .ok value => "Ok(" ++ value.recordText ++ ")"
  | .error error => "Err(" ++ error.name ++ ")"

def faultText : Expected → String
  | .number => "expected a number"
  | .operator => "expected an operator"
  | .endOfInput => "unexpected trailing input"

def message : LogRecord → String
  | .unreadable offset => Error.malformedExpression.message ++ " at byte " ++ toString offset
  | .misplaced fault => faultText fault.expected ++ " at byte " ++ toString fault.offset
  | .evaluated expression outcome => expression.text ++ " => " ++ outcomeText outcome

end LogRecord

end LineCalculator
