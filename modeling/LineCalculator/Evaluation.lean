import LineCalculator.Log
import LineCalculator.Token.Scan

namespace LineCalculator

def tokenize (source : String) : Logged TokenStream :=
  match TokenStream.scan source.toList with
  | .ok stream => return stream
  | .error offset => do
    record (.unreadable offset)
    throw .malformedExpression

def parse (stream : TokenStream) : Logged Expression :=
  match Expression.parse stream with
  | .ok expression => return expression
  | .error fault => do
    record (.misplaced fault)
    throw .malformedExpression

def evaluate (source : String) : Logged Binary64 := do
  let stream ← tokenize source
  let expression ← parse stream
  record (.evaluated expression expression.value)
  MonadExcept.ofExcept expression.value

def outcome (source : String) : Except Error Binary64 :=
  ((evaluate source).run.run []).1

end LineCalculator
