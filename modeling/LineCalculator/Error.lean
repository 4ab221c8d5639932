namespace LineCalculator

inductive StreamFault where
  | invalidUtf8
  | bufferFull
  deriving DecidableEq, Repr

inductive Error where
  | malformedExpression
  | divisionByZero
  | stream (fault : StreamFault)
  deriving DecidableEq, Repr

def StreamFault.cause : StreamFault → String
  | .invalidUtf8 => "stream did not contain valid UTF-8"
  | .bufferFull => "failed to write whole buffer"

namespace Error

def name : Error → String
  | .malformedExpression => "MalformedExpression"
  | .divisionByZero => "DivisionByZero"
  | .stream _ => "IO"

def message : Error → String
  | .malformedExpression => "Invalid format. Use: <number> <operator> <number> (try 'help')"
  | .divisionByZero => "Division by zero is not allowed"
  | .stream fault => "io error: " ++ fault.cause

def isRecoverable : Error → Bool
  | .malformedExpression | .divisionByZero => true
  | .stream _ => false

end Error

end LineCalculator
