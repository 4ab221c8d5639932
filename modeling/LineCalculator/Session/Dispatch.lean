import LineCalculator.Evaluation
import LineCalculator.Session.Command
import LineCalculator.Session.Console

namespace LineCalculator

inductive Control where
  | proceed
  | quit
  deriving DecidableEq, Repr

/-- Answers a text without surrounding separators that is no command. -/
def answerExpression (text : String) : Console Control := do
  match outcome text with
  | .ok value => Console.writeLine ("= " ++ value.resultText)
  | .error error =>
    if error.isRecoverable then Console.writeLine ("Error: " ++ error.message) else throw error
  return .proceed

def handleLine (line : String) : Console Control := do
  let text := trimSeparators line.toList
  if text.isEmpty then return .proceed
  match Command.ofText? text with
  | some .quit => do
    Console.writeLine goodbye
    return .quit
  | some .help => do
    Console.writeLine helpText
    return .proceed
  | none => answerExpression (String.ofList text)

end LineCalculator
