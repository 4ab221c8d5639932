import LineCalculator.Proofs.Expression.Sentences
import LineCalculator.Proofs.Session.Console
import LineCalculator.Session.Dispatch

namespace LineCalculator

def outcomeReply : Except Error Binary64 → String
  | .ok value => "= " ++ value.resultText ++ "\n"
  | .error error => "Error: " ++ error.message ++ "\n"

/-- Whether the session goes on after a line, and the text that answers the line. -/
def reply (line : String) : Control × String :=
  let text := trimSeparators line.toList
  if text.isEmpty then (.proceed, "")
  else match Command.ofText? text with
  | some .quit => (.quit, goodbye ++ "\n")
  | some .help => (.proceed, helpText ++ "\n")
  | none => (.proceed, outcomeReply (outcome (String.ofList text)))

section Reply

variable {line : String}

theorem reply_of_blank (h : trimSeparators line.toList = []) : reply line = (.proceed, "") := by
  simp [reply, h]

theorem reply_of_quit (h : trimSeparators line.toList ≠ [])
    (hcommand : Command.ofText? (trimSeparators line.toList) = some .quit) :
    reply line = (.quit, goodbye ++ "\n") := by
  simp [reply, h, hcommand]

theorem reply_of_help (h : trimSeparators line.toList ≠ [])
    (hcommand : Command.ofText? (trimSeparators line.toList) = some .help) :
    reply line = (.proceed, helpText ++ "\n") := by
  simp [reply, h, hcommand]

theorem reply_of_expression (h : trimSeparators line.toList ≠ [])
    (hcommand : Command.ofText? (trimSeparators line.toList) = none) :
    reply line =
      (.proceed, outcomeReply (outcome (String.ofList (trimSeparators line.toList)))) := by
  simp [reply, h, hcommand]

end Reply

open Console in
theorem answerExpression_emits (text : String) : (answerExpression text).Emits (.ok .proceed)
    (outcomeReply (outcome text)).toUTF8.data := by
  unfold answerExpression outcomeReply
  cases houtcome : outcome text with
  | ok value => exact emits_writeLine_pure ("= " ++ value.resultText) Control.proceed
  | error error =>
    cases error with
    | malformedExpression => exact emits_writeLine_pure ("Error: " ++ _) Control.proceed
    | divisionByZero => exact emits_writeLine_pure ("Error: " ++ _) Control.proceed
    | stream fault => exact absurd houtcome (outcome_ne_stream text fault)

open Console in
/-- A line is answered by its reply. -/
theorem handleLine_emits (line : String) :
    (handleLine line).Emits (.ok (reply line).1) (reply line).2.toUTF8.data := by
  unfold handleLine
  by_cases hblank : trimSeparators line.toList = []
  · rw [reply_of_blank hblank]
    simp only [hblank, List.isEmpty_nil, if_true]
    exact emits_pure Control.proceed
  · simp only [List.isEmpty_iff, hblank, if_false]
    cases hcommand : Command.ofText? (trimSeparators line.toList) with
    | none =>
      rw [reply_of_expression hblank hcommand]
      exact answerExpression_emits _
    | some command =>
      cases command with
      | quit =>
        rw [reply_of_quit hblank hcommand]
        exact emits_writeLine_pure goodbye Control.quit
      | help =>
        rw [reply_of_help hblank hcommand]
        exact emits_writeLine_pure helpText Control.proceed

end LineCalculator
