import LineCalculator.Proofs.Expression.Evaluation
import LineCalculator.Proofs.Session.Kinds

namespace LineCalculator

/-- How an unlimited console ends with the line, and what is written for it. -/
def answered (line : String) : Except Error Control × Array UInt8 :=
  let (ending, sink) := (handleLine line).run.run (.empty none)
  (ending, sink.written)

section Answers

variable {line : String}

theorem answered_eq (line : String) :
    answered line = (.ok (reply line).1, (reply line).2.toUTF8.data) := by
  rw [answered, (handleLine_emits line).run_unlimited]

theorem toUTF8_data_inj {a b : String} : a.toUTF8.data = b.toUTF8.data ↔ a = b := by
  constructor
  · intro h
    exact String.toByteArray_inj.mp (ByteArray.ext h)
  · rintro rfl
    rfl

theorem answered_eq_iff {control : Control} {text : String} :
    answered line = (.ok control, text.toUTF8.data) ↔ reply line = (control, text) := by
  rw [answered_eq, Prod.mk.injEq, Except.ok.injEq, toUTF8_data_inj, ← Prod.mk.injEq]

set_option maxRecDepth 4000 in
-- The text is long, so only its first character is compared with those of other texts.
theorem exists_toList_helpText : ∃ tail, helpText.toList = 'S' :: tail := by
  have htext : ∃ tail, helpText = String.ofList ('S' :: tail) := ⟨_, rfl⟩
  obtain ⟨tail, htext⟩ := htext
  exact ⟨tail, by rw [htext, String.toList_ofList]⟩

theorem head_outcomeReply (result : Except Error Binary64) :
    (outcomeReply result).toList.head? = some '=' ∨
      (outcomeReply result).toList.head? = some 'E' := by
  cases result with
  | ok value => exact .inl (by simp [outcomeReply])
  | error error => exact .inr (by simp [outcomeReply])

theorem outcomeReply_ne_helpText (result : Except Error Binary64) :
    outcomeReply result ≠ helpText ++ "\n" := by
  intro h
  have hhead := head_outcomeReply result
  obtain ⟨tail, htail⟩ := exists_toList_helpText
  rw [h, String.toList_append, htail] at hhead
  simp at hhead

theorem helpText_append_ne_empty : helpText ++ "\n" ≠ "" := by
  simp

theorem outcomeReply_ne_empty (result : Except Error Binary64) : outcomeReply result ≠ "" := by
  intro h
  have hhead := head_outcomeReply result
  rw [h] at hhead
  simp at hhead

theorem outcomeReply_malformed_ne_value (value : Binary64) :
    outcomeReply (.error .malformedExpression) ≠ outcomeReply (.ok value) := by
  intro h
  have hhead := congrArg (fun text => text.toList.head?) h
  simp [outcomeReply] at hhead

theorem reply_command_iff : ((reply line).1 = .quit ∨ (reply line).2 = helpText ++ "\n") ↔
    Command.ofText? (trimSeparators line.toList) ≠ none := by
  obtain ⟨kind, hkind, -⟩ := LineKind.existsUnique_holds line
  rw [LineKind.reply_eq hkind]
  cases kind with
  | blank =>
    have hnone : Command.ofText? [] = none := by decide
    rw [LineKind.blank_holds_iff.mp hkind, hnone]
    simp [LineKind.reply, helpText_append_ne_empty.symm]
  | quit =>
    rw [LineKind.quit_holds_iff.mp hkind]
    simp [LineKind.reply]
  | help =>
    rw [LineKind.help_holds_iff.mp hkind]
    simp [LineKind.reply]
  | expression =>
    rw [(LineKind.expression_holds_iff.mp hkind).2]
    simp [LineKind.reply, outcomeReply_ne_helpText]

theorem reply_empty_iff : (reply line).2 = "" ↔ Gap line.toList := by
  obtain ⟨kind, hkind, -⟩ := LineKind.existsUnique_holds line
  have hblank : Gap line.toList ↔ kind = .blank := by
    change LineKind.blank.Holds line ↔ kind = .blank
    rw [LineKind.holds_iff, LineKind.holds_iff.mp hkind, eq_comm]
  rw [LineKind.reply_eq hkind, hblank]
  cases kind with
  | blank => simp [LineKind.reply]
  | quit => simp [LineKind.reply]
  | help => simp [LineKind.reply]
  | expression => simp [LineKind.reply, outcomeReply_ne_empty]

/-- A line that is answered by a value or by the error of a division stands for an expression. -/
theorem denotes_of_reply {result : Except Error Binary64}
    (h : reply line = (.proceed, outcomeReply result))
    (hresult : (∃ value, result = .ok value) ∨ result = .error .divisionByZero) :
    Command.ofText? (trimSeparators line.toList) = none ∧ ∃ e, Denotes line e := by
  obtain ⟨kind, hkind, -⟩ := LineKind.existsUnique_holds line
  rw [LineKind.reply_eq hkind] at h
  cases kind with
  | blank => exact absurd (congrArg Prod.snd h).symm (outcomeReply_ne_empty result)
  | quit => exact absurd (congrArg Prod.fst h) (by simp [LineKind.reply])
  | help => exact absurd (congrArg Prod.snd h).symm (outcomeReply_ne_helpText result)
  | expression =>
    refine ⟨(LineKind.expression_holds_iff.mp hkind).2, outcome_ne_malformed_iff.mp ?_⟩
    intro hmalformed
    have htext : outcomeReply (outcome line) = outcomeReply result := congrArg Prod.snd h
    rw [hmalformed] at htext
    rcases hresult with ⟨value, rfl⟩ | rfl
    · exact outcomeReply_malformed_ne_value value htext
    · simp [outcomeReply, Error.message] at htext

theorem reply_of_unreadable {offset : Nat}
    (h : Command.ofText? (trimSeparators line.toList) = none)
    (hscan : TokenStream.scan line.toList = .error offset) :
    reply line = (.proceed, outcomeReply (.error .malformedExpression)) := by
  -- A blank line can be read: it has no tokens.
  have hblank : trimSeparators line.toList ≠ [] := by
    intro hblank
    have hgap := TokenStream.scanFrom_gap 0 (trimSeparators_eq_nil_iff.mp hblank)
    rw [TokenStream.scan, hgap] at hscan
    cases hscan
  rw [LineKind.reply_eq (LineKind.expression_holds_iff.mpr ⟨hblank, h⟩), LineKind.reply,
    outcome_eq_verdict, verdict_of_unreadable hscan]

end Answers

end LineCalculator
