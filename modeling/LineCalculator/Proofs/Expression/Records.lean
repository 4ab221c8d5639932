import LineCalculator.Proofs.Expression.Faults
import LineCalculator.Proofs.Expression.Sentences
import LineCalculator.Proofs.Token.Progress

namespace LineCalculator

open TokenStream Expression

/-- A text whose tokens go through some stages of an expression is the start of a sentence. -/
theorem exists_sentence_of_stage {text : List Char} {tokens : List Token} {endSpan : Span}
    {expected : Expected} (hscan : scan text = .ok ⟨tokens, endSpan⟩) (h : Stage expected tokens) :
    ∃ (s : Sentence) (more : List Char), s.text = text ++ more := by
  cases h with
  | start =>
    obtain ⟨hgap, -⟩ := scanFrom_eq_nil_iff.mp hscan
    exact ⟨⟨text, .zero, [], .add, [], .zero, [], hgap, gap_nil, gap_nil, gap_nil⟩, _, rfl⟩
  | left hleft =>
    rw [← List.append_nil tokens] at hscan
    obtain ⟨before, l, gap, rfl, hbefore, -, -, hscan⟩ := scanFrom_operand_iff.mp ⟨_, hleft, hscan⟩
    obtain ⟨hgap, -⟩ := scanFrom_eq_nil_iff.mp hscan
    refine ⟨⟨before, l, gap, .add, [], .zero, [], hbefore, hgap, gap_nil, gap_nil⟩,
      ['+', '0'], ?_⟩
    simp [Sentence.text, Operator.symbol, Literal.zero, Numeral.text]
  | operator operator span hleft =>
    obtain ⟨before, l, rest, rfl, hbefore, -, -, hscan⟩ :=
      scanFrom_operand_iff.mp ⟨_, hleft, hscan⟩
    obtain ⟨gap, gap', rfl, hgap, -, -, hscan⟩ := scanFrom_eq_operator_iff.mp hscan
    obtain ⟨hgap', -⟩ := scanFrom_eq_nil_iff.mp hscan
    refine ⟨⟨before, l, gap, operator, gap', .zero, [], hbefore, hgap, hgap', gap_nil⟩,
      ['0'], ?_⟩
    simp [Sentence.text, Literal.zero, Numeral.text]
  | right operator span hleft hright =>
    have hparse : ∃ e, Expression.parse ⟨_, endSpan⟩ = .ok e :=
      exists_parse_eq_ok_iff.mpr (.right operator span hleft hright)
    obtain ⟨e, he⟩ := hparse
    have hdenotes : Denotes (String.ofList text) e :=
      ⟨_, by rwa [String.toList_ofList], he⟩
    obtain ⟨s, hs, -⟩ := denotes_iff_sentence.mp hdenotes
    exact ⟨s, [], by rw [hs, String.toList_ofList, List.append_nil]⟩

theorem exists_outcome_of_stage {text : List Char} {tokens : List Token} {endSpan : Span}
    {expected : Expected} (hscan : scan text = .ok ⟨tokens, endSpan⟩) (h : Stage expected tokens) :
    ∃ more, outcome (String.ofList (text ++ more)) ≠ .error .malformedExpression := by
  obtain ⟨s, more, hs⟩ := exists_sentence_of_stage hscan h
  refine ⟨more, outcome_ne_malformed_iff.mpr ⟨s.expression, ?_⟩⟩
  exact denotes_iff_sentence.mpr ⟨s, by rw [hs, String.toList_ofList], rfl⟩

/-- The byte where reading fails. The characters before it give the tokens that were read up to
there, and those after it go on with no lexeme. -/
def UnreadableAt (source : String) (offset : Nat) : Prop :=
  ∃ front rest tokens, takeBytes? source.toList offset = some front ∧
    dropBytes? source.toList offset = some rest ∧
    Reads 0 source.toList tokens offset rest ∧
    scan front = .ok ⟨tokens, ⟨offset, offset⟩⟩ ∧ Unreadable rest

/-- The byte of the first token that is not consumed. The message says what is needed after the
tokens before it, and some other text in its place makes an expression. -/
def MisplacedAt (source : String) (stream : TokenStream) (message : String) (offset : Nat) : Prop :=
  ∃ front consumed next later expected, takeBytes? source.toList offset = some front ∧
    stream.toList = consumed ++ next :: later ∧ next.span.start = offset ∧
    Stage expected consumed ∧ ¬ Meets expected (next :: later) ∧
    (message = "expected a number at byte " ++ toString offset ↔ Stage .number consumed) ∧
    (message = "expected an operator at byte " ++ toString offset ↔ Stage .operator consumed) ∧
    (message = "unexpected trailing input at byte " ++ toString offset ↔
      Stage .endOfInput consumed) ∧
    ∃ more, outcome (String.ofList (front ++ more)) ≠ .error .malformedExpression

theorem unreadableAt_of_scan {source : String} {offset : Nat}
    (h : scan source.toList = .error offset) : UnreadableAt source offset := by
  obtain ⟨tokens, rest, hreads, hunreadable⟩ := scanFrom_eq_error_iff.mp h
  obtain ⟨front, htext, hoffset, hfront⟩ := hreads.exists_front
  rw [Nat.zero_add] at hoffset
  refine ⟨front, rest, tokens, ?_, ?_, hreads, ?_, hunreadable⟩
  · rw [htext, hoffset, takeBytes?_append]
  · rw [htext, hoffset, dropBytes?_byteLength]
  · have hcut := hfront [] List.nil_prefix
    rw [List.append_nil] at hcut
    exact scanFrom_eq_ok_iff.mpr ⟨offset, [], hcut, gap_nil, rfl⟩

theorem LogRecord.faultText_injective : Function.Injective faultText := by
  intro e e' h
  cases e <;> cases e' <;> simp [faultText] at h ⊢

/-- The message of a fault names the stage that the tokens before it are at. -/
theorem LogRecord.message_misplaced_iff {fault : SyntaxFault} {consumed : List Token}
    (h : Stage fault.expected consumed) (e : Expected) :
    (misplaced fault).message = faultText e ++ " at byte " ++ toString fault.offset ↔
      Stage e consumed := by
  rw [message, String.append_left_inj, String.append_left_inj, faultText_injective.eq_iff]
  constructor
  · rintro rfl
    exact h
  · intro he
    exact h.unique he

theorem LogRecord.message_unreadable (offset : Nat) : (unreadable offset).message =
    "Invalid format. Use: <number> <operator> <number> (try 'help') at byte " ++
      toString offset := by
  rw [← String.toList_inj]
  simp [message, Error.message]

section Evaluated

variable {e : Expression} {result : Except Error Binary64}

theorem LogRecord.message_evaluated_ok {value : Binary64} (h : result = .ok value) :
    (evaluated e result).message = e.text ++ " => Ok(" ++ value.recordText ++ ")" := by
  rw [h, ← String.toList_inj]
  simp [message, outcomeText]

theorem LogRecord.message_evaluated_divisionByZero (h : result = .error .divisionByZero) :
    (evaluated e result).message = e.text ++ " => Err(DivisionByZero)" := by
  rw [h, ← String.toList_inj]
  simp [message, outcomeText, Error.name]

end Evaluated

theorem misplacedAt_of_parse {source : String} {stream : TokenStream} {fault : SyntaxFault}
    (hscan : scan source.toList = .ok stream) (hparse : Expression.parse stream = .error fault) :
    MisplacedAt source stream (LogRecord.misplaced fault).message fault.offset := by
  obtain ⟨consumed, next, later, htokens, hstage, hmeets, hoffset⟩ := of_parse_eq_error hparse
  obtain ⟨front, rest, htext, hstart, hfront⟩ := exists_scanFrom_front hscan htokens
  rw [Nat.zero_add] at hstart
  have hmessage := LogRecord.message_misplaced_iff hstage
  refine ⟨front, consumed, next, later, fault.expected, ?_, htokens, hoffset.symm, hstage, hmeets,
    hmessage .number, hmessage .operator, hmessage .endOfInput,
    exists_outcome_of_stage hfront hstage⟩
  rw [htext, hoffset, hstart, takeBytes?_append]

/-- An evaluation leaves one record, which comes from the stage that decided the outcome. A text
that cannot be read is recorded with the end of what can be read, tokens that are no expression
with the first token that is out of place and what is needed there, and an expression with itself
and its outcome. -/
theorem evaluate_record (source : String) : ∃ record : LogRecord,
    (∀ records,
      (evaluate source).run.run records = (outcome source, records ++ [record])) ∧
    ((record.target = "simple_calc::tokenizer" ↔ ∃ offset, scan source.toList = .error offset) ∧
      ∀ offset, scan source.toList = .error offset →
        record = .unreadable offset ∧
          record.message =
            "Invalid format. Use: <number> <operator> <number> (try 'help') at byte " ++
              toString offset ∧
          UnreadableAt source offset) ∧
    ((record.target = "simple_calc::parser" ↔
        ∃ stream, scan source.toList = .ok stream ∧ ¬ Stage .endOfInput stream.body) ∧
      ∀ stream, scan source.toList = .ok stream → ¬ Stage .endOfInput stream.body →
        ∃ fault, record = .misplaced fault ∧
          MisplacedAt source stream record.message fault.offset) ∧
    (record.target = "simple_calc::evaluator" ↔
        ∃ stream, scan source.toList = .ok stream ∧ Stage .endOfInput stream.body) ∧
    ∀ stream, scan source.toList = .ok stream → Stage .endOfInput stream.body →
      ∃ e, Expression.parse stream = .ok e ∧ record = .evaluated e (outcome source) ∧
        (∀ value, outcome source = .ok value →
          record.message = e.text ++ " => Ok(" ++ value.recordText ++ ")") ∧
        (outcome source = .error .divisionByZero →
          record.message = e.text ++ " => Err(DivisionByZero)") := by
  refine ⟨(verdict source).2, ?_, ?_⟩
  · intro records
    rw [evaluate_run, outcome_eq_verdict]
  rw [outcome_eq_verdict]
  cases hscan : scan source.toList with
  | error offset =>
    have hunreadable := unreadableAt_of_scan hscan
    rw [verdict_of_unreadable hscan]
    simp [LogRecord.target, hunreadable, LogRecord.message_unreadable]
  | ok stream =>
    cases hparse : Expression.parse stream with
    | error fault =>
      have hmisplaced := misplacedAt_of_parse hscan hparse
      have hstage : ¬ Stage .endOfInput stream.body := by
        rw [← exists_parse_eq_ok_iff, hparse]
        simp
      rw [verdict_of_misplaced hscan hparse]
      simp [LogRecord.target, hstage, hmisplaced]
    | ok e =>
      have hstage : Stage .endOfInput stream.body := exists_parse_eq_ok_iff.mp ⟨e, hparse⟩
      rw [verdict_of_expression hscan hparse]
      simp +contextual [LogRecord.target, hstage, hparse, LogRecord.message_evaluated_ok,
        LogRecord.message_evaluated_divisionByZero]

end LineCalculator
