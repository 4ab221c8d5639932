import LineCalculator.Proofs.Expression.Operands

/-!
Faults in a token list. An expression is consumed in stages, each of which decides what is needed
next, and a fault lies at the first token of what does not meet this need.
-/
namespace LineCalculator.Expression

/-- The tokens that an expression starts with, by what it needs after them. -/
inductive Stage : Expected → List Token → Prop where
  | start : Stage .number []
  | left {left : List Token} {a : Binary64} (hleft : IsOperand left a) : Stage .operator left
  | operator {left : List Token} {a : Binary64} (operator : Operator) (span : Span)
    (hleft : IsOperand left a) : Stage .number (left ++ [⟨.operator operator, span⟩])
  | right {left right : List Token} {a b : Binary64} (operator : Operator) (span : Span)
    (hleft : IsOperand left a) (hright : IsOperand right b) :
    Stage .endOfInput (left ++ ⟨.operator operator, span⟩ :: right)

/-- What is needed stands at the start of the tokens. -/
inductive Meets : Expected → List Token → Prop where
  | number {front : List Token} {value : Binary64} (rest : List Token)
    (hfront : IsOperand front value) : Meets .number (front ++ rest)
  | operator (operator : Operator) (span : Span) (rest : List Token) :
    Meets .operator (⟨.operator operator, span⟩ :: rest)
  | endOfInput (span : Span) : Meets .endOfInput [⟨.endOfInput, span⟩]

theorem IsOperand.kind_ne_endOfInput {tokens : List Token} {value : Binary64}
    (h : IsOperand tokens value) : ∀ token ∈ tokens, token.kind ≠ .endOfInput := by
  cases h <;> simp

theorem Stage.kind_ne_endOfInput {expected : Expected} {tokens : List Token}
    (h : Stage expected tokens) : ∀ token ∈ tokens, token.kind ≠ .endOfInput := by
  cases h with
  | start => simp
  | left hleft => exact hleft.kind_ne_endOfInput
  | operator operator span hleft =>
    intro token htoken
    rcases List.mem_append.mp htoken with htoken | htoken
    · exact hleft.kind_ne_endOfInput token htoken
    · simp [List.mem_singleton.mp htoken]
  | right operator span hleft hright =>
    intro token htoken
    rcases List.mem_append.mp htoken with htoken | htoken
    · exact hleft.kind_ne_endOfInput token htoken
    · rcases List.mem_cons.mp htoken with rfl | htoken
      · simp
      · exact hright.kind_ne_endOfInput token htoken

section Errors

variable {tokens : List Token} {fault : SyntaxFault}

theorem of_parseOperand_eq_error (h : parseOperand tokens = .error fault) :
    ¬ Meets .number tokens ∧ fault = .at .number tokens := by
  constructor
  · intro hmeets
    cases hmeets with
    | number rest hfront => simp [parseOperand_append hfront] at h
  · unfold parseOperand at h
    split at h
    · simp at h
    · split at h
      · simp at h
      · exact (Except.error.inj h).symm
    · exact (Except.error.inj h).symm

theorem of_parseOperator_eq_error (h : parseOperator tokens = .error fault) :
    ¬ Meets .operator tokens ∧ fault = .at .operator tokens := by
  constructor
  · intro hmeets
    cases hmeets
    simp [parseOperator] at h
  · unfold parseOperator at h
    split at h
    · simp at h
    · exact (Except.error.inj h).symm

theorem of_parseEnd_eq_error (h : parseEnd tokens = .error fault) :
    ¬ Meets .endOfInput tokens ∧ fault = .at .endOfInput tokens := by
  constructor
  · intro hmeets
    cases hmeets
    simp [parseEnd] at h
  · unfold parseEnd at h
    split at h
    · simp at h
    · exact (Except.error.inj h).symm

end Errors

section Unmet

variable {tokens : List Token}

theorem parseOperand_of_not_meets (h : ¬ Meets .number tokens) :
    parseOperand tokens = .error (.at .number tokens) := by
  cases hparse : parseOperand tokens with
  | error fault => rw [(of_parseOperand_eq_error hparse).2]
  | ok found =>
    obtain ⟨front, hfront, rfl⟩ := parseOperand_eq_ok_iff.mp hparse
    exact absurd (.number found.2 hfront) h

theorem parseOperator_of_not_meets (h : ¬ Meets .operator tokens) :
    parseOperator tokens = .error (.at .operator tokens) := by
  cases hparse : parseOperator tokens with
  | error fault => rw [(of_parseOperator_eq_error hparse).2]
  | ok found =>
    obtain ⟨span, rfl⟩ := parseOperator_eq_ok_iff.mp hparse
    exact absurd (.operator found.1 span found.2) h

theorem parseEnd_of_not_meets (h : ¬ Meets .endOfInput tokens) :
    parseEnd tokens = .error (.at .endOfInput tokens) := by
  cases hparse : parseEnd tokens with
  | error fault => rw [(of_parseEnd_eq_error hparse).2]
  | ok found =>
    obtain ⟨span, rfl⟩ := parseEnd_eq_ok_iff.mp hparse
    exact absurd (.endOfInput span) h

end Unmet

/-- Where the need of a stage is not met, the parser stops. -/
theorem Stage.parse_eq_error {expected : Expected} {consumed rest : List Token}
    {stream : TokenStream} (h : Stage expected consumed) (hrest : ¬ Meets expected rest)
    (htokens : stream.toList = consumed ++ rest) :
    parse stream = .error (.at expected rest) := by
  unfold parse
  rw [htokens]
  cases h with
  | start =>
    rw [List.nil_append, parseOperand_of_not_meets hrest]
    rfl
  | left hleft =>
    rw [parseOperand_append hleft]
    dsimp only [bind, Except.bind]
    rw [parseOperator_of_not_meets hrest]
  | operator operator span hleft =>
    rw [List.append_assoc, parseOperand_append hleft]
    dsimp only [bind, Except.bind, parseOperator, List.cons_append, List.nil_append]
    rw [parseOperand_of_not_meets hrest]
  | right operator span hleft hright =>
    rw [List.append_assoc, parseOperand_append hleft, List.cons_append]
    dsimp only [bind, Except.bind, parseOperator]
    rw [parseOperand_append hright]
    dsimp only
    rw [parseEnd_of_not_meets hrest]

/-- The fault of a stream lies where the need of the last stage is not met. -/
theorem exists_stage_of_parse_eq_error {stream : TokenStream} {fault : SyntaxFault}
    (h : parse stream = .error fault) : ∃ expected consumed rest,
      stream.toList = consumed ++ rest ∧ Stage expected consumed ∧ ¬ Meets expected rest ∧
        fault = .at expected rest := by
  rcases bind_eq_error_iff.mp h with herror | ⟨⟨a, rest⟩, hfirst, hthen⟩
  · obtain ⟨hmeets, hfault⟩ := of_parseOperand_eq_error herror
    exact ⟨_, [], stream.toList, rfl, .start, hmeets, hfault⟩
  obtain ⟨left, hleft, htokens⟩ := parseOperand_eq_ok_iff.mp hfirst
  rcases bind_eq_error_iff.mp hthen with herror | ⟨⟨operator, rest'⟩, hoperator, hthen'⟩
  · obtain ⟨hmeets, hfault⟩ := of_parseOperator_eq_error herror
    exact ⟨_, left, rest, htokens, .left hleft, hmeets, hfault⟩
  obtain ⟨span, hrest⟩ := parseOperator_eq_ok_iff.mp hoperator
  rcases bind_eq_error_iff.mp hthen' with herror | ⟨⟨b, rest''⟩, hsecond, hthen''⟩
  · obtain ⟨hmeets, hfault⟩ := of_parseOperand_eq_error herror
    exact ⟨_, _, rest', by simp [htokens, hrest], .operator operator span hleft, hmeets, hfault⟩
  obtain ⟨right, hright, hrest'⟩ := parseOperand_eq_ok_iff.mp hsecond
  rcases bind_eq_error_iff.mp hthen'' with herror | ⟨⟨⟩, -, hpure⟩
  · obtain ⟨hmeets, hfault⟩ := of_parseEnd_eq_error herror
    exact ⟨_, _, rest'', by simp [htokens, hrest, hrest'],
      .right operator span hleft hright, hmeets, hfault⟩
  · simp [pure, Except.pure] at hpure

/-- A fault lies at the first token that is not consumed. There always is one, since no stage
consumes the end of input. -/
theorem of_parse_eq_error {stream : TokenStream} {fault : SyntaxFault}
    (h : parse stream = .error fault) : ∃ consumed next later,
      stream.toList = consumed ++ next :: later ∧ Stage fault.expected consumed ∧
        ¬ Meets fault.expected (next :: later) ∧ fault.offset = next.span.start := by
  obtain ⟨expected, consumed, rest, htokens, hstage, hmeets, rfl⟩ :=
    exists_stage_of_parse_eq_error h
  cases rest with
  | nil =>
    have hend : ⟨.endOfInput, stream.endSpan⟩ ∈ consumed := by
      rw [List.append_nil] at htokens
      simp [← htokens, TokenStream.toList]
    exact absurd rfl (hstage.kind_ne_endOfInput _ hend)
  | cons next later => exact ⟨consumed, next, later, htokens, hstage, hmeets, rfl⟩

/-- A fault and the one place where it lies. -/
theorem parse_eq_error_iff {stream : TokenStream} {fault : SyntaxFault} :
    parse stream = .error fault ↔ ∃ consumed next later,
      stream.toList = consumed ++ next :: later ∧ Stage fault.expected consumed ∧
        ¬ Meets fault.expected (next :: later) ∧ fault.offset = next.span.start := by
  constructor
  · exact of_parse_eq_error
  · rintro ⟨consumed, next, later, htokens, hstage, hmeets, hoffset⟩
    rw [hstage.parse_eq_error hmeets htokens, SyntaxFault.at, ← hoffset]

/-- A stream is an expression when its tokens go through all stages. -/
theorem exists_parse_eq_ok_iff {stream : TokenStream} :
    (∃ e, parse stream = .ok e) ↔ Stage .endOfInput stream.body := by
  constructor
  · intro h
    obtain ⟨e, he⟩ := h
    obtain ⟨left, span, right, hleft, hright, hbody⟩ := parse_eq_ok_iff.mp he
    rw [hbody]
    exact .right e.operator span hleft hright
  · intro h
    generalize hbody : stream.body = body at h
    cases h with
    | @right left right a b operator span hleft hright =>
      exact ⟨⟨a, operator, b⟩, parse_eq_ok_iff.mpr ⟨left, span, right, hleft, hright, hbody⟩⟩

/-- Where the input ends after a stage, the parser says what is needed. -/
theorem Stage.parse_eq {expected : Expected} {body : List Token} (h : Stage expected body)
    (endSpan : Span) : (expected = .endOfInput ∧ ∃ e, parse ⟨body, endSpan⟩ = .ok e) ∨
      parse ⟨body, endSpan⟩ = .error ⟨expected, endSpan.start⟩ := by
  cases expected with
  | number =>
    have hend : ¬ Meets .number [⟨.endOfInput, endSpan⟩] := (of_parseOperand_eq_error rfl).1
    exact .inr (h.parse_eq_error hend rfl)
  | operator =>
    have hend : ¬ Meets .operator [⟨.endOfInput, endSpan⟩] := (of_parseOperator_eq_error rfl).1
    exact .inr (h.parse_eq_error hend rfl)
  | endOfInput => exact .inl ⟨rfl, exists_parse_eq_ok_iff.mpr h⟩

/-- The tokens of a stage tell what is needed after them. -/
theorem Stage.unique {expected expected' : Expected} {tokens : List Token}
    (h : Stage expected tokens) (h' : Stage expected' tokens) : expected = expected' := by
  rcases h.parse_eq ⟨0, 0⟩ with ⟨rfl, e, hok⟩ | herror <;>
    rcases h'.parse_eq ⟨0, 0⟩ with ⟨rfl, e', hok'⟩ | herror'
  · rfl
  · simp [hok] at herror'
  · simp [herror] at hok'
  · simpa [herror] using herror'

end LineCalculator.Expression
