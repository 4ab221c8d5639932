import LineCalculator.Evaluation

namespace LineCalculator

/-- Two runs are equal in their results and their records. -/
theorem logged_eq_iff {α : Type} {result result' : Except Error α}
    {records records' : List LogRecord} :
    @Eq (Id (Except Error α × List LogRecord)) (result, records) (result', records') ↔
      result = result' ∧ records = records' :=
  Prod.ext_iff

section Phases

variable {source : String} {stream : TokenStream} {records : List LogRecord}

theorem tokenize_run (source : String) (records : List LogRecord) :
    (tokenize source).run.run records = match TokenStream.scan source.toList with
      | .ok stream => (.ok stream, records)
      | .error offset => (.error .malformedExpression, records ++ [.unreadable offset]) := by
  unfold tokenize
  cases TokenStream.scan source.toList <;> rfl

theorem tokenize_run_eq_ok_iff : (tokenize source).run.run records = (.ok stream, records) ↔
    TokenStream.scan source.toList = .ok stream := by
  rw [tokenize_run]
  cases TokenStream.scan source.toList <;> simp [logged_eq_iff]

theorem tokenize_eq_ok_iff : ((tokenize source).run.run records).1 = .ok stream ↔
    TokenStream.scan source.toList = .ok stream := by
  rw [tokenize_run]
  cases TokenStream.scan source.toList <;> simp

theorem tokenize_eq_error_iff {error : Error} :
    ((tokenize source).run.run records).1 = .error error ↔
      error = .malformedExpression ∧ ∃ offset, TokenStream.scan source.toList = .error offset := by
  rw [tokenize_run]
  cases TokenStream.scan source.toList <;> simp [eq_comm]

theorem parse_run (stream : TokenStream) (records : List LogRecord) :
    (parse stream).run.run records = match Expression.parse stream with
      | .ok e => (.ok e, records)
      | .error fault => (.error .malformedExpression, records ++ [.misplaced fault]) := by
  unfold parse
  cases Expression.parse stream <;> rfl

theorem parse_run_eq_ok_iff {e : Expression} :
    (parse stream).run.run records = (.ok e, records) ↔ Expression.parse stream = .ok e := by
  rw [parse_run]
  cases Expression.parse stream <;> simp [logged_eq_iff]

theorem parse_run_eq_error_iff {fault : SyntaxFault} :
    (parse stream).run.run records =
        (.error .malformedExpression, records ++ [.misplaced fault]) ↔
      Expression.parse stream = .error fault := by
  rw [parse_run]
  cases Expression.parse stream <;> simp [logged_eq_iff]

end Phases

/-- The outcome of an evaluation and the one record it leaves, stage by stage. -/
def verdict (source : String) : Except Error Binary64 × LogRecord :=
  match TokenStream.scan source.toList with
  | .error offset => (.error .malformedExpression, .unreadable offset)
  | .ok stream =>
    match Expression.parse stream with
    | .error fault => (.error .malformedExpression, .misplaced fault)
    | .ok e => (e.value, .evaluated e e.value)

theorem evaluate_run (source : String) (records : List LogRecord) :
    (evaluate source).run.run records = ((verdict source).1, records ++ [(verdict source).2]) := by
  unfold verdict evaluate tokenize parse
  cases TokenStream.scan source.toList with
  | error offset => rfl
  | ok stream =>
    dsimp only
    cases hparse : Expression.parse stream with
    | error fault =>
      simp only [pure_bind, hparse]
      rfl
    | ok e =>
      simp only [pure_bind, hparse]
      cases hvalue : e.value <;> rfl

theorem outcome_eq_verdict (source : String) : outcome source = (verdict source).1 := by
  rw [outcome, evaluate_run]

section Verdict

variable {source : String} {stream : TokenStream}

theorem verdict_of_unreadable {offset : Nat}
    (hscan : TokenStream.scan source.toList = .error offset) :
    verdict source = (.error .malformedExpression, .unreadable offset) := by
  simp [verdict, hscan]

theorem verdict_of_misplaced {fault : SyntaxFault}
    (hscan : TokenStream.scan source.toList = .ok stream)
    (hparse : Expression.parse stream = .error fault) :
    verdict source = (.error .malformedExpression, .misplaced fault) := by
  simp [verdict, hscan, hparse]

theorem verdict_of_expression {e : Expression}
    (hscan : TokenStream.scan source.toList = .ok stream)
    (hparse : Expression.parse stream = .ok e) :
    verdict source = (e.value, .evaluated e e.value) := by
  simp [verdict, hscan, hparse]

end Verdict

/-- The expression that a text stands for, if it stands for one. -/
def Denotes (source : String) (e : Expression) : Prop :=
  ∃ stream, TokenStream.scan source.toList = .ok stream ∧ Expression.parse stream = .ok e

/-- A text stands for an expression or is malformed. -/
theorem denotes_or_malformed (source : String) :
    (∃ e, Denotes source e) ∨ outcome source = .error .malformedExpression := by
  rw [outcome_eq_verdict]
  cases hscan : TokenStream.scan source.toList with
  | error offset => exact .inr (by rw [verdict_of_unreadable hscan])
  | ok stream =>
    cases hparse : Expression.parse stream with
    | error fault => exact .inr (by rw [verdict_of_misplaced hscan hparse])
    | ok e => exact .inl ⟨e, stream, hscan, hparse⟩

theorem outcome_of_denotes {source : String} {e : Expression} (h : Denotes source e) :
    outcome source = e.value := by
  obtain ⟨stream, hscan, hparse⟩ := h
  rw [outcome_eq_verdict, verdict_of_expression hscan hparse]

theorem Expression.value_ne_malformed (e : Expression) : e.value ≠ .error .malformedExpression := by
  unfold Expression.value
  split <;> simp

/-- A text is well formed when it stands for an expression. -/
theorem outcome_ne_malformed_iff {source : String} :
    outcome source ≠ .error .malformedExpression ↔ ∃ e, Denotes source e := by
  constructor
  · intro h
    exact (denotes_or_malformed source).resolve_right h
  · intro h
    obtain ⟨e, he⟩ := h
    rw [outcome_of_denotes he]
    exact e.value_ne_malformed

/-- No stream takes part in an evaluation. -/
theorem outcome_ne_stream (source : String) (fault : StreamFault) :
    outcome source ≠ .error (.stream fault) := by
  rcases denotes_or_malformed source with ⟨e, he⟩ | hmalformed
  · rw [outcome_of_denotes he, Expression.value]
    split <;> simp
  · simp [hmalformed]

end LineCalculator
