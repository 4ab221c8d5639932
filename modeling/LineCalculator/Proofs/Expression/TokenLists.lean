import LineCalculator.Proofs.Expression.Evaluation
import LineCalculator.Proofs.Expression.Slicing

namespace LineCalculator

namespace Expression

/-- The tokens of an expression and what they stand for, closed by an end of input. -/
structure Phrase where
  left : List Token
  leftValue : Binary64
  operator : Operator
  operatorSpan : Span
  right : List Token
  rightValue : Binary64
  endSpan : Span
  left_isOperand : IsOperand left leftValue
  right_isOperand : IsOperand right rightValue

namespace Phrase

def tokens (p : Phrase) : List Token :=
  p.left ++ ⟨.operator p.operator, p.operatorSpan⟩ ::
    (p.right ++ [⟨.endOfInput, p.endSpan⟩])

def expression (p : Phrase) : Expression :=
  ⟨p.leftValue, p.operator, p.rightValue⟩

end Phrase

/-- No list of tokens is a phrase in two ways. -/
theorem Phrase.tokens_injective : Function.Injective Phrase.tokens := by
  intro p q h
  obtain ⟨hleft, hleftValue, h⟩ := p.left_isOperand.append_inj q.left_isOperand h
  obtain ⟨hoperator, h⟩ := List.cons.inj h
  obtain ⟨hright, hrightValue, hend⟩ := p.right_isOperand.append_inj q.right_isOperand h
  cases p
  cases q
  simp_all

theorem parse_eq_ok_iff_phrase {stream : TokenStream} {e : Expression} :
    parse stream = .ok e ↔ ∃ p : Phrase, p.tokens = stream.toList ∧ p.expression = e := by
  rw [parse_eq_ok_iff]
  constructor
  · rintro ⟨left, span, right, hleft, hright, hbody⟩
    refine ⟨⟨left, _, e.operator, span, right, _, stream.endSpan, hleft, hright⟩, ?_, rfl⟩
    simp [Phrase.tokens, TokenStream.toList, hbody]
  · rintro ⟨p, htokens, rfl⟩
    refine ⟨p.left, p.operatorSpan, p.right, p.left_isOperand, p.right_isOperand, ?_⟩
    -- Both lists close with one end of input, which leaves the bodies equal.
    have hlist : (p.left ++ ⟨.operator p.operator, p.operatorSpan⟩ :: p.right) ++
        [⟨.endOfInput, p.endSpan⟩] = stream.body ++ [⟨.endOfInput, stream.endSpan⟩] := by
      simpa [Phrase.tokens, TokenStream.toList] using htokens
    exact (List.append_inj' hlist rfl).1.symm

end Expression

open Expression

/-- Any list of tokens that an end of input closes is parsed. It is an expression exactly as a
phrase, which it is in one way only, and else it is malformed with one record of the first token
that is not consumed. Only lists without this closing token are refused, since the list is never
cut behind its end nor a fault put where no token is. -/
theorem parse_tokenList (tokens : List Token) :
    (TokenStream.ofList? tokens = none ↔
      tokens = [] ∨ ∃ front last, tokens = front ++ [last] ∧ last.kind ≠ .endOfInput) ∧
    (Sliced.parse? tokens).run = (TokenStream.ofList? tokens).map Expression.parse ∧
    (∀ p q : Phrase, p.tokens = tokens → q.tokens = tokens → p = q) ∧
    ∀ stream, TokenStream.ofList? tokens = some stream → ∀ records,
      (∀ e, (parse stream).run.run records = (.ok e, records) ↔
        ∃ p : Phrase, p.tokens = tokens ∧ p.expression = e) ∧
      (∀ fault, (parse stream).run.run records =
          (.error .malformedExpression, records ++ [.misplaced fault]) ↔
        ∃ consumed next later, tokens = consumed ++ next :: later ∧
          Stage fault.expected consumed ∧ ¬ Meets fault.expected (next :: later) ∧
          fault.offset = next.span.start) ∧
      ((∃ e, (parse stream).run.run records = (.ok e, records)) ∨
        ∃ fault, (parse stream).run.run records =
          (.error .malformedExpression, records ++ [.misplaced fault])) := by
  refine ⟨TokenStream.ofList?_eq_none_iff, Sliced.run_parse? tokens, ?_, ?_⟩
  · intro p q hp hq
    exact Phrase.tokens_injective (hp.trans hq.symm)
  · intro stream hstream records
    obtain rfl := TokenStream.toList_of_ofList? hstream
    refine ⟨?_, ?_, ?_⟩
    · intro e
      rw [parse_run_eq_ok_iff, parse_eq_ok_iff_phrase]
    · intro fault
      rw [parse_run_eq_error_iff, parse_eq_error_iff]
    · simp only [parse_run_eq_ok_iff, parse_run_eq_error_iff]
      cases Expression.parse stream with
      | ok e => exact .inl ⟨e, rfl⟩
      | error fault => exact .inr ⟨fault, rfl⟩

end LineCalculator
