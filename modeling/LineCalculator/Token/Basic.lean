import LineCalculator.Binary64.Basic
import LineCalculator.Operator

namespace LineCalculator

/-- The bytes from `start` up to, but without, `stop`. -/
structure Span where
  start : Nat
  stop : Nat
  deriving DecidableEq, Repr

inductive TokenKind where
  | operator (operator : Operator)
  | number (value : Binary64)
  | endOfInput
  deriving DecidableEq, Repr

structure Token where
  kind : TokenKind
  span : Span
  deriving DecidableEq, Repr

/-- A list of tokens closed by an end-of-input token with the span `endSpan`. -/
structure TokenStream where
  body : List Token
  endSpan : Span
  deriving DecidableEq, Repr

namespace TokenStream

def toList (stream : TokenStream) : List Token :=
  stream.body ++ [⟨.endOfInput, stream.endSpan⟩]

def cons (token : Token) (stream : TokenStream) : TokenStream :=
  ⟨token :: stream.body, stream.endSpan⟩

def ofList? (tokens : List Token) : Option TokenStream :=
  match tokens.getLast? with
  | some ⟨.endOfInput, span⟩ => some ⟨tokens.dropLast, span⟩
  | _ => none

def unterminatedMessage : String :=
  "Token slice must be terminated by EOF"

/-- The tokens of a stream found in a list are that list. -/
theorem toList_of_ofList? {tokens : List Token} {stream : TokenStream}
    (h : ofList? tokens = some stream) : stream.toList = tokens := by
  unfold ofList? at h
  split at h
  · rename_i span hlast
    simp only [Option.some.injEq] at h
    subst h
    have hne : tokens ≠ [] := by
      rintro rfl
      simp at hlast
    rw [List.getLast?_eq_some_getLast hne, Option.some.injEq] at hlast
    simpa [toList, hlast] using List.dropLast_concat_getLast hne
  · simp at h

theorem toList_ne_nil (stream : TokenStream) : stream.toList ≠ [] := by
  simp [toList]

theorem ofList?_eq_none_iff {tokens : List Token} : ofList? tokens = none ↔
    tokens = [] ∨ ∃ front last, tokens = front ++ [last] ∧ last.kind ≠ .endOfInput := by
  constructor
  · intro h
    rcases List.eq_nil_or_concat tokens with hnil | ⟨front, ⟨kind, span⟩, hfront⟩
    · exact .inl hnil
    · rw [List.concat_eq_append] at hfront
      refine .inr ⟨front, ⟨kind, span⟩, hfront, ?_⟩
      rintro rfl
      exact absurd h (by simp [ofList?, hfront])
  · rintro (rfl | ⟨front, ⟨kind, span⟩, rfl, hkind⟩)
    · rfl
    · unfold ofList?
      rw [List.getLast?_concat]
      split
      · rename_i heq
        exact absurd (congrArg Token.kind (Option.some.inj heq)) hkind
      · rfl

/-- After some tokens other than the end of input a stream goes on as a stream. -/
theorem exists_toList_of_append {stream : TokenStream} {front rest : List Token}
    (h : stream.toList = front ++ rest) (hfront : ∀ token ∈ front, token.kind ≠ .endOfInput) :
    ∃ stream' : TokenStream, stream'.toList = rest := by
  rcases List.append_eq_append_iff.mp h with ⟨inner, rfl, hend⟩ | ⟨inner, -, rfl⟩
  · rcases List.singleton_eq_append_iff.mp hend with ⟨rfl, rfl⟩ | ⟨rfl, rfl⟩
    · exact ⟨⟨[], stream.endSpan⟩, rfl⟩
    · exact absurd rfl (hfront ⟨.endOfInput, stream.endSpan⟩ (by simp))
  · exact ⟨⟨inner, stream.endSpan⟩, rfl⟩

end TokenStream

end LineCalculator
