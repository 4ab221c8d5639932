import LineCalculator.Proofs.Expression.Faults

/-!
The parser on a list that is cut by numbers of tokens. Each step looks at the front of the list and
cuts off what it has consumed. No cut goes behind the end of a list that is closed by an end of
input, and a fault always finds a token to lie at, so that this parser and the one that takes tokens
off a list give the same results.
-/
namespace LineCalculator

namespace TokenStream

theorem exists_toList_of_parseOperand {stream : TokenStream} {value : Binary64}
    {rest : List Token} (h : Expression.parseOperand stream.toList = .ok (value, rest)) :
    ∃ stream' : TokenStream, stream'.toList = rest := by
  obtain ⟨front, hfront, htokens⟩ := Expression.parseOperand_eq_ok_iff.mp h
  exact exists_toList_of_append htokens hfront.kind_ne_endOfInput

theorem exists_toList_of_parseOperator {stream : TokenStream} {operator : Operator}
    {rest : List Token} (h : Expression.parseOperator stream.toList = .ok (operator, rest)) :
    ∃ stream' : TokenStream, stream'.toList = rest := by
  obtain ⟨span, htokens⟩ := Expression.parseOperator_eq_ok_iff.mp h
  have hlist : stream.toList = [⟨.operator operator, span⟩] ++ rest := htokens
  exact exists_toList_of_append hlist (by simp)

end TokenStream

/-- A parse that cuts lists by the number of tokens. There is no result where a list would be cut
behind its end, or where a fault would find no token to lie at. -/
abbrev Sliced :=
  ExceptT SyntaxFault Option

namespace Sliced

def found {α : Type} (result : Except SyntaxFault α) : Sliced α :=
  ExceptT.mk (some result)

def dropTokens (n : Nat) (tokens : List Token) : Sliced (List Token) :=
  if n ≤ tokens.length then pure (tokens.drop n) else ExceptT.mk none

def failAt {α : Type} (expected : Expected) : List Token → Sliced α
  | [] => ExceptT.mk none
  | token :: _ => throw ⟨expected, token.span.start⟩

def operand : List Token → Sliced (Binary64 × Nat)
  | ⟨.number value, _⟩ :: _ => pure (value, 1)
  | ⟨.operator .subtract, sign⟩ :: ⟨.number value, digits⟩ :: rest =>
    if sign.stop = digits.start then pure (-value, 2)
    else failAt .number (⟨.operator .subtract, sign⟩ :: ⟨.number value, digits⟩ :: rest)
  | tokens => failAt .number tokens

def takeOperand (tokens : List Token) : Sliced (Binary64 × List Token) := do
  let (value, consumed) ← operand tokens
  return (value, ← dropTokens consumed tokens)

def takeOperator (tokens : List Token) : Sliced (Operator × List Token) := do
  match tokens.head?.map Token.kind with
  | some (.operator operator) => return (operator, ← dropTokens 1 tokens)
  | _ => failAt .operator tokens

def takeEnd : List Token → Sliced Unit
  | [⟨.endOfInput, _⟩] => return ()
  | tokens => failAt .endOfInput tokens

/-- The expression that all tokens of the list make up. A list that no end of input closes is
refused before it is looked at. -/
def parse? (tokens : List Token) : Sliced Expression := do
  match tokens.getLast?.map Token.kind with
  | some .endOfInput =>
    let (left, rest) ← takeOperand tokens
    let (operator, rest) ← takeOperator rest
    let (right, rest) ← takeOperand rest
    takeEnd rest
    return ⟨left, operator, right⟩
  | _ => ExceptT.mk none

section Steps

variable {tokens rest : List Token}

theorem dropTokens_append (front rest : List Token) :
    dropTokens front.length (front ++ rest) = pure rest := by
  simp [dropTokens]

theorem failAt_eq {α : Type} (expected : Expected) (h : tokens ≠ []) :
    failAt (α := α) expected tokens = found (.error (.at expected tokens)) := by
  cases tokens with
  | nil => exact absurd rfl h
  | cons next later => rfl

theorem operand_append {front : List Token} {value : Binary64}
    (h : Expression.IsOperand front value) (rest : List Token) :
    operand (front ++ rest) = pure (value, front.length) := by
  cases h with
  | number value digits => rfl
  | signed value sign digits htouch => simp [operand, htouch]

theorem operand_of_not_meets (h : ¬ Expression.Meets .number tokens) :
    operand tokens = failAt .number tokens := by
  unfold operand
  split
  · rename_i value digits rest
    exact absurd (.number rest (.number value digits)) h
  · rename_i sign value digits rest
    split
    · rename_i htouch
      exact absurd (.number rest (.signed value sign digits htouch)) h
    · rfl
  · rfl

theorem takeOperand_eq (h : tokens ≠ []) :
    takeOperand tokens = found (Expression.parseOperand tokens) := by
  by_cases hmeets : Expression.Meets .number tokens
  · cases hmeets with
    | number rest hfront =>
      rw [takeOperand, operand_append hfront, Expression.parseOperand_append hfront]
      simp only [pure_bind, dropTokens_append]
      rfl
  · rw [takeOperand, operand_of_not_meets hmeets, failAt_eq .number h,
      Expression.parseOperand_of_not_meets hmeets]
    rfl

theorem takeOperator_eq (h : tokens ≠ []) :
    takeOperator tokens = found (Expression.parseOperator tokens) := by
  obtain ⟨⟨kind, span⟩, later, rfl⟩ := List.exists_cons_of_ne_nil h
  cases kind <;> rfl

theorem takeEnd_eq (h : tokens ≠ []) :
    takeEnd tokens = found (Expression.parseEnd tokens) := by
  by_cases hmeets : Expression.Meets .endOfInput tokens
  · cases hmeets
    rfl
  · rw [Expression.parseEnd_of_not_meets hmeets, ← failAt_eq .endOfInput h]
    unfold takeEnd
    split
    · rename_i span
      exact absurd (.endOfInput span) hmeets
    · rfl

end Steps

theorem found_bind {α β : Type} {first : Except SyntaxFault α} {next : α → Sliced β}
    {next' : α → Except SyntaxFault β} (h : ∀ a, first = .ok a → next a = found (next' a)) :
    found first >>= next = found (first >>= next') := by
  cases first with
  | error fault => rfl
  | ok a => exact h a rfl

/-- On the tokens of a stream every cut and every fault finds what it needs. -/
theorem parse?_toList (stream : TokenStream) :
    parse? stream.toList = found (Expression.parse stream) := by
  have hlast : stream.toList.getLast?.map Token.kind = some .endOfInput := by
    simp [TokenStream.toList]
  unfold parse? Expression.parse
  rw [hlast]
  -- What each step leaves is again a stream, so it is never empty.
  rw [takeOperand_eq stream.toList_ne_nil]
  apply found_bind
  rintro ⟨left, rest⟩ hleft
  obtain ⟨afterLeft, rfl⟩ := TokenStream.exists_toList_of_parseOperand hleft
  dsimp only
  rw [takeOperator_eq afterLeft.toList_ne_nil]
  apply found_bind
  rintro ⟨operator, rest⟩ hoperator
  obtain ⟨afterOperator, rfl⟩ := TokenStream.exists_toList_of_parseOperator hoperator
  dsimp only
  rw [takeOperand_eq afterOperator.toList_ne_nil]
  apply found_bind
  rintro ⟨right, rest⟩ hright
  obtain ⟨afterRight, rfl⟩ := TokenStream.exists_toList_of_parseOperand hright
  dsimp only
  rw [takeEnd_eq afterRight.toList_ne_nil]
  apply found_bind
  intro _ _
  rfl

/-- A list is refused for its last token alone. -/
theorem run_parse? (tokens : List Token) :
    (parse? tokens).run = (TokenStream.ofList? tokens).map Expression.parse := by
  cases hstream : TokenStream.ofList? tokens with
  | some stream =>
    rw [← TokenStream.toList_of_ofList? hstream, parse?_toList]
    rfl
  | none =>
    have hlast := TokenStream.ofList?_eq_none_iff.mp hstream
    unfold parse?
    rcases hlast with rfl | ⟨front, last, rfl, hkind⟩
    · rfl
    · rw [List.getLast?_concat, Option.map_some]
      split
      · rename_i heq
        exact absurd (Option.some.inj heq) hkind
      · rfl

end Sliced

end LineCalculator
