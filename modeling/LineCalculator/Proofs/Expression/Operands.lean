import LineCalculator.Expression.Parse

namespace LineCalculator

/-- Two steps succeed when the first does and the second does on its result. -/
theorem bind_eq_ok_iff {ε α β : Type} {first : Except ε α} {second : α → Except ε β} {b : β} :
    first >>= second = .ok b ↔ ∃ a, first = .ok a ∧ second a = .ok b := by
  cases first <;> simp [bind, Except.bind]

theorem bind_eq_error_iff {ε α β : Type} {first : Except ε α} {second : α → Except ε β} {e : ε} :
    first >>= second = .error e ↔ first = .error e ∨ ∃ a, first = .ok a ∧ second a = .error e := by
  cases first <;> simp [bind, Except.bind]

namespace Expression

/-- The tokens of an operand and its value. A sign touches the number that it belongs to. -/
inductive IsOperand : List Token → Binary64 → Prop where
  | number (value : Binary64) (digits : Span) : IsOperand [⟨.number value, digits⟩] value
  | signed (value : Binary64) (sign digits : Span) (htouch : sign.stop = digits.start) :
    IsOperand [⟨.operator .subtract, sign⟩, ⟨.number value, digits⟩] (-value)

theorem parseOperand_append {front : List Token} {value : Binary64} (h : IsOperand front value)
    (rest : List Token) : parseOperand (front ++ rest) = .ok (value, rest) := by
  cases h with
  | number => rfl
  | signed value sign digits htouch => simp [parseOperand, htouch]

/-- An operand is found again in front of any tokens. -/
theorem IsOperand.append_inj {front front' rest rest' : List Token} {value value' : Binary64}
    (h : IsOperand front value) (h' : IsOperand front' value')
    (heq : front ++ rest = front' ++ rest') : front = front' ∧ value = value' ∧ rest = rest' := by
  have hparse := parseOperand_append h rest
  rw [heq, parseOperand_append h' rest'] at hparse
  obtain ⟨rfl, rfl⟩ : value' = value ∧ rest' = rest := by simpa using hparse
  exact ⟨List.append_cancel_right heq, rfl, rfl⟩

theorem parseOperand_eq_ok_iff {tokens rest : List Token} {value : Binary64} :
    parseOperand tokens = .ok (value, rest) ↔
      ∃ front, IsOperand front value ∧ tokens = front ++ rest := by
  constructor
  · intro h
    unfold parseOperand at h
    split at h
    · rename_i value' digits rest'
      obtain ⟨rfl, rfl⟩ : value' = value ∧ rest' = rest := by simpa using h
      exact ⟨_, .number value' digits, rfl⟩
    · rename_i sign value' digits rest'
      split at h
      · rename_i htouch
        obtain ⟨rfl, rfl⟩ : -value' = value ∧ rest' = rest := by simpa using h
        exact ⟨_, .signed value' sign digits htouch, rfl⟩
      · simp at h
    · simp at h
  · intro h
    obtain ⟨front, hfront, rfl⟩ := h
    exact parseOperand_append hfront rest

theorem parseOperator_eq_ok_iff {tokens rest : List Token} {operator : Operator} :
    parseOperator tokens = .ok (operator, rest) ↔
      ∃ span, tokens = ⟨.operator operator, span⟩ :: rest := by
  constructor
  · intro h
    unfold parseOperator at h
    split at h
    · rename_i operator' span rest'
      obtain ⟨rfl, rfl⟩ : operator' = operator ∧ rest' = rest := by simpa using h
      exact ⟨span, rfl⟩
    · simp at h
  · intro h
    obtain ⟨span, rfl⟩ := h
    rfl

theorem parseEnd_eq_ok_iff {tokens : List Token} :
    parseEnd tokens = .ok () ↔ ∃ span, tokens = [⟨.endOfInput, span⟩] := by
  constructor
  · intro h
    unfold parseEnd at h
    split at h
    · exact ⟨_, rfl⟩
    · simp at h
  · intro h
    obtain ⟨span, rfl⟩ := h
    rfl

/-- A stream is an expression when it holds an operand, an operator and an operand and no more. -/
theorem parse_eq_ok_iff {stream : TokenStream} {e : Expression} :
    parse stream = .ok e ↔ ∃ left span right, IsOperand left e.left ∧ IsOperand right e.right ∧
      stream.body = left ++ ⟨.operator e.operator, span⟩ :: right := by
  constructor
  · intro h
    obtain ⟨⟨a, rest⟩, hfirst, h⟩ := bind_eq_ok_iff.mp h
    obtain ⟨⟨operator, rest'⟩, hoperator, h⟩ := bind_eq_ok_iff.mp h
    obtain ⟨⟨b, rest''⟩, hsecond, h⟩ := bind_eq_ok_iff.mp h
    obtain ⟨⟨⟩, hend, h⟩ := bind_eq_ok_iff.mp h
    obtain rfl : (⟨a, operator, b⟩ : Expression) = e := by simpa [pure, Except.pure] using h
    obtain ⟨left, hleft, htokens⟩ := parseOperand_eq_ok_iff.mp hfirst
    obtain ⟨span, rfl⟩ := parseOperator_eq_ok_iff.mp hoperator
    obtain ⟨right, hright, rfl⟩ := parseOperand_eq_ok_iff.mp hsecond
    obtain ⟨endSpan, rfl⟩ := parseEnd_eq_ok_iff.mp hend
    refine ⟨left, span, right, hleft, hright, ?_⟩
    -- Both lists close with one end of input, which leaves the bodies equal.
    have hlist : stream.body ++ [⟨.endOfInput, stream.endSpan⟩] =
        (left ++ ⟨.operator operator, span⟩ :: right) ++ [⟨.endOfInput, endSpan⟩] := by
      simpa [TokenStream.toList] using htokens
    exact (List.append_inj' hlist rfl).1
  · intro h
    obtain ⟨left, span, right, hleft, hright, hbody⟩ := h
    have hlist : stream.toList =
        left ++ (⟨.operator e.operator, span⟩ :: (right ++ [⟨.endOfInput, stream.endSpan⟩])) := by
      simp [TokenStream.toList, hbody]
    unfold parse
    rw [hlist, parseOperand_append hleft]
    dsimp only [bind, Except.bind, parseOperator]
    rw [parseOperand_append hright]
    rfl

end Expression

end LineCalculator
