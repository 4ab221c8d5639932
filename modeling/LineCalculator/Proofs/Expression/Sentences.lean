import LineCalculator.Proofs.Expression.Grammar

namespace LineCalculator

namespace TokenStream

section Reading

variable {offset : Nat} {text rest : List Char} {body : List Token} {endSpan : Span}

/-- A number token stands for a numeral after a gap. -/
theorem scanFrom_eq_number_iff {value : Binary64} {span : Span} :
    scanFrom offset text = .ok ⟨⟨.number value, span⟩ :: body, endSpan⟩ ↔
      ∃ gap, ∃ n : Numeral, ∃ rest, text = gap ++ (n.text ++ rest) ∧ Gap gap ∧ n.Valid ∧
        n.EndsBefore rest ∧ n.value = value ∧
        span = ⟨offset + byteLength gap, offset + byteLength gap + byteLength n.text⟩ ∧
        scanFrom (offset + byteLength gap + byteLength n.text) rest = .ok ⟨body, endSpan⟩ := by
  rw [scanFrom_eq_cons_iff]
  constructor
  · intro h
    obtain ⟨gap, lexeme, rfl, hgap, hlongest, htoken, hrest⟩ := h
    cases hlongest with
    | operator operator rest hrest => simp [tokenAt] at htoken
    | number n rest hn hends =>
      simp only [tokenAt, Token.mk.injEq, TokenKind.number.injEq] at htoken
      exact ⟨gap, n, rest, rfl, hgap, hn, hends, htoken.1.symm, htoken.2, hrest⟩
  · intro h
    obtain ⟨gap, n, rest, rfl, hgap, hn, hends, rfl, rfl, hrest⟩ := h
    exact ⟨gap, _, rfl, hgap, .number n rest hn hends, rfl, hrest⟩

/-- An operator token stands for a symbol after a gap. -/
theorem scanFrom_eq_operator_iff {operator : Operator} {span : Span} :
    scanFrom offset text = .ok ⟨⟨.operator operator, span⟩ :: body, endSpan⟩ ↔
      ∃ gap rest, text = gap ++ (operator.symbol.toList ++ rest) ∧ Gap gap ∧
        operator.EndsBefore rest ∧
        span = ⟨offset + byteLength gap,
          offset + byteLength gap + byteLength operator.symbol.toList⟩ ∧
        scanFrom (offset + byteLength gap + byteLength operator.symbol.toList) rest =
          .ok ⟨body, endSpan⟩ := by
  rw [scanFrom_eq_cons_iff]
  constructor
  · intro h
    obtain ⟨gap, lexeme, rfl, hgap, hlongest, htoken, hrest⟩ := h
    cases hlongest with
    | operator operator' rest hends =>
      simp only [tokenAt, Token.mk.injEq, TokenKind.operator.injEq] at htoken
      obtain ⟨rfl, hspan⟩ := htoken
      exact ⟨gap, rest, rfl, hgap, hends, hspan, hrest⟩
    | number n rest hn hends => simp [tokenAt] at htoken
  · intro h
    obtain ⟨gap, rest, rfl, hgap, hends, rfl, hrest⟩ := h
    exact ⟨gap, _, rfl, hgap, .operator operator rest hends, rfl, hrest⟩

theorem scanFrom_eq_minus_iff {span : Span} :
    scanFrom offset text = .ok ⟨⟨.operator .subtract, span⟩ :: body, endSpan⟩ ↔
      ∃ gap rest, text = gap ++ '-' :: rest ∧ Gap gap ∧
        span = ⟨offset + byteLength gap, offset + byteLength gap + 1⟩ ∧
        scanFrom (offset + byteLength gap + 1) rest = .ok ⟨body, endSpan⟩ := by
  have hsymbol : Operator.subtract.symbol.toList = ['-'] := by simp [Operator.symbol]
  have hlength : byteLength ['-'] = 1 := by decide
  have hends (rest : List Char) : Operator.subtract.EndsBefore rest := ⟨by simp, by simp⟩
  rw [scanFrom_eq_operator_iff, hsymbol, hlength]
  simp only [List.cons_append, List.nil_append, hends, true_and]

theorem utf8Size_minus : Char.utf8Size '-' = 1 := by
  decide

/-- The tokens of an operand stand for a literal after a gap. -/
theorem scanFrom_operand_iff {value : Binary64} :
    (∃ front, Expression.IsOperand front value ∧
      scanFrom offset text = .ok ⟨front ++ body, endSpan⟩) ↔
    ∃ gap, ∃ l : Literal, ∃ rest, text = gap ++ (l.text ++ rest) ∧ Gap gap ∧
      l.numeral.EndsBefore rest ∧ l.value = value ∧
      scanFrom (offset + byteLength gap + byteLength l.text) rest = .ok ⟨body, endSpan⟩ := by
  constructor
  · intro h
    obtain ⟨front, hfront, hscan⟩ := h
    cases hfront with
    | number value digits =>
      obtain ⟨gap, n, rest, rfl, hgap, hn, hends, rfl, -, hrest⟩ := scanFrom_eq_number_iff.mp hscan
      exact ⟨gap, ⟨false, n, hn⟩, rest, by simp, hgap, hends, by simp, by simpa using hrest⟩
    | signed value sign digits htouch =>
      obtain ⟨gap, tail, rfl, hgap, rfl, htail⟩ := scanFrom_eq_minus_iff.mp hscan
      obtain ⟨inner, n, rest, rfl, -, hn, hends, rfl, rfl, hrest⟩ :=
        scanFrom_eq_number_iff.mp htail
      -- The sign touches the number, so no byte is between them.
      obtain rfl : inner = [] := by
        cases inner with
        | nil => rfl
        | cons c inner =>
          have hpos := c.utf8Size_pos
          simp only [byteLength_cons] at htouch
          omega
      refine ⟨gap, ⟨true, n, hn⟩, rest, by simp, hgap, hends, by simp, ?_⟩
      rw [Literal.text_signed, byteLength_cons, utf8Size_minus, ← Nat.add_assoc]
      exact hrest
  · intro h
    obtain ⟨gap, ⟨negative, n, hn⟩, rest, rfl, hgap, hends, rfl, hrest⟩ := h
    cases negative with
    | false =>
      rw [Literal.text_unsigned] at hrest ⊢
      rw [Literal.value_unsigned]
      exact ⟨_, .number n.value _,
        scanFrom_eq_number_iff.mpr ⟨gap, n, rest, rfl, hgap, hn, hends, rfl, rfl, hrest⟩⟩
    | true =>
      rw [Literal.text_signed, byteLength_cons, utf8Size_minus, ← Nat.add_assoc] at hrest
      rw [Literal.text_signed, Literal.value_signed]
      have hdigits := scanFrom_eq_number_iff.mpr
        ⟨[], n, rest, rfl, gap_nil, hn, hends, rfl, rfl, hrest⟩
      have hsign := scanFrom_eq_minus_iff.mpr ⟨gap, n.text ++ rest, rfl, hgap, rfl, hdigits⟩
      exact ⟨_, .signed n.value _ _ rfl, hsign⟩

end Reading

end TokenStream

open TokenStream

/-- The texts that stand for an expression are the sentences that say it. -/
theorem denotes_iff_sentence {source : String} {e : Expression} :
    Denotes source e ↔ ∃ s : Sentence, s.text = source.toList ∧ s.expression = e := by
  constructor
  -- The tokens tell the parts of the text from left to right.
  · intro h
    obtain ⟨⟨body, endSpan⟩, hscan, hparse⟩ := h
    obtain ⟨left, span, right, hleft, hright, hbody⟩ := Expression.parse_eq_ok_iff.mp hparse
    obtain rfl : body = left ++ (⟨.operator e.operator, span⟩ :: right) := hbody
    obtain ⟨before, l, rest, htext, hbefore, -, hl, hscan⟩ :=
      scanFrom_operand_iff.mp ⟨left, hleft, hscan⟩
    obtain ⟨beforeOperator, rest', rfl, hbeforeOperator, -, -, hscan⟩ :=
      scanFrom_eq_operator_iff.mp hscan
    rw [← List.append_nil right] at hscan
    obtain ⟨afterOperator, r, after, rfl, hafterOperator, -, hr, hscan⟩ :=
      scanFrom_operand_iff.mp ⟨right, hright, hscan⟩
    obtain ⟨hafter, -⟩ := scanFrom_eq_nil_iff.mp hscan
    refine ⟨⟨before, l, beforeOperator, e.operator, afterOperator, r, after, hbefore,
      hbeforeOperator, hafterOperator, hafter⟩, htext.symm, ?_⟩
    simp [Sentence.expression, hl, hr]
  -- The scan of a sentence is put together from its end, each part before the ones after it.
  · intro h
    obtain ⟨s, htext, rfl⟩ := h
    have hafter := scanFrom_gap (0 + byteLength s.before + byteLength s.left.text +
      byteLength s.beforeOperator + byteLength s.operator.symbol.toList +
      byteLength s.afterOperator + byteLength s.right.text) s.after_gap
    obtain ⟨right, hright, hscan⟩ := scanFrom_operand_iff.mpr
      ⟨s.afterOperator, s.right, s.after, rfl, s.afterOperator_gap, s.right_endsBefore, rfl, hafter⟩
    rw [List.append_nil] at hscan
    have hscan := scanFrom_eq_operator_iff.mpr
      ⟨s.beforeOperator, _, rfl, s.beforeOperator_gap, s.operator_endsBefore _, rfl, hscan⟩
    obtain ⟨left, hleft, hscan⟩ := scanFrom_operand_iff.mpr
      ⟨s.before, s.left, _, rfl, s.before_gap, s.left_endsBefore _, rfl, hscan⟩
    change scanFrom 0 s.text = _ at hscan
    rw [htext] at hscan
    exact ⟨_, hscan, Expression.parse_eq_ok_iff.mpr ⟨left, _, right, hleft, hright, rfl⟩⟩

end LineCalculator
