import LineCalculator.Proofs.Expression.Evaluation
import LineCalculator.Proofs.Expression.Operands
import LineCalculator.Proofs.Token.Scanning

/-!
The language of the calculator: two literals around an operator symbol, with separators before,
between and after them. Scanning and parsing together accept exactly its sentences, and a text is a
sentence in one way only.
-/
namespace LineCalculator

/-- A numeral, with or without a sign directly before it. -/
structure Literal where
  negative : Bool
  numeral : Numeral
  valid : numeral.Valid

namespace Literal

def text (l : Literal) : List Char :=
  if l.negative then '-' :: l.numeral.text else l.numeral.text

def value (l : Literal) : Binary64 :=
  if l.negative then -l.numeral.value else l.numeral.value

section Signs

variable (n : Numeral) (hn : n.Valid)

@[simp]
theorem text_unsigned : text ⟨false, n, hn⟩ = n.text := by
  simp [text]

@[simp]
theorem text_signed : text ⟨true, n, hn⟩ = '-' :: n.text := by
  simp [text]

@[simp]
theorem value_unsigned : value ⟨false, n, hn⟩ = n.value := by
  simp [value]

@[simp]
theorem value_signed : value ⟨true, n, hn⟩ = -n.value := by
  simp [value]

end Signs

/-- The value of a literal has the magnitude of its numeral and its own sign. -/
theorem value_eq_ofRank (l : Literal) {rank : Nat} (h : l.numeral.value = .ofRank false rank) :
    l.value = .ofRank l.negative rank := by
  obtain ⟨negative, n, hn⟩ := l
  cases negative with
  | false => rw [value_unsigned, h]
  | true =>
    rw [value_signed, h]
    unfold Binary64.ofRank
    split <;> rfl

theorem text_eq_append (l : Literal) :
    l.text = Binary64.signText l.negative ++ l.numeral.text := by
  obtain ⟨negative, n, hn⟩ := l
  cases negative <;> simp [Binary64.signText]

end Literal

theorem isDecimalDigit_zero : isDecimalDigit '0' = true := by
  decide

def Literal.zero : Literal :=
  ⟨false, ⟨['0'], []⟩, ⟨by simp, by simpa using isDecimalDigit_zero, by simp⟩⟩

/-- A sentence of the language, with the gaps around its three parts. -/
structure Sentence where
  before : List Char
  left : Literal
  beforeOperator : List Char
  operator : Operator
  afterOperator : List Char
  right : Literal
  after : List Char
  before_gap : Gap before
  beforeOperator_gap : Gap beforeOperator
  afterOperator_gap : Gap afterOperator
  after_gap : Gap after

namespace Sentence

def text (s : Sentence) : List Char :=
  s.before ++ (s.left.text ++ (s.beforeOperator ++ (s.operator.symbol.toList ++
    (s.afterOperator ++ (s.right.text ++ s.after)))))

def expression (s : Sentence) : Expression :=
  ⟨s.left.value, s.operator, s.right.value⟩

end Sentence

/-- A gap ends every numeral, since it starts with neither a digit nor a point. -/
theorem Numeral.endsBefore_gap_append (n : Numeral) {gap rest : List Char} (hgap : Gap gap)
    (hdigit : StartsOutside isDecimalDigit rest) (hpoint : StartsOutside (· == '.') rest) :
    n.EndsBefore (gap ++ rest) := by
  apply n.endsBefore_of_startsOutside
  · exact startsOutside_gap_append hgap (fun c hc => not_isDecimalDigit_of_isSeparator hc) hdigit
  · apply startsOutside_gap_append hgap _ hpoint
    intro c hc
    simpa using fun hpoint : c = '.' => absurd hc (by rw [hpoint]; decide)

theorem Operator.endsBefore_gap_append (operator : Operator) {gap rest : List Char}
    (hgap : Gap gap) (hstar : StartsOutside (· == '*') rest)
    (hslash : StartsOutside (· == '/') rest) : operator.EndsBefore (gap ++ rest) := by
  constructor
  · intro _
    apply startsOutside_gap_append hgap _ hstar
    intro c hc
    simpa using fun hstar : c = '*' => absurd hc (by rw [hstar]; decide)
  · intro _
    apply startsOutside_gap_append hgap _ hslash
    intro c hc
    simpa using fun hslash : c = '/' => absurd hc (by rw [hslash]; decide)

theorem Operator.startsOutside_symbol (operator : Operator) (rest : List Char) :
    StartsOutside isDecimalDigit (operator.symbol.toList ++ rest) ∧
    StartsOutside (· == '.') (operator.symbol.toList ++ rest) ∧
    StartsOutside isSeparator (operator.symbol.toList ++ rest) := by
  cases operator <;> simp [Operator.symbol] <;> decide

namespace Literal

/-- A literal starts with a sign or a digit, so with no other character of the language. -/
theorem startsOutside_text (l : Literal) (rest : List Char) {p : Char → Bool}
    (hsign : p '-' = false) (hdigit : ∀ c, isDecimalDigit c = true → p c = false) :
    StartsOutside p (l.text ++ rest) := by
  obtain ⟨c, tail, htext, hc⟩ := Numeral.exists_text_eq_cons l.valid
  unfold text
  split
  · exact startsOutside_cons.mpr hsign
  · rw [htext]
    exact startsOutside_cons.mpr (hdigit c hc)

theorem ne_of_isDecimalDigit {c d : Char} (hc : isDecimalDigit c = true) (hd : d.toNat < 0x30) :
    (c == d) = false := by
  have hle := zero_le_of_isDecimalDigit hc
  simp only [beq_eq_false_iff_ne, ne_eq]
  rintro rfl
  omega

/-- A literal and the text after it are found again where the text does not lengthen it. -/
theorem text_append_inj {l l' : Literal} {rest rest' : List Char}
    (hrest : l.numeral.EndsBefore rest) (hrest' : l'.numeral.EndsBefore rest')
    (h : l.text ++ rest = l'.text ++ rest') : l = l' ∧ rest = rest' := by
  obtain ⟨negative, n, hn⟩ := l
  obtain ⟨negative', n', hn'⟩ := l'
  have numeral_inj (hnumerals : n.text ++ rest = n'.text ++ rest') : n = n' ∧ rest = rest' := by
    have hread := Numeral.read?_text_append hn hrest
    rw [hnumerals, Numeral.read?_text_append hn' hrest'] at hread
    simpa [eq_comm] using hread
  have sign_ne_digit {m : Numeral} (hm : m.Valid) {a b : List Char} :
      '-' :: a ≠ m.text ++ b := by
    obtain ⟨c, tail, htext, hc⟩ := Numeral.exists_text_eq_cons hm
    rw [htext, List.cons_append]
    intro heq
    rw [← (List.cons.inj heq).1] at hc
    exact absurd hc (by decide)
  -- With different signs one text starts with a minus and the other with a digit.
  cases negative <;> cases negative'
  · obtain ⟨rfl, rfl⟩ := numeral_inj (by simpa using h)
    exact ⟨rfl, rfl⟩
  · exact absurd (by simpa using h.symm) (sign_ne_digit hn)
  · exact absurd (by simpa using h) (sign_ne_digit hn')
  · obtain ⟨rfl, rfl⟩ := numeral_inj (by simpa using h)
    exact ⟨rfl, rfl⟩

end Literal

/-- An operator symbol is found again where the text after it does not double it. -/
theorem Operator.symbol_append_inj {operator operator' : Operator} {rest rest' : List Char}
    (hrest : operator.EndsBefore rest) (hrest' : operator'.EndsBefore rest')
    (h : operator.symbol.toList ++ rest = operator'.symbol.toList ++ rest') :
    operator = operator' ∧ rest = rest' := by
  have hread := Lexeme.readOperator?_symbol_append hrest
  rw [h, Lexeme.readOperator?_symbol_append hrest'] at hread
  simp only [Option.some.injEq, Lexeme.mk.injEq, TokenKind.operator.injEq] at hread
  exact ⟨hread.1.symm, hread.2.2.symm⟩

namespace Sentence

theorem left_endsBefore (s : Sentence) (rest : List Char) : s.left.numeral.EndsBefore
    (s.beforeOperator ++ (s.operator.symbol.toList ++ rest)) := by
  obtain ⟨hdigit, hpoint, -⟩ := s.operator.startsOutside_symbol rest
  exact s.left.numeral.endsBefore_gap_append s.beforeOperator_gap hdigit hpoint

theorem operator_endsBefore (s : Sentence) (rest : List Char) :
    s.operator.EndsBefore (s.afterOperator ++ (s.right.text ++ rest)) := by
  apply s.operator.endsBefore_gap_append s.afterOperator_gap
  · exact s.right.startsOutside_text rest (by decide)
      fun c hc => Literal.ne_of_isDecimalDigit hc (by decide)
  · exact s.right.startsOutside_text rest (by decide)
      fun c hc => Literal.ne_of_isDecimalDigit hc (by decide)

theorem right_endsBefore (s : Sentence) : s.right.numeral.EndsBefore s.after := by
  simpa using s.right.numeral.endsBefore_gap_append s.after_gap (startsOutside_nil isDecimalDigit)
    (startsOutside_nil (· == '.'))

theorem startsOutside_isSeparator_literal (l : Literal) (rest : List Char) :
    StartsOutside isSeparator (l.text ++ rest) :=
  l.startsOutside_text rest (by decide) fun _ hc => not_isSeparator_of_isDecimalDigit hc

/-- No text is a sentence in two ways. -/
theorem text_injective {s t : Sentence} (h : s.text = t.text) : s = t := by
  -- The parts are taken off one after the other; each ends where the next one begins.
  obtain ⟨hbefore, h⟩ := run_append_inj s.before_gap (startsOutside_isSeparator_literal _ _)
    t.before_gap (startsOutside_isSeparator_literal _ _) h
  obtain ⟨hleft, h⟩ := Literal.text_append_inj (s.left_endsBefore _) (t.left_endsBefore _) h
  obtain ⟨hgap, h⟩ := run_append_inj s.beforeOperator_gap
    (s.operator.startsOutside_symbol _).2.2 t.beforeOperator_gap
    (t.operator.startsOutside_symbol _).2.2 h
  obtain ⟨hoperator, h⟩ := Operator.symbol_append_inj (s.operator_endsBefore _)
    (t.operator_endsBefore _) h
  obtain ⟨hgap', h⟩ := run_append_inj s.afterOperator_gap (startsOutside_isSeparator_literal _ _)
    t.afterOperator_gap (startsOutside_isSeparator_literal _ _) h
  obtain ⟨hright, hafter⟩ := Literal.text_append_inj s.right_endsBefore t.right_endsBefore h
  cases s
  cases t
  simp_all

end Sentence

end LineCalculator
