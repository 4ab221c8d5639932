import LineCalculator.Decimal.Basic
import LineCalculator.Text.Digit
import LineCalculator.Token.Basic

/-!
Lexemes: operator symbols and unsigned numerals. Of two lexemes at the start of a text the longer
one is read.
-/
namespace LineCalculator

/-- An unsigned numeral: the digits before the point and those after it. There is a point only
where digits follow it. -/
structure Numeral where
  whole : List Char
  fraction : List Char
  deriving DecidableEq, Repr

namespace Numeral

def text (n : Numeral) : List Char :=
  if n.fraction.isEmpty then n.whole else n.whole ++ '.' :: n.fraction

def toDecimal (n : Numeral) : Decimal :=
  Decimal.ofDigits ((n.whole ++ n.fraction).map digitValue) n.fraction.length

def toDecimal? (n : Numeral) : Option Decimal :=
  ((n.whole ++ n.fraction).mapM digitValue?).map fun values =>
    Decimal.ofDigits values n.fraction.length

/-- The longest numeral at the start of the text, and the text after it. A point that no digit
follows is left behind. -/
def read? (text : List Char) : Option (Numeral × List Char) :=
  let whole := text.takeWhile isDecimalDigit
  let rest := text.dropWhile isDecimalDigit
  if whole.isEmpty then none
  else match rest with
  | '.' :: tail =>
    let fraction := tail.takeWhile isDecimalDigit
    if fraction.isEmpty then some (⟨whole, []⟩, rest)
    else some (⟨whole, fraction⟩, tail.dropWhile isDecimalDigit)
  | _ => some (⟨whole, []⟩, rest)

/-- Reading takes the digits at the start, and a point with the digits after it where there are
any. -/
theorem read?_cases {text rest : List Char} {n : Numeral} (h : read? text = some (n, rest)) :
    text.takeWhile isDecimalDigit ≠ [] ∧
    ((n = ⟨text.takeWhile isDecimalDigit, []⟩ ∧ rest = text.dropWhile isDecimalDigit ∧
        ∀ tail, rest = '.' :: tail → tail.takeWhile isDecimalDigit = []) ∨
      ∃ tail, text.dropWhile isDecimalDigit = '.' :: tail ∧
        tail.takeWhile isDecimalDigit ≠ [] ∧
        n = ⟨text.takeWhile isDecimalDigit, tail.takeWhile isDecimalDigit⟩ ∧
        rest = tail.dropWhile isDecimalDigit) := by
  unfold read? at h
  dsimp only at h
  split at h
  · simp at h
  · rename_i hwhole
    refine ⟨by simpa using hwhole, ?_⟩
    split at h
    · rename_i tail hrest
      split at h
      -- The point is left behind: no digit follows it.
      · rename_i hfraction
        obtain ⟨rfl, rfl⟩ : _ = n ∧ _ = rest := by simpa using h
        refine .inl ⟨rfl, rfl, ?_⟩
        intro tail' htail
        obtain rfl : tail = tail' := by simpa [hrest] using htail
        simpa using hfraction
      · rename_i hfraction
        obtain ⟨rfl, rfl⟩ : _ = n ∧ _ = rest := by simpa using h
        exact .inr ⟨tail, hrest, by simpa using hfraction, rfl, rfl⟩
    · rename_i hpoint
      obtain ⟨rfl, rfl⟩ : _ = n ∧ _ = rest := by simpa using h
      exact .inl ⟨rfl, rfl, fun tail htail => absurd htail (hpoint tail)⟩

theorem text_append_rest_of_read? {text rest : List Char} {n : Numeral}
    (h : read? text = some (n, rest)) : text = n.text ++ rest := by
  have hsplit : text.takeWhile isDecimalDigit ++ text.dropWhile isDecimalDigit = text :=
    List.takeWhile_append_dropWhile
  obtain ⟨-, ⟨rfl, rfl, -⟩ | ⟨tail, hrest, hfraction, rfl, rfl⟩⟩ := read?_cases h
  · simp [Numeral.text]
  · have htail : tail.takeWhile isDecimalDigit ++ tail.dropWhile isDecimalDigit = tail :=
      List.takeWhile_append_dropWhile
    simp [Numeral.text, hfraction, htail, ← hrest]

theorem text_ne_nil_of_read? {text rest : List Char} {n : Numeral}
    (h : read? text = some (n, rest)) : n.text ≠ [] := by
  obtain ⟨hwhole, ⟨rfl, -, -⟩ | ⟨tail, -, hfraction, rfl, -⟩⟩ := read?_cases h
  · simpa [Numeral.text] using hwhole
  · simp [Numeral.text, hfraction]

end Numeral

/-- A lexeme read from the start of a text: its meaning, its characters and the text after it. -/
structure Lexeme where
  kind : TokenKind
  text : List Char
  rest : List Char
  deriving DecidableEq, Repr

namespace Lexeme

def readOperator? : List Char → Option Lexeme
  | '*' :: '*' :: rest => some ⟨.operator .power, ['*', '*'], rest⟩
  | '/' :: '/' :: rest => some ⟨.operator .floorDivide, ['/', '/'], rest⟩
  | '+' :: rest => some ⟨.operator .add, ['+'], rest⟩
  | '-' :: rest => some ⟨.operator .subtract, ['-'], rest⟩
  | '*' :: rest => some ⟨.operator .multiply, ['*'], rest⟩
  | '/' :: rest => some ⟨.operator .divide, ['/'], rest⟩
  | '%' :: rest => some ⟨.operator .modulo, ['%'], rest⟩
  | _ => none

/-- The numeral at the start of the text, with its nearest value. A numeral without a value is no
lexeme. -/
def readNumber? (text : List Char) : Option Lexeme :=
  (Numeral.read? text).bind fun (numeral, rest) =>
    numeral.toDecimal?.map fun d => ⟨.number d.toBinary64, numeral.text, rest⟩

def read? (text : List Char) : Option Lexeme :=
  (readOperator? text).or (readNumber? text)

theorem exists_read?_of_readNumber? {text : List Char} {lexeme : Lexeme}
    (h : readNumber? text = some lexeme) :
    ∃ n, Numeral.read? text = some (n, lexeme.rest) ∧ lexeme.text = n.text := by
  obtain ⟨⟨n, rest⟩, hread, h⟩ := Option.bind_eq_some_iff.mp h
  obtain ⟨d, -, rfl⟩ := Option.map_eq_some_iff.mp h
  exact ⟨n, hread, rfl⟩

theorem text_append_rest_of_readOperator? {text : List Char} {lexeme : Lexeme}
    (h : readOperator? text = some lexeme) : text = lexeme.text ++ lexeme.rest := by
  unfold readOperator? at h
  split at h <;> simp only [Option.some.injEq, reduceCtorEq] at h <;> subst h <;> rfl

theorem text_append_rest_of_readNumber? {text : List Char} {lexeme : Lexeme}
    (h : readNumber? text = some lexeme) : text = lexeme.text ++ lexeme.rest := by
  obtain ⟨n, hread, htext⟩ := exists_read?_of_readNumber? h
  rw [htext]
  exact Numeral.text_append_rest_of_read? hread

/-- A lexeme and the text after it make up the text it was read from. -/
theorem text_append_rest {text : List Char} {lexeme : Lexeme} (h : read? text = some lexeme) :
    text = lexeme.text ++ lexeme.rest := by
  rcases Option.or_eq_some_iff.mp h with h | ⟨-, h⟩
  · exact text_append_rest_of_readOperator? h
  · exact text_append_rest_of_readNumber? h

theorem text_ne_nil_of_readNumber? {text : List Char} {lexeme : Lexeme}
    (h : readNumber? text = some lexeme) : lexeme.text ≠ [] := by
  obtain ⟨n, hread, htext⟩ := exists_read?_of_readNumber? h
  rw [htext]
  exact Numeral.text_ne_nil_of_read? hread

/-- No lexeme is empty. -/
theorem text_ne_nil {text : List Char} {lexeme : Lexeme} (h : read? text = some lexeme) :
    lexeme.text ≠ [] := by
  rcases Option.or_eq_some_iff.mp h with h | ⟨-, h⟩
  · unfold readOperator? at h
    split at h <;> simp only [Option.some.injEq, reduceCtorEq] at h <;> subst h <;> simp
  · exact text_ne_nil_of_readNumber? h

/-- Reading a lexeme shortens the text. -/
theorem length_rest_lt {text : List Char} {lexeme : Lexeme} (h : read? text = some lexeme) :
    lexeme.rest.length < text.length := by
  have hne := List.length_pos_iff.mpr (text_ne_nil h)
  rw [text_append_rest h, List.length_append]
  omega

end Lexeme

end LineCalculator
