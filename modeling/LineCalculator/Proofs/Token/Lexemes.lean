import LineCalculator.Proofs.Token.Numerals

namespace LineCalculator

/-- The text does not double the symbol of an operator that it follows. -/
structure Operator.EndsBefore (operator : Operator) (rest : List Char) : Prop where
  star : operator = .multiply → StartsOutside (· == '*') rest
  slash : operator = .divide → StartsOutside (· == '/') rest

theorem Operator.EndsBefore.shorten {operator : Operator} {rest more : List Char}
    (h : operator.EndsBefore rest) (hmore : more <+: rest) : operator.EndsBefore more :=
  ⟨fun hstar => (h.star hstar).shorten hmore, fun hslash => (h.slash hslash).shorten hmore⟩

theorem Operator.EndsBefore.append {operator : Operator} {rest more : List Char}
    (h : operator.EndsBefore rest) (hmore : StartsSeparated more) :
    operator.EndsBefore (rest ++ more) := by
  constructor
  · intro hstar
    exact (h.star hstar).append (hmore.startsOutside (not_beq_of_isSeparator (by decide)))
  · intro hslash
    exact (h.slash hslash).append (hmore.startsOutside (not_beq_of_isSeparator (by decide)))

def Numeral.value (n : Numeral) : Binary64 :=
  n.toDecimal.toBinary64

theorem mapM_digitValue? {chars : List Char} (h : ∀ c ∈ chars, isDecimalDigit c = true) :
    chars.mapM digitValue? = some (chars.map digitValue) := by
  induction chars with
  | nil => rfl
  | cons c rest ih =>
    have hvalue : digitValue? c = some (digitValue c) := if_pos (h c (by simp))
    rw [List.mapM_cons, hvalue, ih fun d hd => h d (List.mem_cons_of_mem c hd)]
    rfl

/-- All characters of a numeral but its point have a value, so the numeral has one. -/
theorem Numeral.toDecimal?_eq {n : Numeral} (hn : n.Valid) : n.toDecimal? = some n.toDecimal := by
  have hdigits : ∀ c ∈ n.whole ++ n.fraction, isDecimalDigit c = true :=
    List.forall_mem_append.mpr ⟨hn.whole_digits, hn.fraction_digits⟩
  rw [toDecimal?, mapM_digitValue? hdigits]
  rfl

namespace Lexeme

/-- No numeral that is read is given up for want of a value. -/
theorem readNumber?_eq (text : List Char) : readNumber? text =
    (Numeral.read? text).map fun (n, rest) => ⟨.number n.value, n.text, rest⟩ := by
  unfold readNumber?
  cases hread : Numeral.read? text with
  | none => rfl
  | some read =>
    obtain ⟨n, rest⟩ := read
    rw [Option.bind_some]
    dsimp only
    rw [Numeral.toDecimal?_eq (Numeral.of_read? hread).1]
    rfl

/-- A lexeme of the grammar before a text that does not lengthen it. -/
inductive Longest : Lexeme → Prop where
  | operator (operator : Operator) (rest : List Char) (hrest : operator.EndsBefore rest) :
    Longest ⟨.operator operator, operator.symbol.toList, rest⟩
  | number (numeral : Numeral) (rest : List Char) (hvalid : numeral.Valid)
    (hrest : numeral.EndsBefore rest) : Longest ⟨.number numeral.value, numeral.text, rest⟩

/-- A longest lexeme stays so when the text after it is cut short. -/
theorem Longest.shorten {lexeme : Lexeme} {more : List Char} (h : lexeme.Longest)
    (hmore : more <+: lexeme.rest) : Longest ⟨lexeme.kind, lexeme.text, more⟩ := by
  cases h with
  | operator operator rest hrest => exact .operator operator more (hrest.shorten hmore)
  | number n rest hn hrest => exact .number n more hn (hrest.shorten hmore)

theorem Longest.append {lexeme : Lexeme} {more : List Char} (h : lexeme.Longest)
    (hmore : StartsSeparated more) :
    Longest ⟨lexeme.kind, lexeme.text, lexeme.rest ++ more⟩ := by
  cases h with
  | operator operator rest hrest => exact .operator operator _ (hrest.append hmore)
  | number n rest hn hrest => exact .number n _ hn (hrest.append hmore)

theorem Longest.not_isSeparator {lexeme : Lexeme} (h : lexeme.Longest) :
    ∀ c ∈ lexeme.text, isSeparator c = false := by
  intro c hc
  cases h with
  | operator operator rest hrest =>
    have hsymbol : ∀ d ∈ operator.symbol.toList, isSeparator d = false := by
      cases operator <;> exact List.all_iff_forall_prop.mp (by decide)
    exact hsymbol c hc
  | number n rest hn hrest => exact Numeral.not_isSeparator_of_mem_text hn hc

theorem readOperator?_symbol_append {operator : Operator} {rest : List Char}
    (hrest : operator.EndsBefore rest) :
    readOperator? (operator.symbol.toList ++ rest) =
      some ⟨.operator operator, operator.symbol.toList, rest⟩ := by
  cases operator with
  | add | subtract | floorDivide | modulo | power => simp [Operator.symbol, readOperator?]
  | multiply =>
    have hstar := hrest.star rfl
    cases rest with
    | nil => simp [Operator.symbol, readOperator?]
    | cons c tail =>
      replace hstar : c ≠ '*' := by simpa using hstar
      simp [Operator.symbol, readOperator?, hstar]
  | divide =>
    have hslash := hrest.slash rfl
    cases rest with
    | nil => simp [Operator.symbol, readOperator?]
    | cons c tail =>
      replace hslash : c ≠ '/' := by simpa using hslash
      simp [Operator.symbol, readOperator?, hslash]

theorem longest_of_readOperator? {text : List Char} {lexeme : Lexeme}
    (h : readOperator? text = some lexeme) : lexeme.Longest := by
  unfold readOperator? at h
  split at h <;> simp only [Option.some.injEq, reduceCtorEq] at h <;> subst h
  case h_1 rest => exact .operator .power rest ⟨by simp, by simp⟩
  case h_2 rest => exact .operator .floorDivide rest ⟨by simp, by simp⟩
  case h_3 rest => exact .operator .add rest ⟨by simp, by simp⟩
  case h_4 rest => exact .operator .subtract rest ⟨by simp, by simp⟩
  -- A single star or slash is read only where no second one follows.
  case h_5 rest hdouble =>
    refine .operator .multiply rest ⟨?_, by simp⟩
    rintro - c hc
    obtain ⟨tail, rfl⟩ := List.head?_eq_some_iff.mp hc
    simpa using fun hstar => hdouble tail (by rw [hstar])
  case h_6 rest hdouble =>
    refine .operator .divide rest ⟨by simp, ?_⟩
    rintro - c hc
    obtain ⟨tail, rfl⟩ := List.head?_eq_some_iff.mp hc
    simpa using fun hslash => hdouble tail (by rw [hslash])
  case h_7 rest => exact .operator .modulo rest ⟨by simp, by simp⟩

theorem readOperator?_of_isDecimalDigit {c : Char} {tail : List Char}
    (h : isDecimalDigit c = true) : readOperator? (c :: tail) = none := by
  have hle := zero_le_of_isDecimalDigit h
  unfold readOperator?
  split <;> first | rfl | (rename_i heq; simp only [List.cons.injEq] at heq; simp [heq.1] at hle)

theorem readNumber?_eq_some_iff {text : List Char} {lexeme : Lexeme} :
    readNumber? text = some lexeme ↔
      ∃ n : Numeral, n.Valid ∧ n.EndsBefore lexeme.rest ∧ text = n.text ++ lexeme.rest ∧
        lexeme = ⟨.number n.value, n.text, lexeme.rest⟩ := by
  simp only [readNumber?_eq, Option.map_eq_some_iff, Prod.exists]
  constructor
  · intro h
    obtain ⟨n, rest, hread, rfl⟩ := h
    obtain ⟨hn, hrest, htext⟩ := Numeral.of_read? hread
    exact ⟨n, hn, hrest, htext, rfl⟩
  · intro h
    obtain ⟨n, hn, hrest, rfl, hlexeme⟩ := h
    exact ⟨n, lexeme.rest, Numeral.read?_text_append hn hrest, hlexeme.symm⟩

/-- A lexeme of the grammar is read whole where the text after it does not lengthen it. -/
theorem read?_append {lexeme : Lexeme} (h : lexeme.Longest) :
    read? (lexeme.text ++ lexeme.rest) = some lexeme := by
  cases h with
  | operator operator rest hrest => simp [read?, readOperator?_symbol_append hrest]
  | number n rest hn hrest =>
    obtain ⟨c, tail, htext, hc⟩ := Numeral.exists_text_eq_cons hn
    have hoperator : readOperator? (n.text ++ rest) = none := by
      rw [htext, List.cons_append]
      exact readOperator?_of_isDecimalDigit hc
    have hnumber : readNumber? (n.text ++ rest) = some ⟨.number n.value, n.text, rest⟩ :=
      readNumber?_eq_some_iff.mpr ⟨n, hn, hrest, rfl, rfl⟩
    simp [read?, hoperator, hnumber]

theorem Longest.text_ne_nil {lexeme : Lexeme} (h : lexeme.Longest) : lexeme.text ≠ [] :=
  Lexeme.text_ne_nil (read?_append h)

theorem Longest.startsOutside {lexeme : Lexeme} (h : lexeme.Longest) (rest : List Char) :
    StartsOutside isSeparator (lexeme.text ++ rest) := by
  obtain ⟨c, tail, htext⟩ := List.exists_cons_of_ne_nil h.text_ne_nil
  rw [htext]
  exact startsOutside_cons.mpr (h.not_isSeparator c (by simp [htext]))

theorem Longest.startsOutside_reverse {lexeme : Lexeme} (h : lexeme.Longest)
    (front : List Char) : StartsOutside isSeparator (front ++ lexeme.text).reverse := by
  obtain ⟨init, c, htext⟩ := (List.eq_nil_or_concat lexeme.text).resolve_left h.text_ne_nil
  rw [htext, List.concat_eq_append, ← List.append_assoc, List.reverse_concat]
  exact startsOutside_cons.mpr (h.not_isSeparator c (by simp [htext]))

theorem longest_of_read? {text : List Char} {lexeme : Lexeme} (h : read? text = some lexeme) :
    lexeme.Longest := by
  rcases Option.or_eq_some_iff.mp h with h | ⟨-, h⟩
  · exact longest_of_readOperator? h
  · obtain ⟨n, hn, hrest, -, hlexeme⟩ := readNumber?_eq_some_iff.mp h
    rw [hlexeme]
    exact .number n lexeme.rest hn hrest

/-- Reading is exact: it finds the lexeme that a text starts with, as far as it goes. -/
theorem read?_eq_some_iff {text : List Char} {lexeme : Lexeme} :
    read? text = some lexeme ↔ lexeme.Longest ∧ text = lexeme.text ++ lexeme.rest := by
  constructor
  · intro h
    exact ⟨longest_of_read? h, text_append_rest h⟩
  · intro h
    obtain ⟨hlongest, rfl⟩ := h
    exact read?_append hlongest

def Begins (text : List Char) : Prop :=
  (∃ operator : Operator, operator.symbol.toList <+: text) ∨
    ∃ n : Numeral, n.Valid ∧ n.text <+: text

theorem readOperator?_ne_none_of_symbol (operator : Operator) (rest : List Char) :
    readOperator? (operator.symbol.toList ++ rest) ≠ none := by
  cases operator with
  | add | subtract | floorDivide | modulo | power => simp [Operator.symbol, readOperator?]
  -- A star or slash is read alone or as the first half of a doubled one.
  | multiply | divide =>
    simp only [Operator.symbol, String.reduceToList, List.cons_append, List.nil_append]
    unfold readOperator?
    split <;> simp_all

/-- Nothing is read only where no lexeme of any length stands. -/
theorem read?_eq_none_iff {text : List Char} : read? text = none ↔ ¬ Begins text := by
  constructor
  · intro h hbegins
    obtain ⟨hoperator, hnumber⟩ := Option.or_eq_none_iff.mp h
    rcases hbegins with ⟨operator, rest, rfl⟩ | ⟨n, hn, rest, rfl⟩
    · exact readOperator?_ne_none_of_symbol operator rest hoperator
    · obtain ⟨c, tail, htext, hc⟩ := Numeral.exists_text_eq_cons hn
      have hread : Numeral.read? (n.text ++ rest) = none := by
        simpa [readNumber?_eq] using hnumber
      rw [htext, List.cons_append, Numeral.read?_eq_none_iff, startsOutside_cons] at hread
      simp [hc] at hread
  · intro h
    cases hread : read? text with
    | none => rfl
    | some lexeme =>
      obtain ⟨hlongest, rfl⟩ := read?_eq_some_iff.mp hread
      refine absurd ?_ h
      cases hlongest with
      | operator operator rest hrest => exact .inl ⟨operator, rest, rfl⟩
      | number n rest hn hrest => exact .inr ⟨n, hn, rest, rfl⟩

theorem startsOutside_isSeparator_of_read? {text : List Char} {lexeme : Lexeme}
    (h : read? text = some lexeme) : StartsOutside isSeparator text := by
  obtain ⟨hlongest, rfl⟩ := read?_eq_some_iff.mp h
  cases hlongest with
  | operator operator rest hrest => cases operator <;> simp [Operator.symbol, isSeparator]
  | number n rest hn hrest =>
    obtain ⟨c, tail, htext, hc⟩ := Numeral.exists_text_eq_cons hn
    simp [htext, not_isSeparator_of_isDecimalDigit hc]

end Lexeme

end LineCalculator
