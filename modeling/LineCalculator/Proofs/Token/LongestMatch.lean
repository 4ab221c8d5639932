import LineCalculator.Proofs.Expression.Evaluation
import LineCalculator.Proofs.Token.Layout
import LineCalculator.Proofs.Token.Progress

/-!
Scanning as longest match. The lexemes are given as a set of texts, and the longest one that a text
starts with is found by comparing all of them. Taking separators and longest lexemes off a text in
turn is what the scanner does, although it compares nothing and looks two characters ahead at most.
-/
namespace LineCalculator

inductive IsLexeme : List Char → TokenKind → Prop where
  | operator (operator : Operator) : IsLexeme operator.symbol.toList (.operator operator)
  | number (n : Numeral) (hn : n.Valid) : IsLexeme n.text (.number n.value)

/-- The text starts with this lexeme and with no longer one. -/
structure IsLongestLexeme (text lexeme : List Char) (kind : TokenKind) : Prop where
  isLexeme : IsLexeme lexeme kind
  starts : lexeme <+: text
  longest : ∀ other kind', IsLexeme other kind' → other <+: text → other.length ≤ lexeme.length

/-- Separators and longest lexemes are taken off the text in turn, which gives these pieces and
leaves the rest. -/
inductive Munches : List Char → List Piece → List Char → Prop where
  | done (text : List Char) : Munches text [] text
  | piece {gap lexeme rest last : List Char} {kind : TokenKind} {pieces : List Piece}
    (hgap : Gap gap) (hlexeme : IsLongestLexeme (lexeme ++ rest) lexeme kind)
    (hrest : Munches rest pieces last) :
    Munches (gap ++ (lexeme ++ rest)) (⟨gap, kind, lexeme⟩ :: pieces) last

/-- Behind its separators the text goes on, but no lexeme is at the start of what follows. -/
def Stuck (text : List Char) : Prop :=
  ∃ gap rest, text = gap ++ rest ∧ Gap gap ∧ rest ≠ [] ∧ StartsOutside isSeparator rest ∧
    ∀ lexeme kind, IsLexeme lexeme kind → ¬ lexeme <+: rest

section Lexemes

variable {text rest : List Char} {kind kind' : TokenKind}

theorem Lexeme.Longest.isLexeme {lexeme : Lexeme} (h : lexeme.Longest) :
    IsLexeme lexeme.text lexeme.kind := by
  cases h with
  | operator operator rest hrest => exact .operator operator
  | number n rest hn hrest => exact .number n hn

/-- At the end of a text nothing lengthens a lexeme. -/
theorem IsLexeme.longest_nil (h : IsLexeme text kind) : Lexeme.Longest ⟨kind, text, []⟩ := by
  cases h with
  | operator operator =>
    apply Lexeme.Longest.operator
    exact ⟨fun _ => startsOutside_nil _, fun _ => startsOutside_nil _⟩
  | number n hn =>
    apply Lexeme.Longest.number n [] hn
    exact n.endsBefore_of_startsOutside (startsOutside_nil _) (startsOutside_nil _)

theorem IsLexeme.read?_eq (h : IsLexeme text kind) :
    Lexeme.read? text = some ⟨kind, text, []⟩ := by
  have hread := Lexeme.read?_append h.longest_nil
  rwa [List.append_nil] at hread

theorem IsLexeme.kind_unique (h : IsLexeme text kind) (h' : IsLexeme text kind') :
    kind = kind' := by
  have hread := h.read?_eq
  rw [h'.read?_eq] at hread
  simpa [eq_comm] using hread

/-- What the scanner looks for behind a lexeme decides that there is no longer one. -/
theorem Lexeme.Longest.isLongestLexeme {lexeme : Lexeme} (h : lexeme.Longest) :
    IsLongestLexeme (lexeme.text ++ lexeme.rest) lexeme.text lexeme.kind := by
  refine ⟨h.isLexeme, List.prefix_append _ _, ?_⟩
  intro other kind' hother hstarts
  by_contra hlonger
  -- A longer lexeme goes on into the rest, and then it is read whole and also only in part.
  obtain ⟨extra, rfl⟩ : lexeme.text <+: other :=
    List.prefix_of_prefix_length_le (List.prefix_append _ _) hstarts (by omega)
  have hextra : extra <+: lexeme.rest := (List.prefix_append_right_inj lexeme.text).mp hstarts
  have hpart := Lexeme.read?_append (h.shorten hextra)
  rw [hother.read?_eq] at hpart
  simp only [Option.some.injEq, Lexeme.mk.injEq] at hpart
  obtain ⟨-, -, rfl⟩ := hpart
  simp at hlonger

theorem isLongestLexeme_iff :
    IsLongestLexeme (text ++ rest) text kind ↔ Lexeme.Longest ⟨kind, text, rest⟩ := by
  constructor
  · intro h
    have hbegins : Lexeme.Begins (text ++ rest) := by
      cases h.isLexeme with
      | operator operator => exact .inl ⟨operator, h.starts⟩
      | number n hn => exact .inr ⟨n, hn, h.starts⟩
    have hsome := mt Lexeme.read?_eq_none_iff.mp (not_not.mpr hbegins)
    obtain ⟨lexeme, hread⟩ := Option.ne_none_iff_exists'.mp hsome
    obtain ⟨hlongest, htext⟩ := Lexeme.read?_eq_some_iff.mp hread
    -- The lexeme that is read is not longer than the given one, nor the other way round.
    have hlength : lexeme.text.length = text.length := by
      have hother := hlongest.isLongestLexeme
      rw [← htext] at hother
      apply Nat.le_antisymm
      · exact h.longest _ _ hother.isLexeme hother.starts
      · exact hother.longest _ _ h.isLexeme h.starts
    obtain ⟨rfl, rfl⟩ := List.append_inj htext hlength.symm
    rw [h.isLexeme.kind_unique hlongest.isLexeme]
    exact hlongest
  · intro h
    exact h.isLongestLexeme

theorem begins_iff : Lexeme.Begins text ↔
    ∃ lexeme kind, IsLexeme lexeme kind ∧ lexeme <+: text := by
  constructor
  · rintro (⟨operator, hstarts⟩ | ⟨n, hn, hstarts⟩)
    · exact ⟨_, _, .operator operator, hstarts⟩
    · exact ⟨_, _, .number n hn, hstarts⟩
  · rintro ⟨lexeme, kind, h, hstarts⟩
    cases h with
    | operator operator => exact .inl ⟨operator, hstarts⟩
    | number n hn => exact .inr ⟨n, hn, hstarts⟩

end Lexemes

namespace TokenStream

theorem unreadable_iff {text : List Char} : Unreadable text ↔ Stuck text := by
  unfold Unreadable Stuck
  rw [begins_iff]
  constructor
  · rintro ⟨hne, hnone⟩
    refine ⟨_, _, List.takeWhile_append_dropWhile.symm, gap_takeWhile text, hne,
      startsOutside_dropWhile isSeparator text, ?_⟩
    intro lexeme kind h hstarts
    exact hnone ⟨lexeme, kind, h, hstarts⟩
  · rintro ⟨gap, rest, rfl, hgap, hne, hout, hnone⟩
    rw [dropWhile_append_of_startsOutside hgap hout]
    refine ⟨hne, ?_⟩
    rintro ⟨lexeme, kind, h, hstarts⟩
    exact hnone lexeme kind h hstarts

section Munches

variable {text rest : List Char} {pieces : List Piece} {tokens : List Token} {offset stop : Nat}

theorem exists_reads_of_munches (h : Munches text pieces rest) (offset : Nat) :
    ∃ stop, Reads offset text (tokensFrom offset pieces) stop rest := by
  induction h generalizing offset with
  | done text => exact ⟨offset, .done offset text⟩
  | piece hgap hlexeme hrest ih =>
    obtain ⟨stop, hreads⟩ := ih _
    exact ⟨stop, .token hgap (isLongestLexeme_iff.mp hlexeme) hreads⟩

theorem exists_munches_of_reads (h : Reads offset text tokens stop rest) :
    ∃ pieces, Munches text pieces rest ∧ tokensFrom offset pieces = tokens := by
  induction h with
  | done offset text => exact ⟨[], .done text, rfl⟩
  | token hgap hlexeme hrest ih =>
    obtain ⟨pieces, hmunches, rfl⟩ := ih
    exact ⟨_, .piece hgap hlexeme.isLongestLexeme hmunches, rfl⟩

/-- A scan succeeds when only separators are left, and its tokens stand for the pieces. -/
theorem scanFrom_eq_ok_iff_munches {stream : TokenStream} : scanFrom offset text = .ok stream ↔
    ∃ pieces rest, Munches text pieces rest ∧ Gap rest ∧
      stream = ⟨tokensFrom offset pieces,
        ⟨offset + byteLength text, offset + byteLength text⟩⟩ := by
  have hsize {tokens : List Token} {stop : Nat} {rest : List Char}
      (h : Reads offset text tokens stop rest) :
      stop + byteLength rest = offset + byteLength text := by
    obtain ⟨front, rfl, rfl, -⟩ := h.exists_front
    rw [byteLength_append, Nat.add_assoc]
  obtain ⟨tokens, endSpan⟩ := stream
  rw [scanFrom_eq_ok_iff]
  constructor
  · rintro ⟨stop, rest, hreads, hgap, rfl⟩
    rw [hsize hreads]
    obtain ⟨pieces, hmunches, rfl⟩ := exists_munches_of_reads hreads
    exact ⟨pieces, rest, hmunches, hgap, rfl⟩
  · rintro ⟨pieces, rest, hmunches, hgap, hstream⟩
    obtain ⟨stop, hreads⟩ := exists_reads_of_munches hmunches offset
    rw [← hsize hreads] at hstream
    obtain ⟨rfl, rfl⟩ : tokens = _ ∧ endSpan = _ := by simpa using hstream
    exact ⟨stop, rest, hreads, hgap, rfl⟩

theorem exists_scanFrom_error_iff_munches : (∃ stop, scanFrom offset text = .error stop) ↔
    ∃ pieces rest, Munches text pieces rest ∧ Stuck rest := by
  simp only [scanFrom_eq_error_iff, unreadable_iff]
  constructor
  · rintro ⟨stop, tokens, rest, hreads, hstuck⟩
    obtain ⟨pieces, hmunches, -⟩ := exists_munches_of_reads hreads
    exact ⟨pieces, rest, hmunches, hstuck⟩
  · rintro ⟨pieces, rest, hmunches, hstuck⟩
    obtain ⟨stop, hreads⟩ := exists_reads_of_munches hmunches offset
    exact ⟨stop, _, rest, hreads, hstuck⟩

end Munches

end TokenStream

open TokenStream

/-- Tokenizing is longest match. A text is cut into tokens when separators and longest lexemes use
it up, and it is malformed when taking them off ends before anything else. Nothing else comes of it,
and no numeral is left without its value. -/
theorem tokenize_longest_match (source : String) (records : List LogRecord) :
    (∀ stream, ((tokenize source).run.run records).1 = .ok stream ↔
      ∃ pieces rest, Munches source.toList pieces rest ∧ Gap rest ∧
        stream = ⟨tokensFrom 0 pieces, ⟨byteLength source.toList, byteLength source.toList⟩⟩) ∧
    (((tokenize source).run.run records).1 = .error .malformedExpression ↔
      ∃ pieces rest, Munches source.toList pieces rest ∧ Stuck rest) ∧
    (∀ error, ((tokenize source).run.run records).1 = .error error →
      error = .malformedExpression) ∧
    ∀ n : Numeral, n.Valid → n.toDecimal?.map Decimal.toBinary64 = some n.value := by
  refine ⟨?_, ?_, ?_, ?_⟩
  · intro stream
    rw [tokenize_eq_ok_iff, scan, scanFrom_eq_ok_iff_munches]
    simp only [Nat.zero_add]
  · rw [tokenize_eq_error_iff, scan, exists_scanFrom_error_iff_munches]
    simp only [true_and]
  · intro error h
    exact (tokenize_eq_error_iff.mp h).1
  · intro n hn
    rw [Numeral.toDecimal?_eq hn]
    rfl

-- Pieces of these texts are lexemes, but a point alone is none.
example : ∀ source ∈ ["1.", ".5", "1.22.3"],
    (((tokenize source).run.run []).1 matches .error .malformedExpression) = true := by
  decide +kernel

end LineCalculator
