import LineCalculator.Proofs.Expression.Grammar
import LineCalculator.Proofs.Expression.TouchingTokens
import LineCalculator.Proofs.Text.Respelling
import LineCalculator.Proofs.Token.LongestMatch

/-!
Scanning respelled texts. Their layouts are alike: the same lexemes in the same order, with a gap
wherever the other text has one. So their tokens are of the same kinds and touch at the same places,
although none of them need be at the same byte.
-/
namespace LineCalculator

structure Numeral.SameDigits (n n' : Numeral) : Prop where
  whole : List.Forall₂ SameCharacter n.whole n'.whole
  fraction : List.Forall₂ SameCharacter n.fraction n'.fraction

namespace Numeral

variable {n n' : Numeral} {rest rest' b : List Char}

/-- A numeral is respelled as a numeral. -/
theorem exists_of_respelled (hn : n.Valid) (h : Respelled (n.text ++ rest) b) :
    ∃ (n' : Numeral) (rest' : List Char),
      b = n'.text ++ rest' ∧ n.SameDigits n' ∧ Respelled rest rest' := by
  have hwhole : ∀ c ∈ n.whole, isSeparator c = false :=
    fun c hc => not_isSeparator_of_isDecimalDigit (hn.whole_digits c hc)
  have hfraction : ∀ c ∈ n.fraction, isSeparator c = false :=
    fun c hc => not_isSeparator_of_isDecimalDigit (hn.fraction_digits c hc)
  by_cases hnil : n.fraction = []
  · rw [text_of_fraction_eq_nil hnil] at h
    obtain ⟨whole', rest', rfl, hsame, hrest⟩ := h.append_inv hwhole
    have hsame' : List.Forall₂ SameCharacter n.fraction [] := by
      rw [hnil]
      exact .nil
    exact ⟨⟨whole', []⟩, rest', rfl, ⟨hsame, hsame'⟩, hrest⟩
  -- The point is no digit, so it stands between the two parts in both texts.
  · rw [text_of_fraction_ne_nil hnil, List.append_assoc] at h
    obtain ⟨whole', b', rfl, hsame, hpoint⟩ := h.append_inv hwhole
    obtain ⟨d, b'', rfl, hd, htail⟩ := hpoint.cons_inv (by decide)
    obtain rfl := hd.eq_of_not_isDecimalDigit not_isDecimalDigit_point
    obtain ⟨fraction', rest', rfl, hsame', hrest⟩ := htail.append_inv hfraction
    have hne : fraction' ≠ [] := by
      rintro rfl
      exact hnil (List.forall₂_nil_right_iff.mp hsame')
    refine ⟨⟨whole', fraction'⟩, rest', ?_, ⟨hsame, hsame'⟩, hrest⟩
    rw [text_of_fraction_ne_nil hne]
    simp

namespace SameDigits

theorem valid (h : n.SameDigits n') (hn : n.Valid) : n'.Valid := by
  obtain ⟨hwhole, -⟩ := SameCharacter.forall₂_digits h.whole hn.whole_digits
  obtain ⟨hfraction, -⟩ := SameCharacter.forall₂_digits h.fraction hn.fraction_digits
  refine ⟨?_, hwhole, hfraction⟩
  intro hnil
  have hsame := h.whole
  rw [hnil, List.forall₂_nil_right_iff] at hsame
  exact hn.whole_ne_nil hsame

theorem value_eq (h : n.SameDigits n') (hn : n.Valid) : n'.value = n.value := by
  obtain ⟨-, hwhole⟩ := SameCharacter.forall₂_digits h.whole hn.whole_digits
  obtain ⟨-, hfraction⟩ := SameCharacter.forall₂_digits h.fraction hn.fraction_digits
  rw [value, value, toDecimal, toDecimal, List.map_append, List.map_append, hwhole, hfraction,
    h.fraction.length_eq]

end SameDigits

end Numeral

section Ends

variable {n n' : Numeral} {rest rest' : List Char}

theorem Respelled.startsOutside_digit (h : Respelled rest rest')
    (hrest : StartsOutside isDecimalDigit rest) : StartsOutside isDecimalDigit rest' := by
  apply h.startsOutside _ _ hrest
  · exact fun c d hchar => hchar.isDecimalDigit_eq
  · exact fun c hc => not_isDecimalDigit_of_isSeparator hc

theorem Respelled.startsOutside_beq {c : Char} (h : Respelled rest rest') (hc : c.toNat < 0x30)
    (hseparator : isSeparator c = false) (hrest : StartsOutside (· == c) rest) :
    StartsOutside (· == c) rest' := by
  apply h.startsOutside _ (not_beq_of_isSeparator hseparator) hrest
  intro d e hchar
  apply hchar.class_eq (p := (· == c))
  exact fun d hd => Literal.ne_of_isDecimalDigit hd hc

theorem Numeral.EndsBefore.respell (h : n.EndsBefore rest) (hrest : Respelled rest rest')
    (hsame : n.SameDigits n') : n'.EndsBefore rest' := by
  refine ⟨hrest.startsOutside_digit h.digit, ?_⟩
  intro hnil tail' htail'
  -- A point in front of the second rest stands in front of the first one, too.
  rw [htail'] at hrest
  obtain ⟨d, tail, rfl, hd, htail⟩ := hrest.symm.cons_inv (by decide)
  obtain rfl := hd.eq_of_not_isDecimalDigit Numeral.not_isDecimalDigit_point
  have hfraction := hsame.fraction
  rw [hnil, List.forall₂_nil_right_iff] at hfraction
  exact htail.symm.startsOutside_digit (h.point hfraction tail rfl)

theorem Operator.EndsBefore.respell {operator : Operator} (h : operator.EndsBefore rest)
    (hrest : Respelled rest rest') : operator.EndsBefore rest' := by
  constructor
  · intro hmultiply
    exact hrest.startsOutside_beq (by decide) (by decide) (h.star hmultiply)
  · intro hdivide
    exact hrest.startsOutside_beq (by decide) (by decide) (h.slash hdivide)

end Ends

/-- A lexeme is respelled as one of the same kind that is as long as it can be. -/
theorem Lexeme.Longest.respell {lexeme : Lexeme} {b : List Char} (h : lexeme.Longest)
    (hb : Respelled (lexeme.text ++ lexeme.rest) b) : ∃ lexeme' : Lexeme, lexeme'.Longest ∧
      b = lexeme'.text ++ lexeme'.rest ∧ lexeme'.kind = lexeme.kind ∧
        Respelled lexeme.rest lexeme'.rest := by
  cases h with
  | operator operator rest hends =>
    have hsymbol : ∀ c ∈ operator.symbol.toList,
        isSeparator c = false ∧ isDecimalDigit c = false := by
      cases operator <;> exact List.all_iff_forall_prop.mp (by decide)
    obtain ⟨text', rest', rfl, hsame, hrest⟩ := hb.append_inv fun c hc => (hsymbol c hc).1
    obtain rfl := SameCharacter.forall₂_eq hsame fun c hc => (hsymbol c hc).2
    exact ⟨_, .operator operator rest' (hends.respell hrest), rfl, rfl, hrest⟩
  | number n rest hn hends =>
    obtain ⟨n', rest', rfl, hsame, hrest⟩ := Numeral.exists_of_respelled hn hb
    refine ⟨_, .number n' rest' (hsame.valid hn) (hends.respell hrest hsame), rfl, ?_, hrest⟩
    rw [hsame.value_eq hn]

def Piece.outline (piece : Piece) : TokenKind × Bool :=
  (piece.kind, piece.gap.isEmpty)

theorem Layout.respell {a b last : List Char} {pieces : List Piece} (h : Layout a pieces last)
    (hb : Respelled a b) : ∃ pieces' last', Layout b pieces' last' ∧
      pieces'.map Piece.outline = pieces.map Piece.outline ∧ last'.isEmpty = last.isEmpty := by
  have isEmpty_eq {gap gap' : List Char} (hnil : gap = [] ↔ gap' = []) :
      gap'.isEmpty = gap.isEmpty := by
    rw [Bool.eq_iff_iff, List.isEmpty_iff, List.isEmpty_iff, hnil]
  -- The induction is on the layout of the first text, whose gaps and lexemes end where those of the
  -- second one do.
  induction h generalizing b with
  | done hgap =>
    obtain ⟨hgap', hnil⟩ := hb.gap_inv hgap
    exact ⟨[], b, .done hgap', rfl, isEmpty_eq hnil⟩
  | @piece gap last lexeme pieces hgap hlexeme hrest ih =>
    obtain ⟨gap', b', rfl, hgap', hnil, hmore⟩ :=
      hb.gap_append_inv hgap (hlexeme.startsOutside lexeme.rest)
    obtain ⟨lexeme', hlexeme', rfl, hkind, hmore'⟩ := hlexeme.respell hmore
    obtain ⟨pieces', last', hlayout, houtline, hlast⟩ := ih hmore'
    refine ⟨_, last', .piece hgap' hlexeme' hlayout, ?_, hlast⟩
    rw [List.map_cons, List.map_cons, houtline, Piece.outline, Piece.outline, hkind,
      isEmpty_eq hnil]

theorem decide_eq_add_byteLength (offset : Nat) (text : List Char) :
    decide (offset = offset + byteLength text) = text.isEmpty := by
  cases text with
  | nil => simp
  | cons c rest =>
    have hpos := byteLength_pos (List.cons_ne_nil c rest)
    simp only [List.isEmpty_cons, decide_eq_false_iff_not]
    omega

namespace TokenStream

variable {a b last : List Char} {pieces : List Piece}

/-- Tokens touch where the gap between them is empty. -/
theorem touches_tokensFrom (h : Layout a pieces last) (token : Token) :
    touches (token :: (tokensFrom token.span.stop pieces ++
        [⟨.endOfInput, ⟨token.span.stop + byteLength a, token.span.stop + byteLength a⟩⟩])) =
      (pieces.map fun piece => piece.gap.isEmpty) ++ [last.isEmpty] := by
  induction h generalizing token with
  | done hgap =>
    simp only [tokensFrom, List.nil_append, touches, decide_eq_add_byteLength, List.map_nil]
  | @piece gap last lexeme pieces hgap hlexeme hrest ih =>
    have hnext := ih (tokenAt (token.span.stop + byteLength gap) lexeme)
    simp only [tokenAt] at hnext
    simp only [tokensFrom, List.cons_append, touches, decide_eq_add_byteLength, byteLength_append,
      List.map_cons, ← Nat.add_assoc, hnext]

theorem map_kind_toList (pieces : List Piece) (endSpan : Span) :
    (toList ⟨tokensFrom 0 pieces, endSpan⟩).map Token.kind =
      (pieces.map Piece.outline).map Prod.fst ++ [.endOfInput] := by
  rw [toList, List.map_append, map_kind_tokensFrom, List.map_map]
  rfl

theorem touches_toList (h : Layout a pieces last) :
    touches (toList ⟨tokensFrom 0 pieces, ⟨byteLength a, byteLength a⟩⟩) =
      ((pieces.map Piece.outline).map Prod.snd ++ [last.isEmpty]).tail := by
  -- A token of no bytes is put in front, so that every token has one before it.
  have htouches := touches_tokensFrom h ⟨.endOfInput, ⟨0, 0⟩⟩
  simp only [Nat.zero_add] at htouches
  rw [toList, List.map_map, ← tail_touches ⟨.endOfInput, ⟨0, 0⟩⟩, htouches]
  rfl

/-- A respelled text has the same tokens, further to the left or to the right. -/
theorem exists_scan_of_respelled {left : TokenStream} (h : Respelled a b)
    (hleft : scan a = .ok left) :
    ∃ right, scan b = .ok right ∧ SameTokens left.toList right.toList := by
  obtain ⟨pieces, last, hlayout, rfl⟩ := exists_layout_of_scan hleft
  obtain ⟨pieces', last', hlayout', houtline, hlast⟩ := hlayout.respell h
  have hright := scanFrom_of_layout hlayout' 0
  rw [← scan, Nat.zero_add] at hright
  refine ⟨_, hright, ?_, ?_⟩
  · rw [map_kind_toList, map_kind_toList, houtline]
  · rw [touches_toList hlayout, touches_toList hlayout', houtline, hlast]

theorem exists_scan_respelled_iff (h : Respelled a b) :
    (∃ left, scan a = .ok left) ↔ ∃ right, scan b = .ok right := by
  constructor
  · intro hscan
    obtain ⟨left, hleft⟩ := hscan
    obtain ⟨right, hright, -⟩ := exists_scan_of_respelled h hleft
    exact ⟨right, hright⟩
  · intro hscan
    obtain ⟨right, hright⟩ := hscan
    obtain ⟨left, hleft, -⟩ := exists_scan_of_respelled h.symm hright
    exact ⟨left, hleft⟩

end TokenStream

end LineCalculator
