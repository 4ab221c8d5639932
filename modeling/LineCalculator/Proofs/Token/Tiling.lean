import LineCalculator.Proofs.Expression.Evaluation
import LineCalculator.Proofs.Token.Cursor
import LineCalculator.Proofs.Token.Layout

namespace LineCalculator

/-- In a text that starts at byte `offset`, the span is where this part of it stands. -/
def Span.Covers (span : Span) (offset : Nat) (text part : List Char) : Prop :=
  ∃ before after, text = before ++ (part ++ after) ∧
    span = ⟨offset + byteLength before, offset + byteLength before + byteLength part⟩

section Covers

variable {span : Span} {offset : Nat} {text front part : List Char}

/-- A part stands at the same bytes when another text is put in front. -/
theorem Span.Covers.append (h : span.Covers (offset + byteLength front) text part) :
    span.Covers offset (front ++ text) part := by
  obtain ⟨before, after, rfl, rfl⟩ := h
  refine ⟨front ++ before, after, by simp, ?_⟩
  rw [byteLength_append, ← Nat.add_assoc]

theorem Span.Covers.slice (h : span.Covers 0 text part) :
    sliceBytes? text span.start span.stop = some part := by
  obtain ⟨before, after, rfl, rfl⟩ := h
  rw [Nat.zero_add, ← List.append_assoc, sliceBytes?_append]

theorem Span.Covers.bounds (h : span.Covers offset text part) :
    offset ≤ span.start ∧ span.stop = span.start + byteLength part ∧
      span.stop ≤ offset + byteLength text := by
  obtain ⟨before, after, rfl, rfl⟩ := h
  refine ⟨Nat.le_add_right _ _, rfl, ?_⟩
  simp only [byteLength_append]
  omega

end Covers

namespace TokenStream

/-- The spans before the tokens: the first one from byte `cursor` on, each other one from where the
token before it stops. -/
def gapSpans (cursor : Nat) : List Token → List Span
  | [] => []
  | token :: rest => ⟨cursor, token.span.start⟩ :: gapSpans token.span.stop rest

/-- The tokens of the stream tile the source. -/
structure Tiles (source : List Char) (stream : TokenStream) : Prop where
  ordered : stream.toList.Pairwise fun a b =>
    a.span.start < b.span.start ∧ a.span.stop ≤ b.span.start
  tokens : ∀ token ∈ stream.body, token.kind ≠ .endOfInput ∧ token.span.start < token.span.stop ∧
    ∃ text, sliceBytes? source token.span.start token.span.stop = some text ∧
      ∀ c ∈ text, isSeparator c = false
  gaps : ∀ span ∈ gapSpans 0 stream.toList,
    ∃ gap, sliceBytes? source span.start span.stop = some gap ∧ Gap gap
  last : stream.endSpan = ⟨byteLength source, byteLength source⟩
  count : stream.toList.length ≤ byteLength source + 1

section Layout

variable {text last : List Char} {pieces : List Piece} {offset : Nat}

/-- Every token covers a lexeme of the text. -/
theorem exists_covers_of_mem (h : Layout text pieces last) {token : Token}
    (htoken : token ∈ tokensFrom offset pieces) : ∃ lexeme : Lexeme, lexeme.Longest ∧
      token.kind = lexeme.kind ∧ token.span.Covers offset text lexeme.text := by
  induction h generalizing offset with
  | done hgap => simp [tokensFrom] at htoken
  | @piece gap last lexeme pieces hgap hlexeme hrest ih =>
    rcases List.mem_cons.mp htoken with rfl | htoken
    · exact ⟨lexeme, hlexeme, rfl, gap, lexeme.rest, rfl, rfl⟩
    · obtain ⟨lexeme', hlongest, hkind, hcovers⟩ := ih htoken
      exact ⟨lexeme', hlongest, hkind, hcovers.append.append⟩

theorem pairwise_tokensFrom (h : Layout text pieces last) :
    (tokensFrom offset pieces).Pairwise fun a b =>
      a.span.start < b.span.start ∧ a.span.stop ≤ b.span.start := by
  induction h generalizing offset with
  | done hgap => exact List.Pairwise.nil
  | @piece gap last lexeme pieces hgap hlexeme hrest ih =>
    apply List.Pairwise.cons _ ih
    intro b hb
    obtain ⟨lexeme', -, -, hcovers⟩ := exists_covers_of_mem hrest hb
    have hbounds := hcovers.bounds
    have hpos := byteLength_pos hlexeme.text_ne_nil
    dsimp only at hbounds ⊢
    omega

/-- Between the tokens there are gaps, and a last one before the end of input. -/
theorem exists_covers_of_mem_gapSpans (h : Layout text pieces last) {span : Span}
    (hspan : span ∈ gapSpans offset (tokensFrom offset pieces ++
      [⟨.endOfInput, ⟨offset + byteLength text, offset + byteLength text⟩⟩])) :
    ∃ gap, Gap gap ∧ span.Covers offset text gap := by
  induction h generalizing offset with
  | @done text hgap =>
    obtain rfl : span = _ := by simpa [tokensFrom, gapSpans] using hspan
    exact ⟨text, hgap, [], [], by simp, by simp⟩
  | @piece gap last lexeme pieces hgap hlexeme hrest ih =>
    rcases List.mem_cons.mp hspan with rfl | hspan
    · exact ⟨gap, hgap, [], lexeme.text ++ lexeme.rest, rfl, rfl⟩
    · simp only [byteLength_append, ← Nat.add_assoc] at hspan
      obtain ⟨gap', hgap', hcovers⟩ := ih hspan
      exact ⟨gap', hgap', hcovers.append.append⟩

theorem length_tokensFrom_le (h : Layout text pieces last) :
    (tokensFrom offset pieces).length ≤ byteLength text := by
  induction h generalizing offset with
  | done hgap => exact Nat.zero_le _
  | @piece gap last lexeme pieces hgap hlexeme hrest ih =>
    have hpos := byteLength_pos hlexeme.text_ne_nil
    have hle := @ih (offset + byteLength gap + byteLength lexeme.text)
    simp only [tokensFrom, List.length_cons, byteLength_append]
    omega

end Layout

theorem tiles_of_scan {source : List Char} {stream : TokenStream} (h : scan source = .ok stream) :
    Tiles source stream := by
  obtain ⟨pieces, last, hlayout, rfl⟩ := exists_layout_of_scan h
  refine ⟨?_, ?_, ?_, rfl, ?_⟩
  · apply List.pairwise_append.mpr
    refine ⟨pairwise_tokensFrom hlayout, List.pairwise_singleton _ _, ?_⟩
    intro token htoken eof heof
    obtain rfl := List.mem_singleton.mp heof
    obtain ⟨lexeme, hlexeme, -, hcovers⟩ := exists_covers_of_mem hlayout htoken
    have hbounds := hcovers.bounds
    have hpos := byteLength_pos hlexeme.text_ne_nil
    dsimp only
    omega
  · intro token htoken
    obtain ⟨lexeme, hlexeme, hkind, hcovers⟩ := exists_covers_of_mem hlayout htoken
    have hbounds := hcovers.bounds
    have hpos := byteLength_pos hlexeme.text_ne_nil
    refine ⟨?_, by omega, lexeme.text, hcovers.slice, hlexeme.not_isSeparator⟩
    rw [hkind]
    cases hlexeme <;> simp
  · intro span hspan
    rw [← Nat.zero_add (byteLength source)] at hspan
    obtain ⟨gap, hgap, hcovers⟩ := exists_covers_of_mem_gapSpans hlayout hspan
    exact ⟨gap, hcovers.slice, hgap⟩
  · have hle := @length_tokensFrom_le _ _ _ 0 hlayout
    rw [toList, List.length_append, List.length_singleton]
    exact Nat.add_le_add_right hle 1

end TokenStream

open TokenStream

/-- Tokenizing never cuts the source wrongly nor misses its end, and the tokens that it gives tile
the source. -/
theorem tokenize_tiles (source : String) (records : List LogRecord) :
    scanAt? source.toList 0 = some (scan source.toList) ∧
    ∀ stream, ((tokenize source).run.run records).1 = .ok stream →
      Tiles source.toList stream := by
  refine ⟨scanAt?_zero source.toList, ?_⟩
  intro stream h
  exact tiles_of_scan (tokenize_eq_ok_iff.mp h)

end LineCalculator
