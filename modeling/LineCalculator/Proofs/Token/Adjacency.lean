import LineCalculator.Proofs.Expression.Grammar
import LineCalculator.Proofs.Token.LongestMatch
import Mathlib.Data.List.Chain
import Mathlib.Data.Nat.Init

namespace LineCalculator

/-- Where lexemes of these kinds touch, the first one goes on into the second. -/
inductive Fuses : TokenKind → TokenKind → Prop where
  | number_number (a b : Binary64) : Fuses (.number a) (.number b)
  | multiply_multiply : Fuses (.operator .multiply) (.operator .multiply)
  | multiply_power : Fuses (.operator .multiply) (.operator .power)
  | divide_divide : Fuses (.operator .divide) (.operator .divide)
  | divide_floorDivide : Fuses (.operator .divide) (.operator .floorDivide)

/-- The character is the symbol of the single operator, and twice it is that of the doubled one. -/
inductive Doubles : Operator → Operator → Char → Prop where
  | star : Doubles .multiply .power '*'
  | slash : Doubles .divide .floorDivide '/'

section Neighbours

variable {text text' : List Char} {kind kind' : TokenKind}

/-- A symbol that a single one does not go on into starts with another character. -/
theorem Doubles.startsOutside {single doubled operator : Operator} {c : Char}
    (h : Doubles single doubled c) (hfuse : ¬ Fuses (.operator single) (.operator operator))
    (rest : List Char) : StartsOutside (· == c) (operator.symbol.toList ++ rest) := by
  cases h with
  | star =>
    cases operator with
    | multiply => exact absurd .multiply_multiply hfuse
    | power => exact absurd .multiply_power hfuse
    | add | subtract | divide | floorDivide | modulo => simp [Operator.symbol]
  | slash =>
    cases operator with
    | divide => exact absurd .divide_divide hfuse
    | floorDivide => exact absurd .divide_floorDivide hfuse
    | add | subtract | multiply | modulo | power => simp [Operator.symbol]

theorem Numeral.startsOutside_text {n : Numeral} (hn : n.Valid) {p : Char → Bool}
    (hp : ∀ c, isDecimalDigit c = true → p c = false) (rest : List Char) :
    StartsOutside p (n.text ++ rest) := by
  obtain ⟨c, tail, htext, hc⟩ := n.exists_text_eq_cons hn
  rw [htext]
  exact startsOutside_cons.mpr (hp c hc)

/-- A lexeme ends where another one follows that it does not go on into. -/
theorem IsLexeme.longest_append (h : IsLexeme text kind) (h' : IsLexeme text' kind')
    (hfuse : ¬ Fuses kind kind') (more : List Char) :
    Lexeme.Longest ⟨kind, text, text' ++ more⟩ := by
  -- Only its own character lengthens a symbol, and only a digit or a point lengthens a numeral.
  cases h with
  | operator operator =>
    apply Lexeme.Longest.operator
    cases h' with
    | operator operator' =>
      constructor
      · rintro rfl
        exact Doubles.star.startsOutside hfuse more
      · rintro rfl
        exact Doubles.slash.startsOutside hfuse more
    | number n hn =>
      constructor
      · intro _
        exact Numeral.startsOutside_text hn
          (fun c hc => Literal.ne_of_isDecimalDigit hc (by decide)) more
      · intro _
        exact Numeral.startsOutside_text hn
          (fun c hc => Literal.ne_of_isDecimalDigit hc (by decide)) more
  | number n hn =>
    apply Lexeme.Longest.number n _ hn
    cases h' with
    | operator operator =>
      obtain ⟨hdigit, hpoint, -⟩ := operator.startsOutside_symbol more
      exact n.endsBefore_of_startsOutside hdigit hpoint
    | number n' hn' => exact absurd (.number_number _ _) hfuse

/-- A lexeme that is as long as it can be does not go on into the one after it. -/
theorem Lexeme.Longest.not_fuses {lexeme : Lexeme} (h : lexeme.Longest)
    (h' : IsLexeme text' kind') {more : List Char} (hrest : lexeme.rest = text' ++ more) :
    ¬ Fuses lexeme.kind kind' := by
  intro hfuse
  cases h with
  | operator operator rest hends =>
    obtain rfl : rest = text' ++ more := hrest
    cases h' with
    | operator operator' =>
      cases hfuse with
      | multiply_multiply | multiply_power => simpa [Operator.symbol] using hends.star rfl
      | divide_divide | divide_floorDivide => simpa [Operator.symbol] using hends.slash rfl
    | number n' hn' => cases hfuse
  | number n rest hn hends =>
    obtain rfl : rest = text' ++ more := hrest
    cases h' with
    | operator operator' => cases hfuse
    | number n' hn' =>
      obtain ⟨c, tail, htext, hc⟩ := n'.exists_text_eq_cons hn'
      have hdigit := hends.digit
      rw [htext, List.cons_append, startsOutside_cons] at hdigit
      simp [hc] at hdigit

end Neighbours

namespace Layout

variable {text last : List Char} {pieces : List Piece}

theorem gap_eq_nil (h : Layout text pieces last) (htext : ∀ c ∈ text, isSeparator c = false) :
    ∀ piece ∈ pieces, piece.gap = [] := by
  induction h with
  | done hgap => simp
  | @piece gap last lexeme pieces hgap hlexeme hrest ih =>
    obtain ⟨hfront, hlater⟩ := List.forall_mem_append.mp htext
    obtain ⟨-, hlater⟩ := List.forall_mem_append.mp hlater
    have hnil : gap = [] := by
      apply List.eq_nil_iff_forall_not_mem.mpr
      intro c hc
      have hseparator := hgap c hc
      rw [hfront c hc] at hseparator
      cases hseparator
    rw [List.forall_mem_cons]
    exact ⟨hnil, ih hlater⟩

/-- Neighbours that touch in a text do not run into one another. -/
theorem isChain_kind (h : Layout text pieces last) (hgaps : ∀ piece ∈ pieces, piece.gap = []) :
    (pieces.map Piece.kind).IsChain fun a b => ¬ Fuses a b := by
  induction h with
  | done hgap => exact .nil
  | @piece gap last lexeme pieces hgap hlexeme hrest ih =>
    obtain ⟨-, hlater⟩ := List.forall_mem_cons.mp hgaps
    apply List.isChain_cons.mpr
    refine ⟨?_, ih hlater⟩
    intro next hnext
    obtain ⟨kind, text, rest⟩ := lexeme
    cases hrest with
    | done _ => simp at hnext
    | @piece gap' _ lexeme' pieces' _ hlexeme' _ =>
      obtain rfl : lexeme'.kind = next := by simpa using hnext
      -- The next lexeme stands right behind this one, since its gap is empty.
      have hgap' : gap' = [] := hlater _ List.mem_cons_self
      apply hlexeme.not_fuses hlexeme'.isLexeme
      rw [hgap']
      rfl

end Layout

structure Spelling where
  text : List Char
  kind : TokenKind
  isLexeme : IsLexeme text kind

namespace Spelling

def piece (lexeme : Spelling) : Piece :=
  ⟨[], lexeme.kind, lexeme.text⟩

theorem map_kind_piece (lexemes : List Spelling) :
    (lexemes.map piece).map Piece.kind = lexemes.map kind := by
  rw [List.map_map]
  rfl

theorem layout_of_isChain {lexemes : List Spelling}
    (h : (lexemes.map kind).IsChain fun a b => ¬ Fuses a b) :
    Layout (lexemes.flatMap text) (lexemes.map piece) [] := by
  induction lexemes with
  | nil => exact .done gap_nil
  | cons lexeme rest ih =>
    obtain ⟨hhead, htail⟩ := List.isChain_cons.mp h
    have hlongest : Lexeme.Longest ⟨lexeme.kind, lexeme.text, rest.flatMap text⟩ := by
      cases rest with
      | nil => exact lexeme.isLexeme.longest_nil
      | cons next rest =>
        have hfuse : ¬ Fuses lexeme.kind next.kind := hhead _ (by simp)
        exact lexeme.isLexeme.longest_append next.isLexeme hfuse (rest.flatMap text)
    exact .piece gap_nil hlongest (ih htail)

theorem not_isSeparator_of_mem {lexemes : List Spelling} :
    ∀ c ∈ lexemes.flatMap text, isSeparator c = false := by
  intro c hc
  obtain ⟨lexeme, -, hc⟩ := List.mem_flatMap.mp hc
  exact lexeme.isLexeme.longest_nil.not_isSeparator c hc

end Spelling

/-- A lexeme at the very start of a text is the next token. -/
theorem TokenStream.Reads.next {offset size stop : Nat} {lexeme : Lexeme} {tokens : List Token}
    {rest : List Char} (hlexeme : lexeme.Longest)
    (hrest : Reads (offset + size) lexeme.rest tokens stop rest)
    (hsize : byteLength lexeme.text = size) :
    Reads offset (lexeme.text ++ lexeme.rest) (tokenAt offset lexeme :: tokens) stop rest := by
  subst hsize
  exact .token gap_nil hlexeme hrest

namespace Doubles

variable {single doubled : Operator} {c : Char} {rest : List Char}

theorem longest_single (h : Doubles single doubled c) (hrest : StartsOutside (· == c) rest) :
    Lexeme.Longest ⟨.operator single, [c], rest⟩ := by
  cases h with
  | star => exact .operator .multiply rest ⟨fun _ => hrest, by simp⟩
  | slash => exact .operator .divide rest ⟨by simp, fun _ => hrest⟩

theorem longest_doubled (h : Doubles single doubled c) (rest : List Char) :
    Lexeme.Longest ⟨.operator doubled, [c, c], rest⟩ := by
  cases h with
  | star => exact .operator .power rest ⟨by simp, by simp⟩
  | slash => exact .operator .floorDivide rest ⟨by simp, by simp⟩

theorem utf8Size_eq (h : Doubles single doubled c) : c.utf8Size = 1 := by
  cases h <;> decide

/-- Two characters at a time are taken off a run of stars or slashes, and the last one if it is left
alone. -/
theorem reads_replicate (h : Doubles single doubled c) (hrest : StartsOutside (· == c) rest)
    (count offset : Nat) : ∃ tokens,
      tokens.map Token.kind = List.replicate (count / 2) (.operator doubled) ++
        List.replicate (count % 2) (.operator single) ∧
      TokenStream.Reads offset (List.replicate count c ++ rest) tokens (offset + count) rest := by
  have hsize := h.utf8Size_eq
  induction count using Nat.twoStepInduction generalizing offset with
  | zero => exact ⟨[], rfl, .done offset rest⟩
  | one =>
    have hlength : byteLength [c] = 1 := by simp [hsize]
    have hreads := TokenStream.Reads.next (h.longest_single hrest) (.done (offset + 1) rest) hlength
    exact ⟨_, rfl, hreads⟩
  | more count ih _ =>
    have hlength : byteLength [c, c] = 2 := by simp [hsize]
    obtain ⟨tokens, hkinds, hreads⟩ := ih (offset + 2)
    have hmore := TokenStream.Reads.next (h.longest_doubled _) hreads hlength
    rw [Nat.add_assoc, Nat.add_comm 2 count] at hmore
    refine ⟨_, ?_, hmore⟩
    have hhalf : (count + 2) / 2 = count / 2 + 1 := by omega
    have hrest : (count + 2) % 2 = count % 2 := by omega
    rw [List.map_cons, hkinds, hhalf, hrest]
    rfl

end Doubles

open TokenStream

/-- Lexemes without separators between them are read as they were written exactly when no two
neighbours run into one another. Wherever a run of stars or slashes begins, doubled operators are
read as long as there are two characters left, and then at most one single one. -/
theorem tokenize_flatMap_iff_isChain (lexemes : List Spelling) (records : List LogRecord) :
    ((∃ stream,
        ((tokenize (String.ofList (lexemes.flatMap Spelling.text))).run.run records).1 =
          .ok stream ∧
        stream.toList.map Token.kind = lexemes.map Spelling.kind ++ [.endOfInput]) ↔
      (lexemes.map Spelling.kind).IsChain fun a b => ¬ Fuses a b) ∧
    ∀ single doubled c, Doubles single doubled c → ∀ count offset rest,
      StartsOutside (· == c) rest → ∃ tokens,
        tokens.map Token.kind = List.replicate (count / 2) (.operator doubled) ++
          List.replicate (count % 2) (.operator single) ∧
        scanFrom offset (List.replicate count c ++ rest) =
          (scanFrom (offset + count) rest).map fun stream =>
            ⟨tokens ++ stream.body, stream.endSpan⟩ := by
  refine ⟨⟨?chain, ?read⟩, ?run⟩
  case chain =>
    rintro ⟨stream, hstream, hkinds⟩
    rw [tokenize_eq_ok_iff, String.toList_ofList] at hstream
    obtain ⟨pieces, last, hlayout, rfl⟩ := exists_layout_of_scan hstream
    rw [toList, List.map_append, map_kind_tokensFrom] at hkinds
    obtain ⟨hpieces, -⟩ := List.append_inj' hkinds rfl
    have hgaps := hlayout.gap_eq_nil Spelling.not_isSeparator_of_mem
    rw [← hpieces]
    exact hlayout.isChain_kind hgaps
  case read =>
    intro hchain
    have hscan := scanFrom_of_layout (Spelling.layout_of_isChain hchain) 0
    rw [← scan, ← String.toList_ofList (l := lexemes.flatMap Spelling.text)] at hscan
    refine ⟨_, tokenize_eq_ok_iff.mpr hscan, ?_⟩
    rw [toList, List.map_append, map_kind_tokensFrom, Spelling.map_kind_piece]
    rfl
  case run =>
    intro single doubled c h count offset rest hrest
    obtain ⟨tokens, hkinds, hreads⟩ := h.reads_replicate hrest count offset
    exact ⟨tokens, hkinds, hreads.scanFrom_eq⟩

end LineCalculator
