import LineCalculator.Proofs.Text.Trimming
import LineCalculator.Proofs.Token.Scanning

/-!
The layout of a text that can be read: gaps and lexemes in turn. It knows nothing of byte positions,
so it is the same wherever the text stands, and gaps at the ends of a text only widen its outer
gaps.
-/
namespace LineCalculator

/-- A lexeme in a text, with the gap before it. -/
structure Piece where
  gap : List Char
  kind : TokenKind
  text : List Char
  deriving DecidableEq, Repr

/-- The text is made of these pieces and a last gap, and each lexeme is as long as it can be. -/
inductive Layout : List Char → List Piece → List Char → Prop where
  | done {text : List Char} (hgap : Gap text) : Layout text [] text
  | piece {gap last : List Char} {lexeme : Lexeme} {pieces : List Piece} (hgap : Gap gap)
    (hlexeme : lexeme.Longest) (hrest : Layout lexeme.rest pieces last) :
    Layout (gap ++ (lexeme.text ++ lexeme.rest)) (⟨gap, lexeme.kind, lexeme.text⟩ :: pieces) last

namespace TokenStream

def tokensFrom (offset : Nat) : List Piece → List Token
  | [] => []
  | piece :: rest =>
    let start := offset + byteLength piece.gap
    let stop := start + byteLength piece.text
    ⟨piece.kind, ⟨start, stop⟩⟩ :: tokensFrom stop rest

theorem map_kind_tokensFrom (offset : Nat) (pieces : List Piece) :
    (tokensFrom offset pieces).map Token.kind = pieces.map Piece.kind := by
  induction pieces generalizing offset with
  | nil => rfl
  | cons piece rest ih => simp [tokensFrom, ih]

section Layout

variable {text gap last : List Char} {pieces : List Piece}

theorem scanFrom_of_layout (h : Layout text pieces last) (offset : Nat) : scanFrom offset text =
    .ok ⟨tokensFrom offset pieces,
      ⟨offset + byteLength text, offset + byteLength text⟩⟩ := by
  induction h generalizing offset with
  | done hgap => exact scanFrom_gap offset hgap
  | piece hgap hlexeme hrest ih =>
    rw [scanFrom_gap_append offset hgap (Lexeme.read?_append hlexeme), ih]
    simp only [byteLength_append, ← Nat.add_assoc]
    rfl

theorem exists_layout {offset : Nat} {stream : TokenStream}
    (h : scanFrom offset text = .ok stream) : ∃ pieces last, Layout text pieces last := by
  obtain ⟨body, endSpan⟩ := stream
  induction body generalizing offset text with
  | nil => exact ⟨[], text, .done (scanFrom_eq_nil_iff.mp h).1⟩
  | cons token body ih =>
    obtain ⟨gap, lexeme, rfl, hgap, hlexeme, -, hrest⟩ := scanFrom_eq_cons_iff.mp h
    obtain ⟨pieces, last, hlayout⟩ := ih hrest
    exact ⟨_, last, .piece hgap hlexeme hlayout⟩

theorem exists_layout_of_scan {stream : TokenStream} (h : scan text = .ok stream) :
    ∃ pieces last, Layout text pieces last ∧
      stream = ⟨tokensFrom 0 pieces, ⟨byteLength text, byteLength text⟩⟩ := by
  obtain ⟨pieces, last, hlayout⟩ := exists_layout h
  have hstream := scanFrom_of_layout hlayout 0
  rw [← scan, h, Nat.zero_add] at hstream
  exact ⟨pieces, last, hlayout, Except.ok.inj hstream⟩

theorem exists_scanFrom_error_iff (offset : Nat) : (∃ stop, scanFrom offset text = .error stop) ↔
    ¬ ∃ pieces last, Layout text pieces last := by
  constructor
  · rintro ⟨stop, hstop⟩ ⟨pieces, last, hlayout⟩
    rw [scanFrom_of_layout hlayout] at hstop
    cases hstop
  · intro hnone
    cases hscan : scanFrom offset text with
    | error stop => exact ⟨stop, rfl⟩
    | ok stream => exact absurd (exists_layout hscan) hnone

end Layout

end TokenStream

namespace Layout

variable {text gap last : List Char} {pieces : List Piece}

/-- Each lexeme of a layout is read as itself where it stands alone. -/
theorem alone (h : Layout text pieces last) :
    ∀ piece ∈ pieces, Layout piece.text [⟨[], piece.kind, piece.text⟩] [] := by
  induction h with
  | done hgap => simp
  | piece hgap hlexeme hrest ih =>
    rw [List.forall_mem_cons]
    refine ⟨?_, ih⟩
    have hcut := hlexeme.shorten List.nil_prefix
    simpa using Layout.piece gap_nil hcut (.done gap_nil)

theorem scan_alone (h : Layout text pieces last) {piece : Piece} (hpiece : piece ∈ pieces) :
    TokenStream.scan piece.text = .ok ⟨[⟨piece.kind, ⟨0, byteLength piece.text⟩⟩],
      ⟨byteLength piece.text, byteLength piece.text⟩⟩ := by
  have hscan := TokenStream.scanFrom_of_layout (h.alone piece hpiece) 0
  rw [TokenStream.scan]
  simpa [TokenStream.tokensFrom] using hscan

theorem eq_nil_iff (h : Layout text pieces last) : pieces = [] ↔ Gap text := by
  cases h with
  | done hgap => simp [hgap]
  | @piece gap _ lexeme _ hgap hlexeme hrest =>
    simp only [reduceCtorEq, false_iff]
    intro hall
    have htext := (gap_append_iff.mp (gap_append_iff.mp hall).2).1
    exact hlexeme.text_ne_nil (htext.eq_nil_of_startsOutside (hlexeme.startsOutside []))

theorem gap_append (h : Layout text pieces last) (hgap : Gap gap) :
    ∃ pieces' last', Layout (gap ++ text) pieces' last' := by
  cases h with
  | done htext => exact ⟨[], _, .done (hgap.append htext)⟩
  | piece hgap' hlexeme hrest =>
    rw [← List.append_assoc]
    exact ⟨_, last, .piece (hgap.append hgap') hlexeme hrest⟩

theorem append_gap (h : Layout text pieces last) (hgap : Gap gap) :
    Layout (text ++ gap) pieces (last ++ gap) := by
  induction h with
  | done htext => exact .done (htext.append hgap)
  | piece hgap' hlexeme hrest ih =>
    have hwide := Layout.piece hgap' (hlexeme.append hgap.startsSeparated) ih
    simpa using hwide

/-- A gap in front of a text belongs to the first gap of its layout. -/
theorem of_gap_append (h : Layout (gap ++ text) pieces last) (hgap : Gap gap) :
    ∃ pieces' last', Layout text pieces' last' := by
  generalize hwhole : gap ++ text = whole at h
  cases h with
  | done htext =>
    rw [← hwhole] at htext
    exact ⟨[], text, .done (gap_append_iff.mp htext).2⟩
  | @piece gap' _ lexeme _ hgap' hlexeme hrest =>
    rcases List.append_eq_append_iff.mp hwhole with ⟨inner, rfl, rfl⟩ | ⟨inner, rfl, hinner⟩
    · exact ⟨_, last, .piece (gap_append_iff.mp hgap').2 hlexeme hrest⟩
    -- The lexeme starts with no separator, so none of the gap is left for it.
    · obtain rfl : inner = [] := by
        apply (gap_append_iff.mp hgap).2.eq_nil_of_startsOutside
        rw [← hinner]
        exact hlexeme.startsOutside lexeme.rest
      rw [List.nil_append] at hinner
      rw [← hinner]
      exact ⟨_, last, .piece gap_nil hlexeme hrest⟩

/-- A gap after a text belongs to the last gap of its layout. -/
theorem of_append_gap (h : Layout (text ++ gap) pieces last) (hgap : Gap gap) :
    ∃ pieces' last', Layout text pieces' last' := by
  generalize hwhole : text ++ gap = whole at h
  induction h generalizing text with
  | done htext =>
    rw [← hwhole] at htext
    exact ⟨[], text, .done (gap_append_iff.mp htext).1⟩
  | @piece gap' _ lexeme _ hgap' hlexeme hrest ih =>
    rw [← List.append_assoc] at hwhole
    rcases List.append_eq_append_iff.mp hwhole with ⟨inner, hinner, rfl⟩ | ⟨inner, rfl, hinner⟩
    -- The lexeme ends with no separator, so none of the gap is part of it.
    · obtain rfl : inner = [] := by
        rw [← List.reverse_eq_nil_iff]
        apply (gap_append_iff.mp hgap).1.reverse.eq_nil_of_startsOutside
        rw [← List.reverse_append, ← hinner]
        exact hlexeme.startsOutside_reverse gap'
      rw [List.append_nil] at hinner
      rw [← hinner]
      have hcut := Layout.piece hgap' (hlexeme.shorten List.nil_prefix) (.done gap_nil)
      exact ⟨_, [], by simpa using hcut⟩
    · obtain ⟨pieces', last', hlayout⟩ := ih hinner.symm
      have hshort := hlexeme.shorten (hinner ▸ List.prefix_append inner gap)
      have hpiece := Layout.piece hgap' hshort hlayout
      exact ⟨_, last', by simpa using hpiece⟩

theorem exists_trimSeparators_iff :
    (∃ pieces last, Layout (trimSeparators text) pieces last) ↔
      ∃ pieces last, Layout text pieces last := by
  obtain ⟨before, after, htext, hbefore, hafter⟩ := exists_trimSeparators text
  constructor
  · rintro ⟨pieces, last, h⟩
    rw [htext]
    exact (h.append_gap hafter).gap_append hbefore
  · rintro ⟨pieces, last, h⟩
    rw [htext] at h
    obtain ⟨pieces', last', hinner⟩ := h.of_gap_append hbefore
    exact hinner.of_append_gap hafter

end Layout

/-- The separators at the ends of a text do not decide whether its scan fails. -/
theorem TokenStream.exists_scan_trimSeparators_error_iff {text : List Char} :
    (∃ stop, scan (trimSeparators text) = .error stop) ↔ ∃ stop, scan text = .error stop := by
  simp only [scan, exists_scanFrom_error_iff, Layout.exists_trimSeparators_iff]

end LineCalculator
