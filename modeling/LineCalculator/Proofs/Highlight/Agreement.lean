import LineCalculator.Proofs.Expression.Retyping
import LineCalculator.Proofs.Highlight.Parts
import LineCalculator.Proofs.Session.Answers

namespace LineCalculator

def colours (line : String) : List String :=
  (Highlight.parts line).map fun part => part.role.colour

def textsIn (colour : String) (line : String) : List String :=
  ((Highlight.parts line).filter fun part => part.role.colour == colour).map Part.text

/-- The text alone is scanned into one token, a number of this value. -/
def IsNumberText (text : String) (value : Binary64) : Prop :=
  let size := byteLength text.toList
  TokenStream.scan text.toList = .ok ⟨[⟨.number value, ⟨0, size⟩⟩], ⟨size, size⟩⟩

section Operands

theorem Expression.IsOperand.exists_kinds {front : List Token} {value : Binary64}
    (h : IsOperand front value) : ∃ sign n, front.map Token.kind = sign ++ [.number n] ∧
      (sign = [] ∨ sign = [.operator .subtract]) ∧ n.abs = value.abs := by
  cases h with
  | number value digits => exact ⟨[], value, rfl, .inl rfl, rfl⟩
  | signed value sign digits htouch =>
    refine ⟨[.operator .subtract], value, rfl, .inr rfl, ?_⟩
    cases value <;> rfl

/-- A line that stands for an expression is laid out as two numbers and one to three operators. -/
theorem exists_layout_of_denotes {line : String} {e : Expression} (h : Denotes line e) :
    ∃ pieces last a b, Layout line.toList pieces last ∧
      (pieces.map Piece.kind).filter (fun kind => Highlight.roleOf kind == .number) =
        [.number a, .number b] ∧
      a.abs = e.left.abs ∧ b.abs = e.right.abs ∧
      1 ≤ (pieces.filter fun piece => Highlight.roleOf piece.kind == .operator).length ∧
      (pieces.filter fun piece => Highlight.roleOf piece.kind == .operator).length ≤ 3 := by
  obtain ⟨stream, hscan, hparse⟩ := h
  obtain ⟨left, span, right, hleft, hright, hbody⟩ := Expression.parse_eq_ok_iff.mp hparse
  obtain ⟨pieces, last, hlayout, hstream⟩ := TokenStream.exists_layout_of_scan hscan
  obtain ⟨sign, a, hkinds, hsign, ha⟩ := hleft.exists_kinds
  obtain ⟨sign', b, hkinds', hsign', hb⟩ := hright.exists_kinds
  have htokens : stream.body = TokenStream.tokensFrom 0 pieces := congrArg TokenStream.body hstream
  -- The parser has found the kinds of the tokens, and these are the kinds of the pieces.
  have hpieces : pieces.map Piece.kind =
      sign ++ [.number a] ++ .operator e.operator :: (sign' ++ [.number b]) := by
    rw [← TokenStream.map_kind_tokensFrom 0, ← htokens, hbody, List.map_append, List.map_cons,
      hkinds, hkinds']
  have hoperators : (pieces.filter fun piece => Highlight.roleOf piece.kind == .operator).length =
      ((pieces.map Piece.kind).filter fun kind => Highlight.roleOf kind == .operator).length := by
    rw [List.filter_map, List.length_map]
    rfl
  refine ⟨pieces, last, a, b, hlayout, ?_, ha, hb, ?_⟩
  · rw [hpieces]
    rcases hsign with rfl | rfl <;> rcases hsign' with rfl | rfl <;> rfl
  · rw [hoperators, hpieces]
    rcases hsign with rfl | rfl <;> rcases hsign' with rfl | rfl <;>
      exact ⟨by simp [Highlight.roleOf], by simp [Highlight.roleOf]⟩

end Operands

section Numbers

variable {text last : List Char} {pieces : List Piece}

theorem Numeral.abs_value (n : Numeral) : n.value.abs = n.value := by
  rw [Numeral.value, Decimal.toBinary64, Binary64.ofRank]
  split <;> rfl

theorem Layout.abs_number (h : Layout text pieces last) :
    ∀ piece ∈ pieces, ∀ value, piece.kind = .number value → value.abs = value := by
  induction h with
  | done hgap => simp
  | piece hgap hlexeme hrest ih =>
    refine List.forall_mem_cons.mpr ⟨?_, ih⟩
    intro value hkind
    cases hlexeme with
    | operator operator rest hends => cases hkind
    -- A minus is a lexeme of its own, so no number of a text is negative.
    | number n rest hn hends =>
      obtain rfl : n.value = value := TokenKind.number.inj hkind
      exact n.abs_value

theorem Layout.isNumberText (h : Layout text pieces last) {piece : Piece} (hpiece : piece ∈ pieces)
    {n value : Binary64} (hkind : piece.kind = .number n) (habs : n.abs = value) :
    IsNumberText (String.ofList piece.text) value := by
  rw [IsNumberText, String.toList_ofList, h.scan_alone hpiece, hkind, ← habs,
    h.abs_number piece hpiece n hkind]

end Numbers

section Colours

variable {line : String}

theorem textsIn_colour (role : Role) (line : String) : textsIn role.colour line =
    ((Highlight.parts line).filter fun part => part.role == role).map Part.text := by
  have hcolour (part : Part) : (part.role.colour == role.colour) = (part.role == role) := by
    rw [Bool.eq_iff_iff, beq_iff_eq, beq_iff_eq, Role.colour_injective.eq_iff]
  simp only [textsIn, hcolour]

section Readable

variable {pieces : List Piece} {last : List Char} {role : Role}

theorem textsIn_of_parts (role : Role)
    (hparts : Highlight.parts line = pieces.flatMap Piece.parts ++ gapPart last)
    (hrole : (Role.gap == role) = false) : textsIn role.colour line =
      (pieces.filter fun piece => Highlight.roleOf piece.kind == role).map
        fun piece => String.ofList piece.text := by
  rw [textsIn_colour, hparts, Highlight.filter_parts (· == role) hrole, List.map_map]
  rfl

/-- Nothing of a readable line is shown as a command or as invalid. -/
theorem textsIn_eq_nil_of_layout (hlayout : Layout line.toList pieces last)
    (hparts : Highlight.parts line = pieces.flatMap Piece.parts ++ gapPart last)
    (hrole : role = .command ∨ role = .invalid) : textsIn role.colour line = [] := by
  rw [textsIn_colour, hparts, Highlight.filter_parts_eq_nil hlayout hrole, List.map_nil]

theorem colours_ne_of_layout (hlayout : Layout line.toList pieces last)
    (hparts : Highlight.parts line = pieces.flatMap Piece.parts ++ gapPart last)
    (hrole : role = .command ∨ role = .invalid) : colours line ≠ [role.colour] := by
  intro h
  obtain ⟨part, hpart, hcolour⟩ := List.map_eq_singleton_iff.mp h
  have hnil := textsIn_eq_nil_of_layout hlayout hparts hrole
  rw [textsIn, hpart] at hnil
  simp [hcolour] at hnil

end Readable

theorem colours_command_iff : colours line = ["LightBlue"] ↔
    Command.ofText? (trimSeparators line.toList) ≠ none := by
  rcases parts_cases line with ⟨hcommand, hparts⟩ | ⟨hcommand, -, hparts⟩ |
    ⟨hcommand, pieces, last, hlayout, hparts⟩
  · simp [hcommand, colours, hparts, Role.colour]
  · simp [hcommand, colours, hparts, Role.colour]
  · have hne : colours line ≠ ["LightBlue"] := colours_ne_of_layout hlayout hparts (.inl rfl)
    simp [hcommand, hne]

theorem colours_invalid_iff : colours line = ["Red"] ↔
    Command.ofText? (trimSeparators line.toList) = none ∧
      ∃ offset, TokenStream.scan line.toList = .error offset := by
  rcases parts_cases line with ⟨hcommand, hparts⟩ | ⟨hcommand, hscan, hparts⟩ |
    ⟨hcommand, pieces, last, hlayout, hparts⟩
  · simp [hcommand, colours, hparts, Role.colour]
  · simp [hcommand, hscan, colours, hparts, Role.colour]
  · have hne : colours line ≠ ["Red"] := colours_ne_of_layout hlayout hparts (.inr rfl)
    have hscan := TokenStream.scanFrom_of_layout hlayout 0
    simp [hne, TokenStream.scan, hscan]

theorem colours_white_iff : (∀ colour ∈ colours line, colour = "White") ↔ Gap line.toList := by
  have hwhite : (∀ colour ∈ colours line, colour = "White") ↔
      ∀ part ∈ Highlight.parts line, part.role = .gap := by
    simp only [colours, List.forall_mem_map, Role.colour_gap_iff]
  rw [hwhite]
  rcases parts_cases line with ⟨hcommand, hparts⟩ | ⟨-, ⟨offset, hscan⟩, hparts⟩ |
    ⟨-, pieces, last, hlayout, hparts⟩
  · have hgap : ¬ Gap line.toList := by
      intro hgap
      rw [trimSeparators_eq_nil_iff.mpr hgap] at hcommand
      exact hcommand (by decide)
    simp [hparts, hgap]
  · have hgap : ¬ Gap line.toList := by
      intro hgap
      rw [TokenStream.scan, TokenStream.scanFrom_gap 0 hgap] at hscan
      cases hscan
    simp [hparts, hgap]
  · rw [hparts, Highlight.forall_gap_iff hlayout, hlayout.eq_nil_iff]

/-- An expression is shown by its two literals and by the signs and the operator around them. -/
theorem textsIn_of_denotes {e : Expression}
    (hcommand : Command.ofText? (trimSeparators line.toList) = none) (h : Denotes line e) :
    ∃ l r, textsIn "LightBlue" line = [] ∧ textsIn "Red" line = [] ∧
      textsIn "Yellow" line = [l, r] ∧ IsNumberText l e.left.abs ∧ IsNumberText r e.right.abs ∧
      1 ≤ (textsIn "DarkGray" line).length ∧ (textsIn "DarkGray" line).length ≤ 3 := by
  obtain ⟨pieces, last, a, b, hlayout, hnumbers, ha, hb, hleast, hmost⟩ :=
    exists_layout_of_denotes h
  have hparts := Highlight.parts_of_layout hcommand hlayout
  -- Filtering the kinds is filtering the pieces, so two pieces are behind the two numbers.
  rw [List.filter_map] at hnumbers
  obtain ⟨p, tail, hp, hpkind, htail⟩ := List.map_eq_cons_iff.mp hnumbers
  obtain ⟨q, hq, hqkind⟩ := List.map_eq_singleton_iff.mp htail
  have hpair : pieces.filter (fun piece => Highlight.roleOf piece.kind == .number) = [p, q] := by
    rw [← hq]
    exact hp
  have hmem : ∀ piece ∈ [p, q], piece ∈ pieces := by
    rw [← hpair]
    exact fun piece hpiece => (List.mem_filter.mp hpiece).1
  have hblue := textsIn_eq_nil_of_layout hlayout hparts (show Role.command = _ ∨ _ from .inl rfl)
  have hred := textsIn_eq_nil_of_layout hlayout hparts (show Role.invalid = _ ∨ _ from .inr rfl)
  refine ⟨String.ofList p.text, String.ofList q.text, hblue, hred, ?_, ?_, ?_, ?_⟩
  · have hyellow := textsIn_of_parts .number hparts rfl
    rw [hpair] at hyellow
    exact hyellow
  · exact hlayout.isNumberText (hmem p (by simp)) hpkind ha
  · exact hlayout.isNumberText (hmem q (by simp)) hqkind hb
  · have hgray := textsIn_of_parts .operator hparts rfl
    rw [show "DarkGray" = Role.operator.colour from rfl, hgray, List.length_map]
    exact ⟨hleast, hmost⟩

end Colours

/-- The colours of a line tell how it is answered. -/
theorem colours_agree_with_answer (line : String) :
    (colours line = ["LightBlue"] ↔ (answered line).1 = .ok .quit ∨
      (answered line).2 = (helpText ++ "\n").toUTF8.data) ∧
    (colours line = ["Red"] ↔ Command.ofText? (trimSeparators line.toList) = none ∧
      ∃ offset, TokenStream.scan (trimSeparators line.toList) = .error offset) ∧
    (colours line = ["Red"] → answered line =
      (.ok .proceed, ("Error: " ++ Error.malformedExpression.message ++ "\n").toUTF8.data)) ∧
    ((∃ value : Binary64, answered line =
        (.ok .proceed, ("= " ++ value.resultText ++ "\n").toUTF8.data)) ∨
      answered line =
        (.ok .proceed, ("Error: " ++ Error.divisionByZero.message ++ "\n").toUTF8.data) →
      ∃ e l r, Denotes line e ∧ textsIn "LightBlue" line = [] ∧ textsIn "Red" line = [] ∧
        textsIn "Yellow" line = [l, r] ∧ IsNumberText l e.left.abs ∧ IsNumberText r e.right.abs ∧
        1 ≤ (textsIn "DarkGray" line).length ∧ (textsIn "DarkGray" line).length ≤ 3) ∧
    ((∀ colour ∈ colours line, colour = "White") ↔ (answered line).2 = #[]) := by
  refine ⟨?command, ?invalid, ?malformed, ?readable, ?blank⟩
  case command =>
    rw [colours_command_iff, ← reply_command_iff, answered_eq, toUTF8_data_inj, Except.ok.injEq]
  case invalid =>
    -- The line is highlighted as a whole, but answered without the separators at its ends.
    rw [colours_invalid_iff, TokenStream.exists_scan_trimSeparators_error_iff]
  case malformed =>
    intro h
    obtain ⟨hcommand, offset, hscan⟩ := colours_invalid_iff.mp h
    exact answered_eq_iff.mpr (reply_of_unreadable hcommand hscan)
  case readable =>
    intro h
    obtain ⟨result, hreply, hresult⟩ : ∃ result, reply line = (.proceed, outcomeReply result) ∧
        ((∃ value, result = .ok value) ∨ result = .error .divisionByZero) := by
      rcases h with ⟨value, h⟩ | h
      · exact ⟨.ok value, answered_eq_iff.mp h, .inl ⟨value, rfl⟩⟩
      · exact ⟨.error .divisionByZero, answered_eq_iff.mp h, .inr rfl⟩
    obtain ⟨hcommand, e, hdenotes⟩ := denotes_of_reply hreply hresult
    obtain ⟨l, r, hshown⟩ := textsIn_of_denotes hcommand hdenotes
    exact ⟨e, l, r, hdenotes, hshown⟩
  case blank =>
    rw [colours_white_iff, ← reply_empty_iff, answered_eq]
    exact (toUTF8_data_inj (b := "")).symm

end LineCalculator
