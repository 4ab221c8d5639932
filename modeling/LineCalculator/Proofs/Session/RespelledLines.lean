import LineCalculator.Proofs.Highlight.Agreement
import LineCalculator.Proofs.Token.Respelling

namespace LineCalculator

section Commands

variable {text text' : List Char} {word : String}

theorem Spells.respell (h : Spells text word) (hword : word ∈ commandWords)
    (htext : Respelled text text') : Spells text' word := by
  obtain ⟨before, core, after, rfl, hbefore, hafter, hcore⟩ := h
  obtain ⟨hne, hletters⟩ := letters_of_mem_commandWords hword
  have hlower : ∀ c ∈ core, c.toLower ∈ commandLetters := by
    intro c hc
    apply hletters
    rw [← hcore]
    exact List.mem_map_of_mem hc
  have hseparator : ∀ c ∈ core, isSeparator c = false :=
    fun c hc => not_isSeparator_of_toLower (hlower c hc)
  have hout : StartsOutside isSeparator (core ++ after) := by
    obtain ⟨c, rest, rfl⟩ : ∃ c rest, core = c :: rest := by
      apply List.exists_cons_of_ne_nil
      rintro rfl
      exact hne hcore.symm
    exact startsOutside_cons.mpr (hseparator c List.mem_cons_self)
  -- The word itself holds neither digits nor separators, so only the gaps around it change.
  obtain ⟨before', inner, rfl, hbefore', -, hinner⟩ := htext.gap_append_inv hbefore hout
  obtain ⟨core', after', rfl, hsame, hrest⟩ := hinner.append_inv hseparator
  obtain rfl := SameCharacter.forall₂_eq hsame fun c hc =>
    not_isDecimalDigit_of_toLower (hlower c hc)
  exact ⟨before', core, after', rfl, hbefore', (hrest.gap_inv hafter).1, hcore⟩

theorem Respelled.lowercase_eq_iff (h : Respelled text text') (hword : word ∈ commandWords) :
    lowercase (trimSeparators text) = word.toList ↔
      lowercase (trimSeparators text') = word.toList := by
  rw [← spells_iff hword, ← spells_iff hword]
  exact ⟨fun hspells => hspells.respell hword h, fun hspells => hspells.respell hword h.symm⟩

theorem Respelled.ofText?_eq (h : Respelled text text') :
    Command.ofText? (trimSeparators text) = Command.ofText? (trimSeparators text') := by
  apply Option.ext
  intro command
  cases command with
  | quit =>
    rw [Command.ofText?_eq_quit_iff, Command.ofText?_eq_quit_iff, h.lowercase_eq_iff (by decide),
      h.lowercase_eq_iff (by decide), h.lowercase_eq_iff (by decide)]
  | help =>
    rw [Command.ofText?_eq_help_iff, Command.ofText?_eq_help_iff, h.lowercase_eq_iff (by decide)]

theorem Respelled.isEmpty_trimSeparators_eq (h : Respelled text text') :
    (trimSeparators text).isEmpty = (trimSeparators text').isEmpty := by
  rw [Bool.eq_iff_iff, List.isEmpty_iff, List.isEmpty_iff, trimSeparators_eq_nil_iff,
    trimSeparators_eq_nil_iff]
  exact ⟨fun hgap => (h.gap_inv hgap).1, fun hgap => (h.symm.gap_inv hgap).1⟩

end Commands

section Outcomes

variable {a b : String}

theorem Denotes.respell {e : Expression} (h : Denotes a e) (hab : Respelled a.toList b.toList) :
    Denotes b e := by
  obtain ⟨left, hleft, hparse⟩ := h
  obtain ⟨right, hright, hsame⟩ := TokenStream.exists_scan_of_respelled hab hleft
  have hresult := Expression.sameResult_parse hsame
  rw [hparse] at hresult
  refine ⟨right, hright, ?_⟩
  generalize Expression.parse right = result at hresult
  cases hresult with
  | ok h => rw [h]

theorem Respelled.outcome_eq (h : Respelled a.toList b.toList) : outcome a = outcome b := by
  rcases denotes_or_malformed a with ⟨e, he⟩ | ha
  · rw [outcome_of_denotes he, outcome_of_denotes (he.respell h)]
  · rcases denotes_or_malformed b with ⟨e, he⟩ | hb
    -- What the second line says, the first one says as well.
    · rw [outcome_of_denotes he, outcome_of_denotes (he.respell h.symm)]
    · rw [ha, hb]

theorem Respelled.answerExpression_eq (h : Respelled a.toList b.toList) :
    answerExpression (String.ofList (trimSeparators a.toList)) =
      answerExpression (String.ofList (trimSeparators b.toList)) := by
  unfold answerExpression
  rw [outcome_trimSeparators, outcome_trimSeparators, h.outcome_eq]

theorem Respelled.handleLine_eq (h : Respelled a.toList b.toList) :
    handleLine a = handleLine b := by
  unfold handleLine
  simp only [h.isEmpty_trimSeparators_eq, h.ofText?_eq, h.answerExpression_eq]

end Outcomes

section Colours

def gapColours (empty : Bool) : List String :=
  if empty then [] else [Role.gap.colour]

def outlineColours (outline : TokenKind × Bool) : List String :=
  gapColours outline.2 ++ [(Highlight.roleOf outline.1).colour]

theorem map_colour_gapPart (gap : List Char) :
    (gapPart gap).map (fun part => part.role.colour) = gapColours gap.isEmpty := by
  cases gap <;> rfl

theorem map_colour_parts (pieces : List Piece) (last : List Char) :
    (pieces.flatMap Piece.parts ++ gapPart last).map (fun part => part.role.colour) =
      (pieces.map Piece.outline).flatMap outlineColours ++ gapColours last.isEmpty := by
  rw [List.map_append, map_colour_gapPart, List.map_flatMap, List.flatMap_map]
  congr 2
  funext piece
  rw [Piece.parts, List.map_append, map_colour_gapPart]
  rfl

variable {a b : String}

theorem Respelled.colours_eq (h : Respelled a.toList b.toList) : colours a = colours b := by
  unfold colours
  rcases parts_cases a with ⟨hcommand, hparts⟩ | ⟨hcommand, ⟨offset, hscan⟩, hparts⟩ |
    ⟨hcommand, pieces, last, hlayout, hparts⟩
  · obtain ⟨command, hcommand⟩ := Option.ne_none_iff_exists'.mp hcommand
    rw [h.ofText?_eq] at hcommand
    rw [hparts, Highlight.parts_of_command hcommand]
    rfl
  · rw [h.ofText?_eq] at hcommand
    cases hscan' : TokenStream.scan b.toList with
    | ok right =>
      -- The first line would then be readable as well.
      obtain ⟨left, hleft⟩ := (TokenStream.exists_scan_respelled_iff h).mpr ⟨right, hscan'⟩
      rw [hscan] at hleft
      cases hleft
    | error offset' =>
      rw [hparts, Highlight.parts_of_unreadable hcommand hscan']
      rfl
  · obtain ⟨pieces', last', hlayout', houtline, hlast⟩ := hlayout.respell h
    rw [h.ofText?_eq] at hcommand
    rw [hparts, Highlight.parts_of_layout hcommand hlayout', map_colour_parts, map_colour_parts,
      houtline, hlast]

end Colours

section Lines

variable {a b : String}

theorem parse_run_eq {left right : TokenStream} (h : SameTokens left.toList right.toList)
    (records records' : List LogRecord) :
    ((parse left).run.run records).1 = ((parse right).run.run records').1 := by
  have hresult := Expression.sameResult_parse h
  rw [parse_run, parse_run]
  generalize Expression.parse left = result at hresult
  generalize Expression.parse right = result' at hresult
  cases hresult with
  | ok h =>
    subst h
    rfl
  | error h => rfl

/-- Lines that differ in the scripts of their digits and in their separators only are read alike and
say the same. Their tokens are of the same kinds, with the same values, and touch at the same
places, so they have the same outcome, the same answer and the same colours. -/
theorem respelled_lines_agree (h : Respelled a.toList b.toList) (records : List LogRecord) :
    ((∃ left, ((tokenize a).run.run records).1 = .ok left) ↔
      ∃ right, ((tokenize b).run.run records).1 = .ok right) ∧
    (∀ left right, ((tokenize a).run.run records).1 = .ok left →
      ((tokenize b).run.run records).1 = .ok right →
      left.toList.map Token.kind = right.toList.map Token.kind ∧
      touches left.toList = touches right.toList ∧
      ((parse left).run.run records).1 = ((parse right).run.run records).1) ∧
    ((evaluate a).run.run records).1 = ((evaluate b).run.run records).1 ∧
    handleLine a = handleLine b ∧
    colours a = colours b := by
  refine ⟨?readable, ?tokens, ?outcome, h.handleLine_eq, h.colours_eq⟩
  case readable =>
    simp only [tokenize_eq_ok_iff]
    exact TokenStream.exists_scan_respelled_iff h
  case tokens =>
    intro left right hleft hright
    rw [tokenize_eq_ok_iff] at hleft hright
    obtain ⟨right', hright', hsame⟩ := TokenStream.exists_scan_of_respelled h hleft
    obtain rfl : right' = right := by simpa [hright'] using hright
    exact ⟨hsame.kinds, hsame.touches, parse_run_eq hsame records records⟩
  case outcome =>
    rw [evaluate_run, evaluate_run, ← outcome_eq_verdict, ← outcome_eq_verdict, h.outcome_eq]

/-- A sum with a signed number, in ASCII and with Arabic and full-width digits. -/
theorem signed_sum_respelled :
    Respelled "2 -3 ".toList "\u0662\u3000\u2003-\uFF13\u0085".toList ∧
    handleLine "2 -3 " = handleLine "\u0662\u3000\u2003-\uFF13\u0085" ∧
    colours "2 -3 " = colours "\u0662\u3000\u2003-\uFF13\u0085" := by
  have h : Respelled "2 -3 ".toList "\u0662\u3000\u2003-\uFF13\u0085".toList := by
    have htwo : SameCharacter '2' '\u0662' := .inr ⟨2, by decide, by decide⟩
    have hthree : SameCharacter '3' '\uFF13' := .inr ⟨3, by decide, by decide⟩
    have hspace : Gap [' '] := List.all_eq_true.mp (by decide)
    have hwide : Gap ['\u3000', '\u2003'] := List.all_eq_true.mp (by decide)
    have hnext : Gap ['\u0085'] := List.all_eq_true.mp (by decide)
    have hlast := Respelled.gap hspace hnext (by simp) (by simp) .nil
    have hsigned := Respelled.char (.refl '-') (.char hthree hlast)
    have hgap := Respelled.gap hspace hwide (by simp) (by simp) hsigned
    simpa using Respelled.char htwo hgap
  obtain ⟨-, -, -, hanswer, hcolours⟩ := respelled_lines_agree h []
  exact ⟨h, hanswer, hcolours⟩

end Lines

end LineCalculator
