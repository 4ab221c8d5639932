import LineCalculator.Proofs.Expression.Results
import LineCalculator.Proofs.Session.SentenceLines

namespace LineCalculator

def commandWords : List String :=
  Command.helpWord :: Command.quitWords

/-- The text is the word between two gaps, up to ASCII letter case. -/
def Spells (text : List Char) (word : String) : Prop :=
  ∃ before core after, text = before ++ (core ++ after) ∧ Gap before ∧ Gap after ∧
    core.map Char.toLower = word.toList

section Spells

variable {text : List Char} {word : String}

theorem letters_of_mem_commandWords (h : word ∈ commandWords) :
    word.toList ≠ [] ∧ ∀ d ∈ word.toList, d ∈ commandLetters := by
  simp only [commandWords, Command.quitWords, Command.helpWord, List.mem_cons, List.not_mem_nil,
    or_false] at h
  rcases h with rfl | rfl | rfl | rfl <;>
    exact ⟨by decide, List.all_iff_forall_prop.mp (by decide)⟩

theorem spells_iff (h : word ∈ commandWords) :
    Spells text word ↔ lowercase (trimSeparators text) = word.toList := by
  obtain ⟨hne, hword⟩ := letters_of_mem_commandWords h
  rw [lowercase_eq_iff hword]
  constructor
  · rintro ⟨before, core, after, rfl, hbefore, hafter, hcore⟩
    -- A separator has no letter as its lower-case form, so the word is not trimmed itself.
    have hletters : ∀ c ∈ core, isSeparator c = false := by
      intro c hc
      apply not_isSeparator_of_toLower
      apply hword
      rw [← hcore]
      exact List.mem_map_of_mem hc
    have houtside (part : List Char) (hpart : ∀ c ∈ part, c ∈ core) :
        StartsOutside isSeparator part := by
      intro c hc
      exact hletters c (hpart c (List.mem_of_mem_head? hc))
    have hcore' : core ≠ [] := by
      rintro rfl
      exact hne hcore.symm
    rw [trimSeparators_append hbefore hafter hcore' (houtside core fun c hc => hc)
      (houtside core.reverse fun c hc => List.mem_reverse.mp hc), hcore]
  · intro h
    obtain ⟨before, after, htext, hbefore, hafter⟩ := exists_trimSeparators text
    exact ⟨before, trimSeparators text, after, htext, hbefore, hafter, h⟩

end Spells

namespace Command

theorem ofList_eq_iff {text : List Char} {word : String} :
    String.ofList text = word ↔ text = word.toList := by
  rw [← String.toList_inj, String.toList_ofList]

theorem ofWord?_eq_quit_iff {text : List Char} : ofWord? (String.ofList text) = some .quit ↔
    text = "q".toList ∨ text = "quit".toList ∨ text = "exit".toList := by
  simp only [ofWord?, quitWords, List.contains_iff_mem, List.mem_cons, List.not_mem_nil, or_false,
    ofList_eq_iff]
  split
  · rename_i hword
    exact ⟨fun _ => hword, fun _ => rfl⟩
  · rename_i hword
    refine ⟨?_, fun h => absurd h hword⟩
    split <;> simp

theorem ofWord?_eq_help_iff {text : List Char} : ofWord? (String.ofList text) = some .help ↔
    text = "help".toList := by
  simp only [ofWord?, quitWords, helpWord, List.contains_iff_mem, List.mem_cons, List.not_mem_nil,
    or_false, ofList_eq_iff]
  constructor
  · intro h
    split at h
    · cases h
    · split at h
      · assumption
      · cases h
  · intro h
    rw [h, if_neg (by decide), if_pos rfl]

theorem ofText?_eq_quit_iff {text : List Char} : ofText? text = some .quit ↔
    lowercase text = "q".toList ∨ lowercase text = "quit".toList ∨
      lowercase text = "exit".toList :=
  ofWord?_eq_quit_iff

theorem ofText?_eq_help_iff {text : List Char} : ofText? text = some .help ↔
    lowercase text = "help".toList :=
  ofWord?_eq_help_iff

/-- Every form of the text in lower case asks for the same command. -/
theorem ofWord?_of_lowersTo {text lowered : List Char} (h : LowersTo text lowered) :
    ofWord? (String.ofList lowered) = ofText? text := by
  have hword (word : String) (hmem : word ∈ commandWords) :
      lowered = word.toList ↔ lowercase text = word.toList :=
    h.eq_iff (letters_of_mem_commandWords hmem).2
  apply Option.ext
  intro command
  cases command with
  | quit =>
    rw [ofWord?_eq_quit_iff, ofText?_eq_quit_iff, hword "q" (by decide), hword "quit" (by decide),
      hword "exit" (by decide)]
  | help => rw [ofWord?_eq_help_iff, ofText?_eq_help_iff, hword "help" (by decide)]

end Command

inductive LineKind where
  | blank
  | quit
  | help
  | expression
  deriving DecidableEq, Repr

namespace LineKind

def Holds (line : String) : LineKind → Prop
  | .blank => Gap line.toList
  | .quit => Spells line.toList "q" ∨ Spells line.toList "quit" ∨ Spells line.toList "exit"
  | .help => Spells line.toList "help"
  | .expression => ¬ Gap line.toList ∧ ¬ Spells line.toList "q" ∧ ¬ Spells line.toList "quit" ∧
      ¬ Spells line.toList "exit" ∧ ¬ Spells line.toList "help"

def ofTrimmed (text : List Char) : LineKind :=
  if text = [] then .blank
  else match Command.ofText? text with
  | some .quit => .quit
  | some .help => .help
  | none => .expression

/-- Whether the session goes on after a line of this kind, and the text that answers the line. -/
def reply (line : String) : LineKind → Control × String
  | .blank => (.proceed, "")
  | .quit => (.quit, goodbye ++ "\n")
  | .help => (.proceed, helpText ++ "\n")
  | .expression => (.proceed, outcomeReply (outcome line))

section Holds

variable {line : String}

theorem blank_holds_iff : blank.Holds line ↔ trimSeparators line.toList = [] :=
  trimSeparators_eq_nil_iff.symm

theorem quit_holds_iff :
    quit.Holds line ↔ Command.ofText? (trimSeparators line.toList) = some .quit := by
  rw [Command.ofText?_eq_quit_iff, Holds, spells_iff (by decide), spells_iff (by decide),
    spells_iff (by decide)]

theorem help_holds_iff :
    help.Holds line ↔ Command.ofText? (trimSeparators line.toList) = some .help := by
  rw [Command.ofText?_eq_help_iff, Holds, spells_iff (by decide)]

theorem expression_holds_iff : expression.Holds line ↔ trimSeparators line.toList ≠ [] ∧
    Command.ofText? (trimSeparators line.toList) = none := by
  have hexpression : expression.Holds line ↔
      ¬ blank.Holds line ∧ ¬ quit.Holds line ∧ ¬ help.Holds line := by
    simp only [Holds, not_or, and_assoc]
  rw [hexpression, blank_holds_iff, quit_holds_iff, help_holds_iff]
  cases Command.ofText? (trimSeparators line.toList) with
  | none => simp
  | some command => cases command <;> simp

theorem holds_iff {kind : LineKind} :
    kind.Holds line ↔ kind = ofTrimmed (trimSeparators line.toList) := by
  unfold ofTrimmed
  by_cases hblank : trimSeparators line.toList = []
  · have hnone : Command.ofText? [] = none := by decide
    cases kind <;> simp [blank_holds_iff, quit_holds_iff, help_holds_iff, expression_holds_iff,
      hblank, hnone]
  · cases hcommand : Command.ofText? (trimSeparators line.toList) with
    | none =>
      cases kind <;> simp [blank_holds_iff, quit_holds_iff, help_holds_iff, expression_holds_iff,
        hblank, hcommand]
    | some command =>
      cases command <;> cases kind <;> simp [blank_holds_iff, quit_holds_iff, help_holds_iff,
        expression_holds_iff, hblank, hcommand]

theorem existsUnique_holds (line : String) : ∃! kind : LineKind, kind.Holds line :=
  ⟨ofTrimmed (trimSeparators line.toList), holds_iff.mpr rfl, fun _ h => holds_iff.mp h⟩

theorem reply_eq {kind : LineKind} (h : kind.Holds line) :
    LineCalculator.reply line = kind.reply line := by
  cases kind with
  | blank => exact reply_of_blank (blank_holds_iff.mp h)
  | quit =>
    have hcommand := quit_holds_iff.mp h
    refine reply_of_quit ?_ hcommand
    intro hblank
    rw [hblank] at hcommand
    exact absurd hcommand (by decide)
  | help =>
    have hcommand := help_holds_iff.mp h
    refine reply_of_help ?_ hcommand
    intro hblank
    rw [hblank] at hcommand
    exact absurd hcommand (by decide)
  | expression =>
    obtain ⟨hne, hcommand⟩ := expression_holds_iff.mp h
    rw [reply_of_expression hne hcommand, outcome_trimSeparators]
    rfl

end Holds

end LineKind

section Expressions

theorem isRecoverable_of_outcome {source : String} {error : Error}
    (h : outcome source = .error error) : error.isRecoverable = true := by
  cases error with
  | malformedExpression => rfl
  | divisionByZero => rfl
  | stream fault => exact absurd h (outcome_ne_stream source fault)

theorem newline_notMem_message (error : Error) : '\n' ∉ error.message.toList := by
  cases error with
  | malformedExpression => decide
  | divisionByZero => decide
  | stream fault => cases fault <;> decide

/-- The reply to an expression is one line. -/
theorem exists_outcomeReply_eq (result : Except Error Binary64) :
    ∃ body, outcomeReply result = body ++ "\n" ∧ '\n' ∉ body.toList := by
  cases result with
  | ok value =>
    refine ⟨"= " ++ value.resultText, rfl, ?_⟩
    have hresult : '\n' ∉ value.resultText.toList := fun hmem =>
      absurd (Binary64.not_isSeparator_of_mem_resultText hmem) (by decide)
    simpa using hresult
  | error error =>
    refine ⟨"Error: " ++ error.message, rfl, ?_⟩
    simpa using newline_notMem_message error

/-- A command has no character beyond ASCII between the gaps around it. -/
theorem Command.ofText?_of_not_ascii {text : List Char} {c : Char} (hc : c ∈ text)
    (hlarge : 0x80 ≤ c.toNat) : ofText? text = none := by
  have hword (word : String) (hmem : word ∈ commandWords) : lowercase text ≠ word.toList := by
    intro h
    have hletters := (letters_of_mem_commandWords hmem).2
    have hascii := ascii_of_lowercase (h ▸ hletters) c hc
    omega
  cases hcommand : ofText? text with
  | none => rfl
  | some command =>
    cases command with
    | quit =>
      rcases ofText?_eq_quit_iff.mp hcommand with h | h | h
      · exact absurd h (hword "q" (by decide))
      · exact absurd h (hword "quit" (by decide))
      · exact absurd h (hword "exit" (by decide))
    | help => exact absurd (ofText?_eq_help_iff.mp hcommand) (hword "help" (by decide))

theorem expression_holds_of_denotes {line : String} {e : Expression} (h : Denotes line e) :
    LineKind.expression.Holds line := by
  obtain ⟨s, hs, -⟩ := denotes_iff_sentence.mp h
  rw [LineKind.expression_holds_iff, ← hs, s.trimSeparators_text]
  refine ⟨?_, s.ofText?_trimmed⟩
  obtain ⟨c, rest, htext, -⟩ := s.exists_text_trimmed_eq_cons
  simp [htext]

end Expressions

/-- Every line is of one of four kinds and is answered by its kind: a blank line by nothing, a quit
word by the goodbye, the help word by the help text, and every other line by one line with the
outcome of its evaluation. No error of an evaluation ends the session, and neither a text with a
character beyond ASCII nor an expression is taken for a command. The command does not depend on the
form that a capital sigma takes in lower case. -/
theorem handleLine_by_kind (line : String) :
    (∃! kind : LineKind, kind.Holds line) ∧
    (∀ kind : LineKind, kind.Holds line → (handleLine line).Emits
      (.ok (kind.reply line).1) (kind.reply line).2.toUTF8.data) ∧
    (∃ body, outcomeReply (outcome line) = body ++ "\n" ∧ '\n' ∉ body.toList) ∧
    (∀ error, outcome line = .error error → error.isRecoverable = true) ∧
    (∀ c ∈ trimSeparators line.toList, 0x80 ≤ c.toNat →
      Command.ofText? (trimSeparators line.toList) = none) ∧
    (∀ lowered, LowersTo (trimSeparators line.toList) lowered →
      Command.ofWord? (String.ofList lowered) = Command.ofText? (trimSeparators line.toList)) ∧
    ((∃ e, Denotes line e) → LineKind.expression.Holds line) := by
  refine ⟨LineKind.existsUnique_holds line, ?_, exists_outcomeReply_eq _,
    fun error h => isRecoverable_of_outcome h,
    fun c hc hlarge => Command.ofText?_of_not_ascii hc hlarge,
    fun lowered h => Command.ofWord?_of_lowersTo h, fun ⟨e, he⟩ => expression_holds_of_denotes he⟩
  intro kind hkind
  rw [← LineKind.reply_eq hkind]
  exact handleLine_emits line

end LineCalculator
