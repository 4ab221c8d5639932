import LineCalculator.Proofs.Session.Lines
import LineCalculator.Proofs.Session.Replies

namespace LineCalculator.Session

open Console

/-- Handling the line's text alone ends with this control. -/
def Leads (line : List UInt8) (control : Control) : Prop :=
  ∃ text, String.fromUTF8? line.toByteArray = some text ∧
    ((handleLine text).run.run (.empty none)).1 = .ok control

/-- The prompt for a line and what handling the line's text alone writes. -/
def exchange (line : List UInt8) : Array UInt8 :=
  promptText.toUTF8.data ++ match String.fromUTF8? line.toByteArray with
    | some text => ((handleLine text).run.run (.empty none)).2.written
    | none => #[]

def exchanges : List (List UInt8) → Array UInt8
  | [] => #[]
  | line :: lines => exchange line ++ exchanges lines

section Lines

variable {line : List UInt8} {text : String}

theorem exchange_of_text (h : String.fromUTF8? line.toByteArray = some text) :
    exchange line = promptText.toUTF8.data ++ (reply text).2.toUTF8.data := by
  rw [exchange, h]
  dsimp only
  rw [(handleLine_emits text).run_unlimited]

theorem leads_iff {control : Control} (h : String.fromUTF8? line.toByteArray = some text) :
    Leads line control ↔ (reply text).1 = control := by
  simp [Leads, h, (handleLine_emits text).run_unlimited]

/-- The session answers a line as it is handled alone. -/
theorem Leads.answer_emits {control : Control} (h : Leads line control) : ∃ bytes,
    exchange line = promptText.toUTF8.data ++ bytes ∧
      (answer line).Emits (.ok control) bytes := by
  obtain ⟨text, htext, -⟩ := id h
  have hreply : (reply text).1 = control := (leads_iff htext).mp h
  have hanswer : answer line = handleLine text := by simp [answer, htext]
  refine ⟨_, exchange_of_text htext, ?_⟩
  rw [hanswer, ← hreply]
  exact handleLine_emits text

/-- A text that is no quit command lets the session go on, whatever it evaluates to. -/
theorem leads_proceed (h : String.fromUTF8? line.toByteArray = some text)
    (hcommand : Command.ofText? (trimSeparators text.toList) ≠ some .quit) :
    Leads line .proceed := by
  rw [leads_iff h]
  by_cases hblank : trimSeparators text.toList = []
  · rw [reply_of_blank hblank]
  · cases hofText : Command.ofText? (trimSeparators text.toList) with
    | none => rw [reply_of_expression hblank hofText]
    | some command =>
      cases command with
      | quit => exact absurd hofText hcommand
      | help => rw [reply_of_help hblank hofText]

end Lines

section Steps

variable {input : List UInt8}

theorem converse_nil : converse [] = (do ask; farewell) := by
  rw [converse, turn, dif_pos (firstLine_eq_nil_iff.mpr rfl)]

theorem converse_eq (h : input ≠ []) : converse input = (do
    ask
    match ← answer (firstLine input) with
    | .quit => return
    | .proceed => converse (input.drop (firstLine input).length)) := by
  have hunfold := converse.eq_def input
  rw [turn, dif_neg (firstLine_eq_nil_iff.not.mpr h)] at hunfold
  exact hunfold

/-- At the end of the input the session closes after one more prompt. -/
theorem converse_nil_emits : (converse []).Emits (.ok ())
    (promptText.toUTF8.data ++ ("\n" ++ exiting ++ "\n").toUTF8.data) := by
  rw [converse_nil]
  exact (emits_write promptText).bind (emits_writeLine _)

theorem converse_emits_of_invalid (h : input ≠ [])
    (hline : String.fromUTF8? (firstLine input).toByteArray = none) :
    (converse input).Emits (.error (.stream .invalidUtf8)) promptText.toUTF8.data := by
  have hanswer : (answer (firstLine input)).Emits (.error (.stream .invalidUtf8)) #[] := by
    simpa [answer, hline] using emits_throw (.stream .invalidUtf8)
  rw [converse_eq h]
  exact (emits_write promptText).bind_silent hanswer.bind_error

theorem converse_emits_of_quit (h : input ≠ []) (hline : Leads (firstLine input) .quit) :
    (converse input).Emits (.ok ()) (exchange (firstLine input)) := by
  obtain ⟨bytes, hexchange, hanswer⟩ := hline.answer_emits
  rw [converse_eq h, hexchange]
  exact (emits_write promptText).bind (hanswer.bind_silent (emits_pure ()))

/-- A line after which the session goes on adds its exchange and nothing else. -/
theorem converse_emits_of_proceed {ending : Except Error Unit} {bytes : Array UInt8}
    (h : input ≠ []) (hline : Leads (firstLine input) .proceed)
    (hrest : (converse (input.drop (firstLine input).length)).Emits ending bytes) :
    (converse input).Emits ending (exchange (firstLine input) ++ bytes) := by
  obtain ⟨answered, hexchange, hanswer⟩ := hline.answer_emits
  rw [converse_eq h, hexchange, Array.append_assoc]
  exact (emits_write promptText).bind (hanswer.bind hrest)

end Steps

/-- The session goes through lines that let it go on and is then where it would start on the rest
of the input. -/
theorem converse_emits_append {before after : List (List UInt8)} {input : List UInt8}
    (hcut : cutLines input = before ++ after) (hbefore : ∀ line ∈ before, Leads line .proceed) :
    ∃ rest, cutLines rest = after ∧ ∀ {ending bytes}, (converse rest).Emits ending bytes →
      (converse input).Emits ending (exchanges before ++ bytes) := by
  -- The induction is on the lines gone through; the sessions on the rests stay abstract.
  induction before generalizing input with
  | nil => exact ⟨input, hcut, by simp [exchanges]⟩
  | cons line before ih =>
    have hne : input ≠ [] := by
      rintro rfl
      simp [cutLines] at hcut
    rw [cutLines_eq hne, List.cons_append, List.cons.injEq] at hcut
    obtain ⟨hline, hcut⟩ := hcut
    obtain ⟨rest, hrest, hemits⟩ := ih hcut fun l hl => hbefore l (List.mem_cons_of_mem _ hl)
    refine ⟨rest, hrest, ?_⟩
    intro ending bytes h
    have hleads : Leads (firstLine input) .proceed := hline ▸ hbefore line (by simp)
    rw [exchanges, Array.append_assoc, ← hline]
    exact converse_emits_of_proceed hne hleads (hemits h)

/-- Where a session stops among its lines: at the end of the input, at the first line that is not
UTF-8 or after the first one that quits. The ending and the last bytes do not depend on the lines
that are left. -/
inductive Stop : List (List UInt8) → Except Error Unit → Array UInt8 → Prop where
  | ended : Stop [] (.ok ()) (promptText.toUTF8.data ++ ("\n" ++ exiting ++ "\n").toUTF8.data)
  | invalid {line : List UInt8} {rest : List (List UInt8)}
    (hline : String.fromUTF8? line.toByteArray = none) :
    Stop (line :: rest) (.error (.stream .invalidUtf8)) promptText.toUTF8.data
  | quit {line : List UInt8} {rest : List (List UInt8)} (hline : Leads line .quit) :
    Stop (line :: rest) (.ok ()) (exchange line)

theorem leads_or_stop (line : List UInt8) (rest : List (List UInt8)) :
    Leads line .proceed ∨ ∃ ending bytes, Stop (line :: rest) ending bytes := by
  cases htext : String.fromUTF8? line.toByteArray with
  | none => exact .inr ⟨_, _, .invalid htext⟩
  | some text =>
    cases hreply : (reply text).1 with
    | proceed => exact .inl ((leads_iff htext).mpr hreply)
    | quit => exact .inr ⟨_, _, .quit ((leads_iff htext).mpr hreply)⟩

theorem exists_stop (lines : List (List UInt8)) : ∃ before after ending bytes,
    lines = before ++ after ∧ (∀ line ∈ before, Leads line .proceed) ∧
      Stop after ending bytes := by
  induction lines with
  | nil => exact ⟨[], [], _, _, rfl, by simp, .ended⟩
  | cons line rest ih =>
    rcases leads_or_stop line rest with hline | ⟨ending, bytes, hstop⟩
    · obtain ⟨before, after, ending, bytes, rfl, hbefore, hstop⟩ := ih
      refine ⟨line :: before, after, ending, bytes, rfl, ?_, hstop⟩
      intro l hl
      rcases List.mem_cons.mp hl with rfl | hl
      · exact hline
      · exact hbefore l hl
    · exact ⟨[], line :: rest, ending, bytes, rfl, by simp, hstop⟩

theorem converse_emits_of_stop {input : List UInt8} {ending : Except Error Unit}
    {bytes : Array UInt8} (h : Stop (cutLines input) ending bytes) :
    (converse input).Emits ending bytes := by
  by_cases hne : input = []
  · subst hne
    cases h
    exact converse_nil_emits
  · rw [cutLines_eq hne] at h
    cases h with
    | invalid hline => exact converse_emits_of_invalid hne hline
    | quit hline => exact converse_emits_of_quit hne hline

/-- What a whole session writes, to whatever sink, and how it ends where all of it fits. -/
theorem session_emits {input : List UInt8} {before after : List (List UInt8)}
    {ending : Except Error Unit} {bytes : Array UInt8} (hcut : cutLines input = before ++ after)
    (hbefore : ∀ line ∈ before, Leads line .proceed) (hstop : Stop after ending bytes) :
    (session input).Emits ending
      ((banner ++ "\n").toUTF8.data ++ (exchanges before ++ bytes)) := by
  obtain ⟨rest, hrest, hemits⟩ := converse_emits_append hcut hbefore
  exact (emits_writeLine banner).bind (hemits (converse_emits_of_stop (hrest.symm ▸ hstop)))

/-- The transcript of a session without a limit. The lines up to the one where the session stops
are exchanged one by one, each as if it were alone; no text but a quit command stops the session;
and the bytes after a line that quits change neither the output nor the ending. -/
theorem run_transcript (input : List UInt8) :
    (∃ before after ending bytes, cutLines input = before ++ after ∧
      (∀ line ∈ before, Leads line .proceed) ∧ Stop after ending bytes) ∧
    (∀ before after ending bytes, cutLines input = before ++ after →
      (∀ line ∈ before, Leads line .proceed) → Stop after ending bytes →
      run none input = (ending, (banner ++ "\n").toUTF8.data ++ (exchanges before ++ bytes))) ∧
    (∀ line ∈ cutLines input, ∀ text, String.fromUTF8? line.toByteArray = some text →
      Command.ofText? (trimSeparators text.toList) ≠ some .quit → Leads line .proceed) ∧
    ∀ before line body tail, input = body ++ 10 :: tail →
      cutLines (body ++ [10]) = before ++ [line] → (∀ line ∈ before, Leads line .proceed) →
      Leads line .quit → run none input = run none (body ++ [10]) := by
  have hrun {input : List UInt8} {before after : List (List UInt8)} {ending : Except Error Unit}
      {bytes : Array UInt8} (hcut : cutLines input = before ++ after)
      (hbefore : ∀ line ∈ before, Leads line .proceed) (hstop : Stop after ending bytes) :
      run none input = (ending, (banner ++ "\n").toUTF8.data ++ (exchanges before ++ bytes)) := by
    rw [run, (session_emits hcut hbefore hstop).run_unlimited]
  refine ⟨exists_stop (cutLines input), ?_, ?_, ?_⟩
  · intro before after ending bytes hcut hbefore hstop
    exact hrun hcut hbefore hstop
  · intro line _ text htext hcommand
    exact leads_proceed htext hcommand
  · rintro before line body tail rfl hcut hbefore hquit
    -- The tail only changes the lines after the one that quits.
    have hcut' : cutLines (body ++ 10 :: tail) = before ++ line :: cutLines tail := by
      rw [cutLines_append_newline, hcut, List.append_assoc, List.singleton_append]
    rw [hrun hcut' hbefore (.quit hquit), hrun hcut hbefore (.quit hquit)]

end LineCalculator.Session
