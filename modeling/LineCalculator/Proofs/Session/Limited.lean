import LineCalculator.Proofs.Session.Transcript

/-!
Sessions over a sink that may be full. Such a session is the unlimited one up to the end of the
sink: the write that does not fit ends it, and nothing is written after that.
-/
namespace LineCalculator.Session

open Console

/-- A session stops of its own accord, at the end of the input or after a quit command, or at a
line that is not UTF-8. -/
theorem Stop.ending_ne_bufferFull {lines : List (List UInt8)} {ending : Except Error Unit}
    {bytes : Array UInt8} (h : Stop lines ending bytes) :
    ending ≠ .error (.stream .bufferFull) := by
  cases h <;> simp

theorem session_emits_run (input : List UInt8) :
    (session input).Emits (run none input).1 (run none input).2 ∧
      (run none input).1 ≠ .error (.stream .bufferFull) := by
  obtain ⟨before, after, ending, bytes, hcut, hbefore, hstop⟩ := exists_stop (cutLines input)
  have hemits := session_emits hcut hbefore hstop
  have hrun : run none input = (ending,
      (banner ++ "\n").toUTF8.data ++ (exchanges before ++ bytes)) := by
    rw [run, hemits.run_unlimited]
  rw [hrun]
  exact ⟨hemits, hstop.ending_ne_bufferFull⟩

theorem converse_emits (input : List UInt8) : ∃ ending bytes,
    (converse input).Emits ending bytes := by
  obtain ⟨before, after, ending, bytes, hcut, hbefore, hstop⟩ := exists_stop (cutLines input)
  obtain ⟨rest, hrest, hemits⟩ := converse_emits_append hcut hbefore
  exact ⟨ending, _, hemits (converse_emits_of_stop (hrest.symm ▸ hstop))⟩

/-- The prompt and the answer to the first line are the first bytes of a conversation. -/
theorem converse_emits_exchange {input : List UInt8} (h : input ≠ []) : ∃ ending bytes,
    (converse input).Emits ending (exchange (firstLine input) ++ bytes) := by
  rcases leads_or_stop (firstLine input) (cutLines (input.drop (firstLine input).length)) with
    hproceed | ⟨ending, bytes, hstop⟩
  · obtain ⟨ending, bytes, hrest⟩ := converse_emits (input.drop (firstLine input).length)
    exact ⟨ending, bytes, converse_emits_of_proceed h hproceed hrest⟩
  · have hemits : (converse input).Emits ending bytes := by
      apply converse_emits_of_stop
      rwa [cutLines_eq h]
    -- Where the session stops at the line, its exchange is all that is left to write.
    have hexchange : bytes = exchange (firstLine input) := by
      cases hstop with
      | invalid hline => simp [exchange, hline]
      | quit hline => rfl
    refine ⟨ending, #[], ?_⟩
    rw [Array.append_empty, ← hexchange]
    exact hemits

/-- A line whose prompt and answer do not fit ends the session where the sink ends, and the rest of
the input has no say any more. -/
theorem converse_run_of_not_fits {input : List UInt8} {sink : Sink} (hsink : sink.Within)
    (h : input ≠ []) (hfull : sink.fits (exchange (firstLine input)) = false) :
    (converse input).run.run sink =
      (.error (.stream .bufferFull), sink.put (exchange (firstLine input))) := by
  obtain ⟨ending, bytes, hemits⟩ := converse_emits_exchange h
  have hall : sink.fits (exchange (firstLine input) ++ bytes) = false := by
    rw [Sink.fits_append hsink, hfull, Bool.false_and]
  rw [hemits sink hsink, hall, Sink.put_append_of_not_fits hfull]
  rfl

/-- A limited sink cuts a session and changes nothing else. Where the whole output fits, output and
ending are those of the unlimited session. Where it does not, the output is its first bytes and the
ending is the failure to write, which no other ending is mistaken for. The line being answered then
is the last one, whatever follows it. -/
theorem run_limited (input : List UInt8) (capacity : Nat) :
    ((run none input).2.size ≤ capacity → run (some capacity) input = run none input) ∧
    (capacity < (run none input).2.size → run (some capacity) input =
      (.error (.stream .bufferFull), (run none input).2.take capacity)) ∧
    ((run (some capacity) input).1 = .error (.stream .bufferFull) ↔
      capacity < (run none input).2.size) ∧
    StreamFault.bufferFull.cause = "failed to write whole buffer" ∧
    ∀ sink : Sink, sink.Within → input ≠ [] → sink.fits (exchange (firstLine input)) = false →
      (converse input).run.run sink =
        (.error (.stream .bufferFull), sink.put (exchange (firstLine input))) := by
  obtain ⟨hemits, hending⟩ := session_emits_run input
  have hrun : run (some capacity) input = if (run none input).2.size ≤ capacity then
      run none input
    else (.error (.stream .bufferFull), (run none input).2.take capacity) := by
    rw [run, hemits.run_bounded capacity]
    by_cases hsize : (run none input).2.size ≤ capacity
    · rw [if_pos hsize, if_pos hsize]
    · rw [if_neg hsize, if_neg hsize]
  rw [hrun]
  refine ⟨?_, ?_, ?_, rfl, ?_⟩
  · intro hsize
    rw [if_pos hsize]
  · intro hsize
    rw [if_neg (not_le.mpr hsize)]
  · by_cases hsize : (run none input).2.size ≤ capacity
    · simp only [if_pos hsize, hending, not_lt.mpr hsize]
    · simp only [if_neg hsize, not_le.mp hsize]
  · intro sink hsink hne hfull
    exact converse_run_of_not_fits hsink hne hfull

end LineCalculator.Session
