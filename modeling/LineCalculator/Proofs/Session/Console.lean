import LineCalculator.Session.Console

/-!
What a console computation writes. Writes in turn leave what one write of all the bytes leaves, so a
computation is described by its bytes and by its ending where all of them fit.
-/
namespace LineCalculator

namespace Sink

def Within (sink : Sink) : Prop :=
  ∀ capacity ∈ sink.capacity, sink.written.size ≤ capacity

theorem within_empty (capacity : Option Nat) : (empty capacity).Within := by
  simp [Within, empty]

variable {sink : Sink} {a b : Array UInt8}

theorem Within.put (h : sink.Within) (bytes : Array UInt8) : (sink.put bytes).Within := by
  obtain ⟨_ | capacity, written⟩ := sink
  · simp [Within, Sink.put]
  · replace h : written.size ≤ capacity := h capacity rfl
    simp only [Within, Sink.put, fitting, Option.mem_def, Option.some.injEq, forall_eq',
      Array.size_append, Array.size_extract]
    omega

theorem put_empty : sink.put #[] = sink := by
  obtain ⟨_ | capacity, written⟩ := sink <;> simp [put, fitting]

theorem fits_empty (h : sink.Within) : sink.fits #[] = true := by
  obtain ⟨_ | capacity, written⟩ := sink
  · rfl
  · simpa [fits] using h capacity rfl

theorem put_put : (sink.put a).put b = sink.put (a ++ b) := by
  obtain ⟨_ | capacity, written⟩ := sink
  · simp [put, fitting]
  · simp only [put, fitting, Array.size_append, Array.size_extract, Array.take,
      Array.extract_append, Array.append_assoc, Nat.zero_sub, mk.injEq, true_and]
    congr 3
    omega

theorem fits_append (h : sink.Within) :
    sink.fits (a ++ b) = (sink.fits a && (sink.put a).fits b) := by
  obtain ⟨_ | capacity, written⟩ := sink
  · rfl
  · replace h : written.size ≤ capacity := h capacity rfl
    rw [Bool.eq_iff_iff]
    simp only [fits, put, fitting, Array.size_append, Array.take, Array.size_extract,
      Bool.and_eq_true, decide_eq_true_eq]
    omega

/-- A sink that could not take all of some bytes takes no more. -/
theorem put_append_of_not_fits (h : sink.fits a = false) : sink.put (a ++ b) = sink.put a := by
  obtain ⟨_ | capacity, written⟩ := sink
  · simp [fits] at h
  · replace h : capacity < written.size + a.size := by simpa [fits] using h
    -- The first bytes alone reach beyond the end, so none of the others are kept.
    have hnone : capacity - written.size - a.size = 0 := by omega
    simp [put, fitting, Array.take, Array.extract_append, hnone]

end Sink

namespace Console

variable {α β : Type}

/-- The computation ends with the result after writing the bytes, if they fit. If they do not, it
fails at the end of the sink. -/
def Emits (action : Console α) (result : Except Error α) (bytes : Array UInt8) : Prop :=
  ∀ sink : Sink, sink.Within → action.run.run sink =
    (if sink.fits bytes then result else .error (.stream .bufferFull), sink.put bytes)

theorem emits_pure (a : α) : Emits (pure a) (.ok a) #[] := by
  intro sink hsink
  rw [Sink.fits_empty hsink, Sink.put_empty]
  rfl

theorem emits_throw (error : Error) : Emits (throw error : Console α) (.error error) #[] := by
  intro sink hsink
  rw [Sink.fits_empty hsink, Sink.put_empty]
  rfl

theorem emits_write (text : String) : Emits (write text) (.ok ()) text.toUTF8.data := by
  intro sink _
  change (do unless sink.fits text.toUTF8.data do throw (.stream .bufferFull) :
    Console Unit).run.run (sink.put text.toUTF8.data) = _
  cases sink.fits text.toUTF8.data <;> rfl

theorem emits_writeLine (text : String) :
    Emits (writeLine text) (.ok ()) (text ++ "\n").toUTF8.data :=
  emits_write _

section Bind

variable {action : Console α} {f : α → Console β} {bytes rest : Array UInt8}

theorem bind_run (action : Console α) (f : α → Console β) (sink : Sink) :
    (action >>= f).run.run sink = match action.run.run sink with
      | (.ok a, sink) => (f a).run.run sink
      | (.error error, sink) => (.error error, sink) := by
  rw [ExceptT.run_bind, StateT.run_bind]
  generalize action.run.run sink = after
  obtain ⟨ending, sink⟩ := after
  cases ending <;> rfl

/-- One computation after another writes the bytes of both. -/
theorem Emits.bind {a : α} {result : Except Error β} (h : action.Emits (.ok a) bytes)
    (hf : (f a).Emits result rest) : (action >>= f).Emits result (bytes ++ rest) := by
  intro sink hsink
  rw [bind_run, h sink hsink, Sink.fits_append hsink]
  cases hfits : sink.fits bytes with
  | false => simp [Sink.put_append_of_not_fits hfits]
  | true =>
    simp only [if_true, Bool.true_and]
    rw [hf _ (hsink.put bytes), Sink.put_put]

/-- Nothing is written after a failure. -/
theorem Emits.bind_error {error : Error} (h : action.Emits (.error error) bytes) :
    (action >>= f).Emits (.error error) bytes := by
  intro sink hsink
  rw [bind_run, h sink hsink]
  cases sink.fits bytes <;> rfl

/-- A second computation that writes nothing decides the ending only. -/
theorem Emits.bind_silent {a : α} {result : Except Error β} (h : action.Emits (.ok a) bytes)
    (hf : (f a).Emits result #[]) : (action >>= f).Emits result bytes := by
  have hboth := h.bind hf
  rwa [Array.append_empty] at hboth

theorem emits_writeLine_pure (text : String) (a : α) :
    Emits (do writeLine text; return a) (.ok a) (text ++ "\n").toUTF8.data :=
  (emits_writeLine text).bind_silent (emits_pure a)

end Bind

theorem Emits.run_unlimited {action : Console α} {result : Except Error α} {bytes : Array UInt8}
    (h : action.Emits result bytes) : action.run.run (.empty none) = (result, ⟨none, bytes⟩) := by
  rw [h _ (Sink.within_empty none)]
  simp [Sink.empty, Sink.fits, Sink.put, Sink.fitting]

/-- In a limited sink the computation ends as in an unlimited one, or with the first bytes that the
sink holds and a failure. -/
theorem Emits.run_bounded {action : Console α} {result : Except Error α} {bytes : Array UInt8}
    (h : action.Emits result bytes) (capacity : Nat) :
    action.run.run (.empty (some capacity)) = if bytes.size ≤ capacity then
      (result, ⟨some capacity, bytes⟩)
    else (.error (.stream .bufferFull), ⟨some capacity, bytes.take capacity⟩) := by
  have hput : (Sink.empty (some capacity)).put bytes = ⟨some capacity, bytes.take capacity⟩ := by
    simp [Sink.empty, Sink.put, Sink.fitting]
  have hfits : (Sink.empty (some capacity)).fits bytes = decide (bytes.size ≤ capacity) := by
    simp [Sink.empty, Sink.fits]
  rw [h _ (Sink.within_empty (some capacity)), hput, hfits]
  by_cases hsize : bytes.size ≤ capacity
  · have htake : bytes.take capacity = bytes := by
      rw [Array.take, Array.extract_eq_self_of_le hsize]
    rw [if_pos (decide_eq_true hsize), if_pos hsize, htake]
  · rw [if_neg (by simpa using hsize), if_neg hsize]

end Console

end LineCalculator
