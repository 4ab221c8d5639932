import LineCalculator.Session.Run
import Mathlib.Data.List.TakeWhile

namespace LineCalculator.Session

/-- The input cut after every newline byte. A rest without a newline is the last line. -/
def cutLines : List UInt8 → List (List UInt8)
  | [] => []
  | byte :: rest =>
    if byte = 10 then [byte] :: cutLines rest
    else match cutLines rest with
    | [] => [[byte]]
    | line :: lines => (byte :: line) :: lines

theorem firstLine_newline (rest : List UInt8) : firstLine (10 :: rest) = [10] := by
  simp [firstLine]

theorem firstLine_cons {byte : UInt8} (h : byte ≠ 10) (rest : List UInt8) :
    firstLine (byte :: rest) = byte :: firstLine rest := by
  have hdrop : (byte :: rest).dropWhile (· != 10) = rest.dropWhile (· != 10) :=
    List.dropWhile_cons_of_pos (by simpa using h)
  have htake : (byte :: rest).takeWhile (· != 10) = byte :: rest.takeWhile (· != 10) :=
    List.takeWhile_cons_of_pos (by simpa using h)
  unfold firstLine
  rw [hdrop, htake]
  split <;> rfl

theorem firstLine_eq_nil_iff {input : List UInt8} : firstLine input = [] ↔ input = [] := by
  cases input with
  | nil => simp [firstLine]
  | cons byte rest =>
    by_cases h : byte = 10
    · simp [h, firstLine_newline]
    · simp [firstLine_cons h]

/-- The first line and the lines of the bytes after it are the lines of the input. -/
theorem cutLines_eq {input : List UInt8} (h : input ≠ []) :
    cutLines input = firstLine input :: cutLines (input.drop (firstLine input).length) := by
  induction input with
  | nil => exact absurd rfl h
  | cons byte rest ih =>
    by_cases hbyte : byte = 10
    · subst hbyte
      simp [cutLines, firstLine_newline]
    · rw [cutLines, if_neg hbyte, firstLine_cons hbyte, List.length_cons, List.drop_succ_cons]
      cases rest with
      | nil => simp [cutLines, firstLine]
      | cons next rest => rw [ih (by simp)]

theorem cutLines_eq_nil_iff {input : List UInt8} : cutLines input = [] ↔ input = [] := by
  constructor
  · intro h
    by_contra hne
    simp [cutLines_eq hne] at h
  · rintro rfl
    rfl

/-- A newline parts the lines before it from those after it. -/
theorem cutLines_append_newline (body tail : List UInt8) :
    cutLines (body ++ 10 :: tail) = cutLines (body ++ [10]) ++ cutLines tail := by
  induction body with
  | nil => simp [cutLines]
  | cons byte body ih =>
    by_cases hbyte : byte = 10
    · simp [hbyte, cutLines, ih]
    · rw [List.cons_append, List.cons_append, cutLines, cutLines, if_neg hbyte, if_neg hbyte, ih]
      cases hlines : cutLines (body ++ [10]) with
      | nil => simp [cutLines_eq_nil_iff] at hlines
      | cons line lines => rfl

example : cutLines [65, 10, 10, 66] = [[65, 10], [10], [66]] := by decide

end LineCalculator.Session
