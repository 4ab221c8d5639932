import LineCalculator.Session.Dispatch

/-!
A session over piped input: a banner, then a prompt and an answer for every line, until a line
quits, a stream fails or the input ends.
-/
namespace LineCalculator.Session

/-- The bytes up to the first newline, which belongs to the line. Without a newline all bytes are
one line. -/
def firstLine (input : List UInt8) : List UInt8 :=
  match input.dropWhile (· != 10) with
  | [] => input
  | newline :: _ => input.takeWhile (· != 10) ++ [newline]

/-- A line and the bytes after it make up the input. -/
theorem firstLine_append_drop (input : List UInt8) :
    firstLine input ++ input.drop (firstLine input).length = input := by
  unfold firstLine
  split
  · simp
  · rename_i newline rest hrest
    have hinput : input = input.takeWhile (· != 10) ++ newline :: rest := by
      rw [← hrest, List.takeWhile_append_dropWhile]
    generalize input.takeWhile (· != 10) = before at hinput
    simp [hinput]

def greet : Console Unit :=
  Console.writeLine banner

def ask : Console Unit :=
  Console.write promptText

def farewell : Console Unit :=
  Console.writeLine ("\n" ++ exiting)

/-- Answers a line of bytes. A line that is not UTF-8 breaks the session. -/
def answer (line : List UInt8) : Console Control :=
  match String.fromUTF8? line.toByteArray with
  | none => throw (.stream .invalidUtf8)
  | some text => handleLine text

/-- What follows a line: the farewell after no bytes, otherwise the answer and, unless it quits, the
rest of the session. -/
def turn {m : Type → Type} [Monad m] (emit : {α : Type} → Console α → m α) (line : List UInt8)
    (rest : line ≠ [] → m Unit) : m Unit := do
  if h : line = [] then emit farewell
  else match ← emit (answer line) with
    | .quit => return
    | .proceed => rest h

/-- Asks for lines and answers them until the session ends. No bytes in a line mean that there are
none left. -/
def converse (input : List UInt8) : Console Unit := do
  ask
  turn (fun action => action) (firstLine input) fun _ =>
    converse (input.drop (firstLine input).length)
termination_by input.length
decreasing_by
  have hpos := List.length_pos_iff.mpr ‹firstLine input ≠ []›
  have hlength := congrArg List.length (firstLine_append_drop input)
  rw [List.length_append] at hlength
  omega

def session (input : List UInt8) : Console Unit := do
  greet
  converse input

def run (capacity : Option Nat) (input : List UInt8) : Except Error Unit × Array UInt8 :=
  let (ending, sink) := (session input).run.run (.empty capacity)
  (ending, sink.written)

end LineCalculator.Session
