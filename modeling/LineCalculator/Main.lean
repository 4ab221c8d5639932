import LineCalculator.CommandLine

namespace LineCalculator.CommandLine

def emit {α : Type} (action : Console α) : ExceptT Error IO α := do
  let (result, sink) := action.run.run (.empty none)
  let output ← IO.getStdout
  output.write ⟨sink.written⟩
  output.flush
  ExceptT.mk (pure result)

/-- The next line of standard input with its newline; it is empty at the end of the input. -/
partial def nextLine (line : ByteArray) : IO ByteArray := do
  let input ← IO.getStdin
  let byte ← input.read 1
  let line := line ++ byte
  if byte.isEmpty || byte.data.contains 10 then return line else nextLine line

-- Standard input need not end, so this loop alone may go on forever; its turns are those of a
-- session over input that is all there.
partial def converse : ExceptT Error IO Unit := do
  emit Session.ask
  let line ← nextLine .empty
  Session.turn emit line.toList fun _ => converse

def finish (result : Result) : IO UInt32 := do
  let output ← IO.getStdout
  output.write ⟨result.output⟩
  output.flush
  IO.eprint result.errors
  return result.code.toUInt32

def program (arguments : List String) : IO UInt32 := do
  match (Request.ofArguments arguments).result? with
  | some result => finish result
  | none =>
    let ending ← (do emit Session.greet; converse : ExceptT Error IO Unit).run
    -- The output has been sent while the session went on.
    finish (.ofSession ending #[])

end LineCalculator.CommandLine

def main (arguments : List String) : IO UInt32 :=
  LineCalculator.CommandLine.program arguments
