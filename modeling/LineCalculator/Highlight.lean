import LineCalculator.Session.Command
import LineCalculator.Token.Scan

namespace LineCalculator

inductive Role where
  | command
  | number
  | operator
  | gap
  | invalid
  deriving DecidableEq, Repr

def Role.colour : Role → String
  | .command => "LightBlue"
  | .number => "Yellow"
  | .operator => "DarkGray"
  | .gap => "White"
  | .invalid => "Red"

structure Part where
  role : Role
  text : String
  deriving DecidableEq, Repr

namespace Highlight

def roleOf : TokenKind → Role
  | .number _ => .number
  | .operator _ => .operator
  | .endOfInput => .gap

def gap (start stop : Nat) : List (Role × Span) :=
  if start < stop then [(.gap, ⟨start, stop⟩)] else []

/-- The spans of the tokens and of the gaps around them, from byte `cursor` to byte `size`. -/
def spans (size : Nat) (cursor : Nat) : List Token → List (Role × Span)
  | [] => gap cursor size
  | token :: rest =>
    gap cursor token.span.start ++
      (roleOf token.kind, token.span) :: spans size token.span.stop rest

def part? (line : List Char) (role : Role) (span : Span) : Option Part :=
  (sliceBytes? line span.start span.stop).map fun text => ⟨role, String.ofList text⟩

/-- The parts of a line. A command and a line that cannot be read are one part each. -/
def parts (line : String) : List Part :=
  let text := line.toList
  if (Command.ofText? (trimSeparators text)).isSome then [⟨.command, line⟩]
  else match TokenStream.scan text with
  | .error _ => [⟨.invalid, line⟩]
  | .ok stream =>
    (spans (byteLength text) 0 stream.body).filterMap fun (role, span) => part? text role span

end Highlight

end LineCalculator
