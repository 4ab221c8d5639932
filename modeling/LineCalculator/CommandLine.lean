import LineCalculator.Session.Run

namespace LineCalculator.CommandLine

def versionText : String :=
  "simple-calc 0.1.0\n"

def summaryText : String :=
  "Interactive calculator for `<number> <operator> <number>` expressions

Usage: simple-calc

Options:
  -h, --help     Print help (see more with '--help')
  -V, --version  Print version
"

def manualText : String :=
  "Interactive calculator for `<number> <operator> <number>` expressions.

Reads one expression per line from standard input. Type `help` at the prompt for the supported operators and `q` to quit.

Usage: simple-calc

Options:
  -h, --help
          Print help (see a summary with '-h')

  -V, --version
          Print version
"

inductive Request where
  | session
  | print (text : String)
  | reject (argument : String)
  deriving DecidableEq, Repr

/-- The request that the first argument decides. Joined short flags act one after the other, and a
long flag is named without the value joined to it. -/
def Request.ofArguments : List String → Request
  | [] => .session
  | ["--"] => .session
  | "--" :: argument :: _ => .reject argument
  | "--help" :: _ => .print manualText
  | "--version" :: _ => .print versionText
  | argument :: _ =>
    match argument.toList with
    | '-' :: '-' :: name => .reject (String.ofList ('-' :: '-' :: name.takeWhile (· != '=')))
    | '-' :: 'h' :: _ => .print summaryText
    | '-' :: 'V' :: _ => .print versionText
    | '-' :: flag :: _ => .reject (String.ofList ['-', flag])
    | _ => .reject argument

def rejection (argument : String) : String :=
  "error: unexpected argument '" ++ argument ++ "' found

Usage: simple-calc

For more information, try '--help'.
"

structure Result where
  output : Array UInt8
  errors : String
  code : UInt8

def Request.result? : Request → Option Result
  | .print text => some ⟨text.toUTF8.data, "", 0⟩
  | .reject argument => some ⟨#[], rejection argument, 2⟩
  | .session => none

/-- The result of a session. One that fails says so, and still exits with code zero. -/
def Result.ofSession (ending : Except Error Unit) (output : Array UInt8) : Result :=
  match ending with
  | .ok () => ⟨output, "", 0⟩
  | .error error => ⟨output, error.message ++ "\n", 0⟩

def run (arguments : List String) (input : List UInt8) : Result :=
  match (Request.ofArguments arguments).result? with
  | some result => result
  | none =>
    let (ending, output) := Session.run none input
    .ofSession ending output

end LineCalculator.CommandLine
