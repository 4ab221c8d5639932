import LineCalculator.Text.Lowercase
import LineCalculator.Text.Separator

namespace LineCalculator

inductive Command where
  | quit
  | help
  deriving DecidableEq, Repr

namespace Command

def quitWords : List String :=
  ["q", "quit", "exit"]

def helpWord : String :=
  "help"

def ofWord? (word : String) : Option Command :=
  if quitWords.contains word then some .quit
  else if word = helpWord then some .help
  else none

/-- The command in a text without surrounding separators. Letter case does not matter. -/
def ofText? (text : List Char) : Option Command :=
  ofWord? (String.ofList (lowercase text))

end Command

def banner : String :=
  "Simple Calculator - type 'help' for instructions, 'q' to quit."

def promptText : String :=
  ">>> "

def goodbye : String :=
  "Goodbye."

def exiting : String :=
  "Exiting."

def helpText : String :=
  "Simple Calculator (CLI)

Usage:
  - Enter expressions in the form: <number> <operator> <number>
    Examples:
      2 + 3
      10 - 4.5
      7 * 8
      9 / 2
      9 // 2
      10 % 3
      2 ** 8

  - Operators:
      +   addition
      -   subtraction
      *   multiplication
      /   division
      //  floor division
      %   modulo (takes the sign of the divisor)
      **  exponentiation

  - Commands:
      help  -> show this help
      q     -> quit (also: quit, exit)

Notes:
  - Supports integers and decimals, including negatives
  - Gracefully handles division by zero and invalid inputs
"

end LineCalculator
