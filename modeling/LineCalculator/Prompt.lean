import LineCalculator.Session.Command

namespace LineCalculator.Prompt

inductive SearchStatus where
  | passing
  | failing
  deriving DecidableEq, Repr

def left : String :=
  ""

def right : String :=
  ""

def indicator : String :=
  promptText

def multiline : String :=
  "... "

def search (status : SearchStatus) (term : String) : String :=
  let failing := match status with
    | .passing => ""
    | .failing => "failing "
  "(" ++ failing ++ "reverse-search: " ++ term ++ ") "

end LineCalculator.Prompt
