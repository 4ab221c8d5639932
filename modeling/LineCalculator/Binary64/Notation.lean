import LineCalculator.Decimal.Shortest

namespace LineCalculator.Binary64

def signText (negative : Bool) : List Char :=
  if negative then ['-'] else []

/-- The text of a value whose finite magnitudes are written by `magnitude`. -/
def render (magnitude : Nat → List Char) : Binary64 → String
  | .nan => "NaN"
  | .infinity negative => String.ofList (signText negative ++ ['i', 'n', 'f'])
  | .finite negative rank => String.ofList (signText negative ++ magnitude rank)

/-- The rank of one ten-thousandth; results below it are written in scientific notation. -/
def smallLimit : Nat :=
  Decimal.nearestRank ⟨1, -4⟩

/-- The rank from which log records use scientific notation. -/
def largeLimit : Nat :=
  Decimal.nearestRank ⟨1, 16⟩

def plainText (a : Binary64) : String :=
  a.render fun rank => (Decimal.shortest rank).positional

def twoDigits (n : Nat) : List Char :=
  if n < 10 then '0' :: Nat.toDigits 10 n else Nat.toDigits 10 n

def exponentText (exponent : Int) : List Char :=
  (if exponent < 0 then '-' else '+') :: twoDigits exponent.natAbs

/-- The magnitude of a result: whole values in full, values below one ten-thousandth in scientific
notation, and other values without an exponent. -/
def resultMagnitude (rank : Nat) : List Char :=
  if units rank % unitsPerOne = 0 then Nat.toDigits 10 (units rank / unitsPerOne)
  else
    let d := Decimal.shortest rank
    if rank < smallLimit then d.mantissa ++ 'e' :: exponentText d.leadingExponent
    else d.positional

def resultText (a : Binary64) : String :=
  if a.isZero then "0" else a.render resultMagnitude

/-- The magnitude of a result in a log record: scientific notation outside the range from one
ten-thousandth to `10 ^ 16`, and a fraction even for whole values inside it. -/
def recordMagnitude (rank : Nat) : List Char :=
  let d := Decimal.shortest rank
  if rank ≠ 0 ∧ (rank < smallLimit ∨ largeLimit ≤ rank) then
    d.mantissa ++ 'e' :: (signText (decide (d.leadingExponent < 0)) ++
      Nat.toDigits 10 d.leadingExponent.natAbs)
  else if d.exponent < 0 then d.positional
  else d.positional ++ ['.', '0']

def recordText (a : Binary64) : String :=
  a.render recordMagnitude

end LineCalculator.Binary64
