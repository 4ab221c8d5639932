import LineCalculator.Binary64.Rounding

namespace LineCalculator

/-- The number `coefficient * 10 ^ exponent`. -/
structure Decimal where
  coefficient : Nat
  exponent : Int
  deriving DecidableEq, Repr

namespace Decimal

def nearestRank (d : Decimal) : Nat :=
  Binary64.nearestRank (d.coefficient * Nat.pow 10 d.exponent.toNat * Binary64.unitsPerOne)
    (Nat.pow 10 (-d.exponent).toNat)

def toBinary64 (d : Decimal) : Binary64 :=
  Binary64.ofRank false d.nearestRank

/-- The number with this coefficient and exponent, the zeros at the end of the coefficient moved
into the exponent. -/
def canonical (coefficient : Nat) (exponent : Int) : Decimal :=
  if coefficient = 0 then ⟨0, 0⟩
  else if coefficient % 10 = 0 then canonical (coefficient / 10) (exponent + 1)
  else ⟨coefficient, exponent⟩
termination_by coefficient

/-- The number whose digits are given, most significant first, with the last `places` of them after
the point. -/
def ofDigits (digits : List Nat) (places : Nat) : Decimal :=
  ⟨digits.foldl (fun value digit => 10 * value + digit) 0, -(places : Int)⟩

def digits (d : Decimal) : List Char :=
  Nat.toDigits 10 d.coefficient

def positional (d : Decimal) : List Char :=
  if 0 ≤ d.exponent then d.digits ++ List.replicate d.exponent.toNat '0'
  else
    let places := (-d.exponent).toNat
    let padded := List.replicate (places + 1 - d.digits.length) '0' ++ d.digits
    padded.take (padded.length - places) ++ '.' :: padded.drop (padded.length - places)

def mantissa (d : Decimal) : List Char :=
  match d.digits with
  | first :: second :: rest => first :: '.' :: second :: rest
  | digits => digits

def leadingExponent (d : Decimal) : Int :=
  d.exponent + d.digits.length - 1

end Decimal

end LineCalculator
