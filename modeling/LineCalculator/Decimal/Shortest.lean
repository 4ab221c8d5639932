import LineCalculator.Decimal.Basic

/-!
The shortest decimal of a binary64 magnitude: the fewest significant digits that round to it and,
among the decimals of that length which do, the nearest one.
-/
namespace LineCalculator.Decimal

/-- The place of the first digit of a positive magnitude: it is at least ten to the power one less
and below ten to this power. -/
def leadingPlace (rank : Nat) : Int :=
  -- The least magnitude is above ten to the power -324, so one digit at least is left of the point.
  let scaled := Binary64.units rank * Nat.pow 10 324 / Binary64.unitsPerOne
  ((Nat.toDigits 10 scaled).length : Int) - 324

def choose? (lowerNearer : Bool) : List Decimal → Option Decimal
  | [] => none
  | [d] => some d
  | lower :: upper :: _ => some (if lowerNearer then lower else upper)

/-- The neighbour of the magnitude on the grid of multiples of `10 ^ exponent` that rounds to it.
If both do, it is the nearer one, and the upper one of two equally near. -/
def onGrid? (rank : Nat) (exponent : Int) : Option Decimal :=
  let num := Binary64.units rank * Nat.pow 10 (-exponent).toNat
  let den := Binary64.unitsPerOne * Nat.pow 10 exponent.toNat
  let neighbours : List Decimal := [⟨num / den, exponent⟩, ⟨num / den + 1, exponent⟩]
  choose? (decide (2 * (num % den) < den)) (neighbours.filter (·.nearestRank == rank))

def unitPlaces : Nat := 1074

def exact (rank : Nat) : Decimal :=
  ⟨Binary64.units rank * Nat.pow 5 unitPlaces, -(unitPlaces : Int)⟩

/-- The shortest decimal of the magnitude with this rank. Seventeen digits always suffice. -/
def shortest (rank : Nat) : Decimal :=
  let place := leadingPlace rank
  let found := (List.range 17).findSome? fun (n : Nat) => onGrid? rank (place - 1 - n)
  let decimal := found.getD (exact rank)
  canonical decimal.coefficient decimal.exponent

end LineCalculator.Decimal
