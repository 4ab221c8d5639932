import LineCalculator.Binary64.Basic

/-!
Rounding of an exact magnitude to the nearest binary64 value, ties to even. Every operation of the
library that rounds does so here, from an exact quotient of natural numbers.
-/
namespace LineCalculator.Binary64

def divHalfEven (num den : Nat) : Nat :=
  let quotient := num / den
  let twice := 2 * (num % den)
  if twice < den then quotient
  else if den < twice then quotient + 1
  else quotient + quotient % 2

/-- The rank of the magnitude nearest to `num / den` units. The quotient is rounded on the grid of
its own binade; a carry into the next binade is a carry of the rank. A rank that is not below
`finiteCount` stands for an overflow. -/
def nearestRank (num den : Nat) : Nat :=
  -- Dividing by `2 ^ scale` leaves 53 bits before the point, or all bits of a subnormal value.
  let scale := (num / den).log2 - 52
  (scale <<< 52) + divHalfEven num (den <<< scale)

def ofRank (negative : Bool) (rank : Nat) : Binary64 :=
  if h : rank < finiteCount then .finite negative ⟨rank, h⟩ else .infinity negative

def ofRatio (negative : Bool) (num den : Nat) : Binary64 :=
  ofRank negative (nearestRank num den)

/-- The value nearest to a signed number of units; an exact zero takes the given sign. -/
def ofUnits (zeroNegative : Bool) (value : Int) : Binary64 :=
  if value = 0 then zero zeroNegative else ofRatio (decide (value < 0)) value.natAbs 1

end LineCalculator.Binary64
