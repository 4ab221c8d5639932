import LineCalculator.Binary64.Rounding

/-!
Enclosures of positive real numbers between two scaled natural numbers. Products, inverses and
square roots round the lower end down and the upper end up to a working precision, so the exact
value stays between the ends; where an end needs no rounding it is exact.
-/
namespace LineCalculator.Binary64

/-- The real number `mantissa * 2 ^ exponent`. -/
structure Scaled where
  mantissa : Nat
  exponent : Int
  deriving DecidableEq, Repr

namespace Scaled

def one : Scaled :=
  ⟨1, 0⟩

def mul (x y : Scaled) : Scaled :=
  ⟨x.mantissa * y.mantissa, x.exponent + y.exponent⟩

def excess (precision : Nat) (x : Scaled) : Nat :=
  x.mantissa.log2 + 1 - precision

def roundDown (precision : Nat) (x : Scaled) : Scaled :=
  let k := x.excess precision
  ⟨x.mantissa >>> k, x.exponent + k⟩

def roundUp (precision : Nat) (x : Scaled) : Scaled :=
  let k := x.excess precision
  ⟨(x.mantissa + ((1 <<< k) - 1)) >>> k, x.exponent + k⟩

def inverseShift (precision : Nat) (x : Scaled) : Nat :=
  precision + x.mantissa.log2 + 1

def invDown (precision : Nat) (x : Scaled) : Scaled :=
  let k := x.inverseShift precision
  ⟨(1 <<< k) / x.mantissa, -x.exponent - k⟩

def invUp (precision : Nat) (x : Scaled) : Scaled :=
  let k := x.inverseShift precision
  ⟨((1 <<< k) + (x.mantissa - 1)) / x.mantissa, -x.exponent - k⟩

/-- Newton's iteration for the square root from a guess that is not below it: it falls until it
reaches the greatest number whose square is not above `n`. -/
def sqrtFrom (n guess : Nat) : Nat :=
  let next := (guess + n / guess) / 2
  if next < guess then sqrtFrom n next else guess
termination_by guess

def floorSqrt (n : Nat) : Nat :=
  if n = 0 then 0 else sqrtFrom n (1 <<< (n.log2 / 2 + 1))

/-- The mantissa under the root when the value is written with an even exponent and `2 * precision`
more bits. -/
def radicand (precision : Nat) (x : Scaled) : Nat :=
  x.mantissa <<< (2 * precision + (x.exponent % 2).toNat)

def sqrtDown (precision : Nat) (x : Scaled) : Scaled :=
  roundDown precision ⟨floorSqrt (x.radicand precision), x.exponent / 2 - precision⟩

def sqrtUp (precision : Nat) (x : Scaled) : Scaled :=
  let n := x.radicand precision
  let root := floorSqrt n
  roundUp precision ⟨if root * root = n then root else root + 1, x.exponent / 2 - precision⟩

/-- The rank of the magnitude nearest to the value. Values beyond either end of the finite range
are told by their exponent, before any bits are shifted. -/
def nearestRank (x : Scaled) : Nat :=
  let places := x.exponent + 1074
  if 2200 < places then finiteCount
  else if 0 ≤ places then Binary64.nearestRank (x.mantissa <<< places.toNat) 1
  else if places + x.mantissa.log2 + 2 < 0 then 0
  else Binary64.nearestRank x.mantissa (1 <<< (-places).toNat)

end Scaled

structure Enclosure where
  lower : Scaled
  upper : Scaled
  deriving DecidableEq, Repr

namespace Enclosure

def point (x : Scaled) : Enclosure :=
  ⟨x, x⟩

def mul (precision : Nat) (x y : Enclosure) : Enclosure :=
  ⟨(x.lower.mul y.lower).roundDown precision, (x.upper.mul y.upper).roundUp precision⟩

def inv (precision : Nat) (x : Enclosure) : Enclosure :=
  ⟨x.upper.invDown precision, x.lower.invUp precision⟩

def sqrt (precision : Nat) (x : Enclosure) : Enclosure :=
  ⟨x.lower.sqrtDown precision, x.upper.sqrtUp precision⟩

def pow (precision : Nat) (x : Enclosure) (n : Nat) : Enclosure :=
  if n = 0 then point .one
  else
    let root := pow precision x (n / 2)
    let square := mul precision root root
    if n % 2 = 1 then mul precision square x else square
termination_by n

/-- Encloses the powers with the exponent `n / 2 ^ places`, which is below one: each binary place
of the exponent contributes a factor under one more square root. -/
def powFraction (precision : Nat) (x : Enclosure) : Nat → Nat → Enclosure
  | 0, _ => point .one
  | places + 1, n =>
    if n = 0 then point .one
    else
      let rest := powFraction precision x places (n % (1 <<< places))
      sqrt precision (if 1 <<< places ≤ n then mul precision x rest else rest)

/-- The rank of the binary64 magnitude that is nearest to every number of the enclosure, if its two
ends agree on one. -/
def nearestRank? (x : Enclosure) : Option Nat :=
  let rank := x.lower.nearestRank
  if rank = x.upper.nearestRank then some rank else none

end Enclosure

end LineCalculator.Binary64
