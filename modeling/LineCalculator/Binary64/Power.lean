import LineCalculator.Binary64.Enclosure

/-!
Real powers of binary64 values. Zeros, infinities, NaN and negative bases follow the special cases
of IEEE 754. The accuracy of the other powers is not specified: a platform's power function may be
off in the last place. Here they are rounded once, either from the exact power or from an enclosure
of it that is narrow enough to leave one candidate.
-/
namespace LineCalculator.Binary64

/-- Whole exponents up to this size are powered exactly and rounded once. -/
def exactPowerLimit : Nat := 64

def workingPrecisions : List Nat := [128, 256, 512, 1024, 2048]

def scaledOfRank (rank : Nat) : Scaled :=
  ⟨significand rank, (scale rank : Int) - 1074⟩

def powerEnclosure (precision base : Nat) (reciprocal : Bool) (exponent : Nat) : Enclosure :=
  let x := Enclosure.point (scaledOfRank base)
  let x := if reciprocal then x.inv precision else x
  -- The exponent is split into its whole part and its 1074 binary places.
  (x.pow precision (exponent / unitsPerOne)).mul precision
    (x.powFraction precision 1074 (exponent % unitsPerOne))

/-- The rank of the power, from the first working precision whose enclosure leaves one candidate. If
the last precision still leaves two, it is the lower one. -/
def enclosedPowerRank (base : Nat) (reciprocal : Bool) (exponent : Nat) : Nat :=
  let decided := workingPrecisions.findSome? fun precision =>
    (powerEnclosure precision base reciprocal exponent).nearestRank?
  decided.getD (powerEnclosure 2048 base reciprocal exponent).lower.nearestRank

def exactPowerRank (base : Nat) (reciprocal : Bool) (exponent : Nat) : Nat :=
  let power := Nat.pow (units base) exponent
  let powerOfOne := Nat.pow unitsPerOne exponent
  if reciprocal then nearestRank (powerOfOne * unitsPerOne) power
  else nearestRank (power * unitsPerOne) powerOfOne

/-- The rank of a power of the positive magnitude with rank `base`. The exponent has the magnitude
with rank `exponent` and is negative for a `reciprocal` power. -/
def powerRank (base : Nat) (reciprocal : Bool) (exponent : Nat) : Nat :=
  let size := units exponent
  if size % unitsPerOne = 0 ∧ size / unitsPerOne ≤ exactPowerLimit then
    exactPowerRank base reciprocal (size / unitsPerOne)
  else enclosedPowerRank base reciprocal size

def isInteger : Binary64 → Bool
  | .finite _ rank => units rank % unitsPerOne == 0
  | _ => false

def isOddInteger : Binary64 → Bool
  | .finite _ rank => units rank % unitsPerOne == 0 && units rank / unitsPerOne % 2 == 1
  | _ => false

def rankOne : Nat := 0x3FF0000000000000

/-- The power `a ^ b`, where the exponent zero and the base one give one even beside a NaN. Beside the
special cases and the powers that are values themselves, another power function may differ from this
one in the last place. -/
def pow (a b : Binary64) : Binary64 :=
  if b.isZero || a == one then one
  else match a, b with
  | .nan, _ | _, .nan => .nan
  | .infinity s, b =>
    let negative := s && b.isOddInteger
    if b.isNegative then zero negative else .infinity negative
  | .finite _ base, .infinity t =>
    if base.val = rankOne then one
    else if decide (base.val < rankOne) == t then .infinity false
    else zero false
  | .finite s base, .finite t exponent =>
    let b := Binary64.finite t exponent
    let negative := s && b.isOddInteger
    if base.val = 0 then if t then .infinity negative else zero negative
    else if s && !b.isInteger then .nan
    else if base.val = rankOne then .finite negative base
    else ofRank negative (powerRank base t exponent)

end LineCalculator.Binary64
