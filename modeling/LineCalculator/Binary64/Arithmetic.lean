import LineCalculator.Binary64.Rounding

namespace LineCalculator.Binary64

/-- The correctly rounded sum. An exact zero sum is negative only when both terms are. -/
def add : Binary64 → Binary64 → Binary64
  | .nan, _ | _, .nan => .nan
  | .infinity s, .infinity t => if s = t then .infinity s else .nan
  | .infinity s, .finite _ _ => .infinity s
  | .finite _ _, .infinity t => .infinity t
  | .finite s a, .finite t b => ofUnits (s && t) (signedUnits s a + signedUnits t b)

instance : Add Binary64 := ⟨add⟩

def sub (a b : Binary64) : Binary64 :=
  a + -b

instance : Sub Binary64 := ⟨sub⟩

def mul : Binary64 → Binary64 → Binary64
  | .nan, _ | _, .nan => .nan
  | .infinity s, .infinity t => .infinity (s != t)
  | .infinity s, .finite t b => if b.val = 0 then .nan else .infinity (s != t)
  | .finite s a, .infinity t => if a.val = 0 then .nan else .infinity (s != t)
  | .finite s a, .finite t b => ofRatio (s != t) (units a * units b) unitsPerOne

instance : Mul Binary64 := ⟨mul⟩

def div : Binary64 → Binary64 → Binary64
  | .nan, _ | _, .nan => .nan
  | .infinity _, .infinity _ => .nan
  | .infinity s, .finite t _ => .infinity (s != t)
  | .finite s _, .infinity t => zero (s != t)
  | .finite s a, .finite t b =>
    if b.val = 0 then if a.val = 0 then .nan else .infinity (s != t)
    else ofRatio (s != t) (units a * unitsPerOne) (units b)

instance : Div Binary64 := ⟨div⟩

/-- The exact remainder of the quotient cut toward zero. It has the sign of the dividend. -/
def truncatedRem : Binary64 → Binary64 → Binary64
  | .nan, _ | _, .nan => .nan
  | .infinity _, _ => .nan
  | .finite s a, .infinity _ => .finite s a
  | .finite s a, .finite _ b =>
    if b.val = 0 then .nan else ofRatio s (units a % units b) 1

def floor : Binary64 → Binary64
  | .finite s a => ofUnits s (signedUnits s a / unitsPerOne * unitsPerOne)
  | a => a

/-- The floored quotient and remainder. The remainder takes the sign of the divisor. The quotient
is derived from the exact remainder and not from `a / b`, so the pair stays consistent when the
true quotient rounds up to a whole number. -/
def floorDivMod (a b : Binary64) : Binary64 × Binary64 :=
  let rem := truncatedRem a b
  -- `a - rem` is a multiple of `b` up to rounding, so `div` is close to a whole number.
  let div := (a - rem) / b
  let (div, rem) :=
    if rem.isZero then (div, zero b.isNegative)
    else if decide (b < zero false) != decide (rem < zero false) then (div - one, rem + b)
    else (div, rem)
  let quotient :=
    if div.isZero then zero (a / b).isNegative
    -- Rounding may have left `div` just below the whole number that is meant.
    else if half < div - div.floor then div.floor + one
    else div.floor
  (quotient, rem)

def floorDiv (a b : Binary64) : Binary64 :=
  (floorDivMod a b).1

def floorMod (a b : Binary64) : Binary64 :=
  (floorDivMod a b).2

end LineCalculator.Binary64
