/-!
Decimal digits of all scripts. A class of digits is made of runs of ten consecutive code points
that stand for zero to nine. Runs may touch, so the value of a digit is found by counting back over
all members directly before it and reducing the count modulo ten.
-/
namespace LineCalculator

/-- The number of members directly before the code point `n`. The count stops below zero and at a
surrogate, which is no character. -/
def membersBefore (member : Char → Bool) : Nat → Nat
  | 0 => 0
  | n + 1 =>
    if h : n.isValidChar then
      if member (Char.ofNatAux n h) then membersBefore member n + 1 else 0
    else 0

def placeInRun (member : Char → Bool) (c : Char) : Nat :=
  membersBefore member c.toNat % 10

def digitValueIn? (member : Char → Bool) (c : Char) : Option Nat :=
  if member c then some (placeInRun member c) else none

/-- The code points of the zeros of Unicode's decimal digits, general category Nd. -/
def digitZeros : List Nat :=
  [0x30, 0x660, 0x6F0, 0x7C0, 0x966, 0x9E6, 0xA66, 0xAE6, 0xB66, 0xBE6, 0xC66, 0xCE6, 0xD66, 0xDE6,
    0xE50, 0xED0, 0xF20, 0x1040, 0x1090, 0x17E0, 0x1810, 0x1946, 0x19D0, 0x1A80, 0x1A90, 0x1B50,
    0x1BB0, 0x1C40, 0x1C50, 0xA620, 0xA8D0, 0xA900, 0xA9D0, 0xA9F0, 0xAA50, 0xABF0, 0xFF10, 0x104A0,
    0x10D30, 0x10D40, 0x11066, 0x110F0, 0x11136, 0x111D0, 0x112F0, 0x11450, 0x114D0, 0x11650,
    0x116C0, 0x116D0, 0x116DA, 0x11730, 0x118E0, 0x11950, 0x11BF0, 0x11C50, 0x11D50, 0x11DA0,
    0x11F50, 0x16130, 0x16A60, 0x16AC0, 0x16B50, 0x16D70, 0x1CCF0, 0x1D7CE, 0x1D7D8, 0x1D7E2,
    0x1D7EC, 0x1D7F6, 0x1E140, 0x1E2F0, 0x1E4F0, 0x1E5F1, 0x1E950, 0x1FBF0]

def isDecimalDigit (c : Char) : Bool :=
  digitZeros.any fun first => decide (first ≤ c.toNat ∧ c.toNat < first + 10)

def digitValue (c : Char) : Nat :=
  placeInRun isDecimalDigit c

def digitValue? (c : Char) : Option Nat :=
  digitValueIn? isDecimalDigit c

end LineCalculator
