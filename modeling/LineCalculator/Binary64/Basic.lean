/-!
IEEE 754 binary64 values. A finite magnitude is held by its rank among all finite magnitudes in
increasing order, which is also its bit pattern without the sign bit. Its exact value is a whole
number of units, one unit being the least positive magnitude, two to the power -1074.
-/
namespace LineCalculator

namespace Binary64

def binadeSize : Nat := 0x10000000000000

/-- The number of finite magnitudes, which is also the bit pattern of positive infinity. -/
def finiteCount : Nat := 0x7FF0000000000000

def unitsPerOne : Nat := 1 <<< 1074

end Binary64

/-- A binary64 value. The two zeros are distinct; all NaN patterns are one value. -/
inductive Binary64 where
  | nan
  | infinity (negative : Bool)
  | finite (negative : Bool) (rank : Fin Binary64.finiteCount)
  deriving DecidableEq, Repr

namespace Binary64

def significand (rank : Nat) : Nat :=
  if rank < binadeSize then rank else binadeSize + rank % binadeSize

def scale (rank : Nat) : Nat :=
  rank / binadeSize - 1

/-- The exact magnitude with this rank, in units. -/
def units (rank : Nat) : Nat :=
  significand rank <<< scale rank

def signedUnits (negative : Bool) (rank : Nat) : Int :=
  if negative then -(units rank : Int) else units rank

def zero (negative : Bool) : Binary64 :=
  .finite negative ⟨0, by decide⟩

def half : Binary64 :=
  .finite false ⟨0x3FE0000000000000, by decide⟩

def one : Binary64 :=
  .finite false ⟨0x3FF0000000000000, by decide⟩

def isZero : Binary64 → Bool
  | .finite _ rank => rank.val == 0
  | _ => false

def isFinite : Binary64 → Bool
  | .finite _ _ => true
  | _ => false

def isNegative : Binary64 → Bool
  | .nan => false
  | .infinity negative => negative
  | .finite negative _ => negative

def neg : Binary64 → Binary64
  | .nan => .nan
  | .infinity negative => .infinity (!negative)
  | .finite negative rank => .finite (!negative) rank

instance : Neg Binary64 := ⟨neg⟩

/-- The place on the line of non-NaN values, which is shared by the two zeros. Ranks grow with
magnitudes, so places compare as values do. -/
def place? : Binary64 → Option Int
  | .nan => none
  | .infinity negative => some (if negative then -(finiteCount : Int) else finiteCount)
  | .finite negative rank => some (if negative then -(rank.val : Int) else rank.val)

def lt (a b : Binary64) : Bool :=
  match a.place?, b.place? with
  | some x, some y => decide (x < y)
  | _, _ => false

instance : LT Binary64 := ⟨fun a b => lt a b = true⟩

instance (a b : Binary64) : Decidable (a < b) :=
  inferInstanceAs (Decidable (lt a b = true))

/-- The bit pattern; every NaN has the pattern of the quiet one without payload. -/
def toBits : Binary64 → UInt64
  | .nan => 0x7FF8000000000000
  | .infinity negative => UInt64.ofNat (if negative then 0xFFF0000000000000 else finiteCount)
  | .finite negative rank =>
    UInt64.ofNat (if negative then 0x8000000000000000 + rank.val else rank.val)

def ofBits (bits : UInt64) : Binary64 :=
  let negative := decide (0x8000000000000000 ≤ bits.toNat)
  let rank := bits.toNat % 0x8000000000000000
  if h : rank < finiteCount then .finite negative ⟨rank, h⟩
  else if rank = finiteCount then .infinity negative
  else .nan

theorem isZero_iff {a : Binary64} :
    a.isZero = true ↔ a = .zero false ∨ a = .zero true := by
  cases a with
  | nan => simp [isZero, zero]
  | infinity negative => simp [isZero, zero]
  | finite negative rank =>
    obtain ⟨rank, hrank⟩ := rank
    cases negative <;> simp [isZero, zero]

/-- A value is found again in its bit pattern. -/
@[simp]
theorem ofBits_toBits (a : Binary64) : ofBits a.toBits = a := by
  cases a with
  | nan => decide
  | infinity negative => cases negative <;> decide
  | finite negative rank =>
    have hrank := rank.isLt
    simp only [finiteCount] at hrank
    cases negative
    · have hbits : (UInt64.ofNat rank.val).toNat = rank.val := by
        simp only [UInt64.toNat_ofNat']
        omega
      have hmod : rank.val % 0x8000000000000000 = rank.val := by omega
      have hsign : ¬ 0x8000000000000000 ≤ rank.val := by omega
      simp [ofBits, toBits, hbits, hmod, hsign]
    · have hword : (0x8000000000000000 + rank.val) % 0x10000000000000000 =
          0x8000000000000000 + rank.val := by omega
      have hmod : (0x8000000000000000 + rank.val) % 0x8000000000000000 = rank.val := by omega
      simp [ofBits, toBits, hword, hmod]

end Binary64

end LineCalculator
