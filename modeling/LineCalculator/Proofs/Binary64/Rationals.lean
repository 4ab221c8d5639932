import LineCalculator.Proofs.Binary64.Integers
import LineCalculator.Proofs.Binary64.Nearest
import Mathlib.Data.Rat.Floor
import Mathlib.Tactic.FieldSimp
import Mathlib.Tactic.Linarith
import Mathlib.Tactic.Positivity

namespace LineCalculator.Binary64

/-- The rational number with this sign and rank. Ranks go on without end, so it may lie beyond the
finite values. -/
def ratio (negative : Bool) (rank : Nat) : ℚ :=
  (signedUnits negative rank : ℚ) / unitsPerOne

/-- The exact value of a finite number. Infinities and NaN have none and are given zero. -/
def toRat : Binary64 → ℚ
  | .finite negative rank => ratio negative rank
  | _ => 0

/-- No rank of either sign is nearer to `x`, and one that is as near is even. -/
structure IsNearestRatio (x : ℚ) (negative : Bool) (rank : Nat) : Prop where
  nearest : ∀ s r, |x - ratio negative rank| ≤ |x - ratio s r|
  even : ∀ s r, ratio s r ≠ ratio negative rank →
    |x - ratio s r| = |x - ratio negative rank| → rank % 2 = 0

/-- The value is `x` rounded to nearest, ties to even. It is infinite where the nearest rank lies
beyond the finite ones. -/
def RoundsTo (x : ℚ) (a : Binary64) : Prop :=
  ∃ negative rank, a = ofRank negative rank ∧ IsNearestRatio x negative rank

theorem unitsPerOne_cast_pos : (0 : ℚ) < unitsPerOne := by
  exact_mod_cast unitsPerOne_pos

theorem ratio_false (rank : Nat) : ratio false rank = units rank / unitsPerOne := by
  simp [ratio, signedUnits]

theorem ratio_true (rank : Nat) : ratio true rank = -(units rank / unitsPerOne) := by
  simp [ratio, signedUnits, neg_div]

theorem abs_ratio (negative : Bool) (rank : Nat) :
    |ratio negative rank| = units rank / unitsPerOne := by
  have hnonneg : (0 : ℚ) ≤ units rank / unitsPerOne := by positivity
  cases negative with
  | false => rw [ratio_false, abs_of_nonneg hnonneg]
  | true => rw [ratio_true, abs_neg, abs_of_nonneg hnonneg]

@[simp]
theorem ratio_zero (negative : Bool) : ratio negative 0 = 0 := by
  cases negative <;> simp [ratio, signedUnits]

theorem ratio_not (negative : Bool) (rank : Nat) :
    ratio (!negative) rank = -ratio negative rank := by
  cases negative <;> simp [ratio_false, ratio_true]

theorem cast_dist (m n : Nat) : (Nat.dist m n : ℚ) = |(m : ℚ) - n| := by
  rcases le_total m n with h | h
  · rw [Nat.dist_eq_sub_of_le h, Nat.cast_sub h, abs_sub_comm, abs_of_nonneg]
    exact sub_nonneg.mpr (by exact_mod_cast h)
  · rw [Nat.dist_eq_sub_of_le_right h, Nat.cast_sub h, abs_of_nonneg]
    exact sub_nonneg.mpr (by exact_mod_cast h)

def signedQuotient (negative : Bool) (num den : Nat) : ℚ :=
  (if negative then -(num : ℚ) else num) / (den * unitsPerOne)

section Nearest

variable {num den rank : Nat} {negative : Bool}

theorem abs_signedQuotient (negative : Bool) (num den : Nat) :
    |signedQuotient negative num den| = num / (den * unitsPerOne) := by
  have hnonneg : (0 : ℚ) ≤ num / (den * unitsPerOne) := by positivity
  cases negative with
  | false => simp only [signedQuotient, Bool.false_eq_true, if_false, abs_of_nonneg hnonneg]
  | true => simp only [signedQuotient, if_true, neg_div, abs_neg, abs_of_nonneg hnonneg]

theorem dist_div_eq (hden : 0 < den) (rank : Nat) :
    (Nat.dist num (units rank * den) : ℚ) / (den * unitsPerOne) =
      |(num : ℚ) / (den * unitsPerOne) - units rank / unitsPerOne| := by
  have hden' : (0 : ℚ) < den := by exact_mod_cast hden
  have hunit := unitsPerOne_cast_pos
  have hcommon : (num : ℚ) / (den * unitsPerOne) - units rank / unitsPerOne =
      ((num : ℚ) - units rank * den) / (den * unitsPerOne) := by
    field_simp
  rw [hcommon, abs_div, abs_of_pos (mul_pos hden' hunit), cast_dist, Nat.cast_mul]

/-- The distance to the nearest magnitude of a quotient is not larger under other signs. -/
theorem dist_le_abs_sub (num : Nat) (hden : 0 < den) (negative s : Bool) (rank : Nat) :
    (Nat.dist num (units rank * den) : ℚ) / (den * unitsPerOne) ≤
      |signedQuotient negative num den - ratio s rank| := by
  rw [dist_div_eq hden, ← abs_signedQuotient negative, ← abs_ratio s]
  exact abs_abs_sub_abs_le _ _

theorem dist_eq_abs_sub (num : Nat) (hden : 0 < den) (negative : Bool) (rank : Nat) :
    (Nat.dist num (units rank * den) : ℚ) / (den * unitsPerOne) =
      |signedQuotient negative num den - ratio negative rank| := by
  rw [dist_div_eq hden]
  cases negative with
  | false => simp only [signedQuotient, ratio_false, Bool.false_eq_true, if_false]
  | true =>
    simp only [signedQuotient, ratio_true, if_true]
    rw [neg_div, ← abs_neg]
    congr 1
    ring

theorem IsNearest.isNearestRatio (hden : 0 < den) (h : IsNearest num den rank) (negative : Bool) :
    IsNearestRatio (signedQuotient negative num den) negative rank := by
  have hpos : (0 : ℚ) < den * unitsPerOne :=
    mul_pos (by exact_mod_cast hden) unitsPerOne_cast_pos
  have hnearest (s : Bool) (r : Nat) : |signedQuotient negative num den - ratio negative rank| ≤
      |signedQuotient negative num den - ratio s r| := by
    rw [← dist_eq_abs_sub num hden]
    refine le_trans ?_ (dist_le_abs_sub num hden negative s r)
    exact div_le_div_of_nonneg_right (by exact_mod_cast h.nearest r) hpos.le
  refine ⟨hnearest, ?_⟩
  intro s r hne hsame
  by_cases hr : r = rank
  -- The same magnitude under the other sign is as near only to zero, whose nearest rank is zero.
  · obtain rfl : s = !negative := by
      cases s <;> cases negative <;> simp_all
    have hzero := hnearest negative 0
    rw [hr, ratio_not] at hne hsame
    rw [ratio_zero] at hzero
    rcases abs_eq_abs.mp hsame with heq | heq
    · exact absurd (by linarith) hne
    · have hquotient : signedQuotient negative num den = 0 := by linarith
      rw [hquotient, sub_zero, abs_zero, zero_sub, abs_neg] at hzero
      have hratio : ratio negative rank = 0 := abs_nonpos_iff.mp hzero
      exact absurd (by rw [hratio, neg_zero]) hne
  · have hle := dist_le_abs_sub num hden negative s r
    rw [hsame, ← dist_eq_abs_sub num hden, div_le_div_iff_of_pos_right hpos] at hle
    exact h.even r hr (Nat.le_antisymm (by exact_mod_cast hle) (h.nearest r))

end Nearest

theorem isFinite_ofRank (negative : Bool) (rank : Nat) :
    (ofRank negative rank).isFinite = true ↔ rank < finiteCount := by
  unfold ofRank
  split <;> simp_all [isFinite]

theorem toRat_ofRank (negative : Bool) {rank : Nat} (h : rank < finiteCount) :
    (ofRank negative rank).toRat = ratio negative rank := by
  rw [ofRank, dif_pos h]
  rfl

theorem finite_eq_ofRank_iff {negative sign : Bool} {rank : Fin finiteCount} {r : Nat} :
    finite negative rank = ofRank sign r ↔ negative = sign ∧ rank.val = r := by
  unfold ofRank
  split
  · rw [finite.injEq, Fin.ext_iff]
  · rename_i hinfinite
    constructor
    · rintro ⟨⟩
    · rintro ⟨-, rfl⟩
      exact absurd rank.isLt hinfinite

theorem roundsTo_ofRatio (negative : Bool) (num : Nat) {den : Nat} (hden : 0 < den) :
    RoundsTo (signedQuotient negative num den) (ofRatio negative num den) :=
  ⟨negative, nearestRank num den, rfl,
    (nearestRank_isNearest num hden).isNearestRatio hden negative⟩

theorem roundsTo_ofUnits (zeroNegative : Bool) (value : Int) :
    RoundsTo (value / unitsPerOne) (ofUnits zeroNegative value) := by
  by_cases hvalue : value = 0
  · have hzero := roundsTo_ofRatio zeroNegative 0 Nat.one_pos
    have hrank : nearestRank 0 1 = 0 := by simpa using nearestRank_units 0
    rw [ofRatio, hrank] at hzero
    rw [ofUnits, if_pos hvalue, hvalue]
    have hquotient : signedQuotient zeroNegative 0 1 = ((0 : Int) : ℚ) / unitsPerOne := by
      simp [signedQuotient]
    rw [← hquotient]
    exact hzero
  · have hquotient : signedQuotient (decide (value < 0)) value.natAbs 1 = value / unitsPerOne := by
      have habs : ((value.natAbs : Int) : ℚ) = |(value : ℚ)| := by
        rw [Int.natCast_natAbs, Int.cast_abs]
      rw [Int.cast_natCast] at habs
      rw [signedQuotient, habs, Nat.cast_one, one_mul]
      rcases lt_or_ge value 0 with hneg | hnonneg
      · have hcast : (value : ℚ) < 0 := by exact_mod_cast hneg
        rw [if_pos (by simpa using hneg), abs_of_neg hcast, neg_neg]
      · have hcast : (0 : ℚ) ≤ value := by exact_mod_cast hnonneg
        rw [if_neg (by simpa using hnonneg), abs_of_nonneg hcast]
    rw [ofUnits, if_neg hvalue, ← hquotient]
    exact roundsTo_ofRatio _ _ Nat.one_pos

def IsRatio (x : ℚ) : Prop :=
  ∃ negative rank, x = ratio negative rank

theorem isRatio_toRat (a : Binary64) : IsRatio a.toRat := by
  cases a with
  | nan | infinity negative => exact ⟨false, 0, (ratio_zero false).symm⟩
  | finite negative rank => exact ⟨negative, rank, rfl⟩

theorem toRat_of_isZero {a : Binary64} (h : a.isZero = true) : a.toRat = 0 := by
  cases a with
  | nan | infinity negative => rfl
  | finite negative rank =>
    have hrank : rank.val = 0 := beq_iff_eq.mp h
    rw [toRat, hrank, ratio_zero]

theorem IsRatio.neg {x : ℚ} (h : IsRatio x) : IsRatio (-x) := by
  obtain ⟨negative, rank, rfl⟩ := h
  exact ⟨!negative, rank, (ratio_not negative rank).symm⟩

theorem IsRatio.abs {x : ℚ} (h : IsRatio x) : IsRatio |x| := by
  rcases abs_choice x with heq | heq
  · rwa [heq]
  · rw [heq]
    exact h.neg

/-- A signed number of units that is a magnitude is a ratio. -/
theorem isRatio_of_units {value : Int} {rank : Nat} (h : units rank = value.natAbs) :
    IsRatio (value / unitsPerOne) := by
  refine ⟨decide (value < 0), rank, ?_⟩
  rw [ratio, signedUnits_eq h]
  · intro hneg
    exact (of_decide_eq_true hneg).le
  · intro hnonneg
    exact not_lt.mp (of_decide_eq_false hnonneg)

/-- Numbers of at most 53 bits on the grid of a power of two are ratios. -/
theorem isRatio_grid {m : Int} (hm : m.natAbs ≤ 2 ^ 53) (e : Nat) :
    IsRatio (m * 2 ^ e / unitsPerOne) := by
  have hunits : ∃ rank, units rank = (m * 2 ^ e).natAbs := by
    have habs : (m * 2 ^ e).natAbs = m.natAbs * 2 ^ e := by
      rw [Int.natAbs_mul, Int.natAbs_pow]
      rfl
    rw [habs]
    rcases hm.lt_or_eq with hlt | heq
    · exact exists_units_eq m.natAbs e hlt
    · obtain ⟨rank, hrank⟩ := exists_units_eq 1 (53 + e) (by decide)
      exact ⟨rank, by rw [hrank, heq, pow_add, Nat.one_mul]⟩
  obtain ⟨rank, hrank⟩ := hunits
  have hratio := isRatio_of_units hrank
  rwa [Int.cast_mul, Int.cast_pow, Int.cast_ofNat] at hratio

section RoundsTo

variable {x w : ℚ} {a : Binary64}

variable (h : RoundsTo x a) (ha : a.isFinite = true)

include h ha

theorem RoundsTo.nearest (hw : IsRatio w) : |x - a.toRat| ≤ |x - w| := by
  obtain ⟨negative, rank, rfl, hnearest⟩ := h
  obtain ⟨s, r, rfl⟩ := hw
  rw [toRat_ofRank negative ((isFinite_ofRank _ _).mp ha)]
  exact hnearest.nearest s r

/-- Rounding does not cross a ratio. -/
theorem RoundsTo.le_toRat (hw : IsRatio w) (hle : w ≤ x) : w ≤ a.toRat := by
  by_contra hlt
  have hnearest := h.nearest ha hw
  rw [abs_of_nonneg (by linarith), abs_of_nonneg (by linarith)] at hnearest
  linarith

theorem RoundsTo.toRat_le (hw : IsRatio w) (hle : x ≤ w) : a.toRat ≤ w := by
  by_contra hlt
  have hnearest := h.nearest ha hw
  rw [abs_of_nonpos (by linarith), abs_of_nonpos (by linarith)] at hnearest
  linarith

theorem RoundsTo.toRat_eq (hx : IsRatio x) : a.toRat = x :=
  le_antisymm (h.toRat_le ha hx le_rfl) (h.le_toRat ha hx le_rfl)

theorem RoundsTo.abs_toRat_le (hw : IsRatio w) (hx : |x| ≤ |w|) : |a.toRat| ≤ |w| := by
  obtain ⟨hlow, hhigh⟩ := abs_le.mp hx
  exact abs_le.mpr ⟨h.le_toRat ha hw.abs.neg hlow, h.toRat_le ha hw.abs hhigh⟩

end RoundsTo

end LineCalculator.Binary64
