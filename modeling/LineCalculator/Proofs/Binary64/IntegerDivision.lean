import LineCalculator.Proofs.Binary64.Integers

namespace LineCalculator.Binary64

/-- The whole number that a computed quotient is meant to be. -/
def settle (zeroNegative : Bool) (div : Binary64) : Binary64 :=
  if div.isZero then zero zeroNegative
  else if half < div - div.floor then div.floor + one
  else div.floor

/-- Floored division by the three cases of the remainder: none, one of the wrong sign, and one of
the sign of the divisor. -/
theorem floorDivMod_eq (a b : Binary64) : floorDivMod a b =
    let rem := truncatedRem a b
    let div := (a - rem) / b
    let zeroNegative := (a / b).isNegative
    if rem.isZero then (settle zeroNegative div, zero b.isNegative)
    else if decide (b < zero false) != decide (rem < zero false) then
      (settle zeroNegative (div - one), rem + b)
    else (settle zeroNegative div, rem) := by
  unfold floorDivMod settle
  dsimp only
  split
  · rfl
  · split <;> rfl

theorem sub_tmod_eq (m n : Int) : m - m.tmod n = m.tdiv n * n := by
  have h := Int.tdiv_mul_add_tmod m n
  omega

section Correction

variable {m n : Int}

theorem fdiv_fmod_of_tmod_eq_zero (h : m.tmod n = 0) : m.fdiv n = m.tdiv n ∧ m.fmod n = 0 := by
  have hdvd : n ∣ m := Int.dvd_of_tmod_eq_zero h
  exact ⟨by rw [Int.fdiv_eq_ediv_of_dvd hdvd, Int.tdiv_eq_ediv_of_dvd hdvd],
    Int.fmod_eq_zero_of_dvd hdvd⟩

/-- A quotient and a remainder with the sign of the divisor are the floored ones. -/
theorem fdiv_fmod_eq {q r : Int} (hn : n ≠ 0) (heq : q * n + r = m)
    (hr : 0 ≤ r ∧ r < n ∨ n < r ∧ r ≤ 0) : m.fdiv n = q ∧ m.fmod n = r := by
  have hq : m.fdiv n = q := by
    rw [← heq, Int.add_comm, Int.add_mul_fdiv_right _ _ hn]
    rcases hr with ⟨h0, hlt⟩ | ⟨hlt, h0⟩
    · rw [Int.fdiv_eq_zero_of_lt h0 hlt, Int.zero_add]
    · rw [← Int.neg_fdiv_neg, Int.fdiv_eq_zero_of_lt (by omega) (by omega), Int.zero_add]
  refine ⟨hq, ?_⟩
  rw [Int.fmod_def, hq, ← heq]
  ring

theorem natAbs_tmod_lt (m : Int) (hn : n ≠ 0) : (m.tmod n).natAbs < n.natAbs := by
  rw [Int.natAbs_tmod]
  exact Nat.mod_lt _ (Int.natAbs_pos.mpr hn)

/-- A truncated remainder with the sign of the divisor is the floored one. -/
theorem fdiv_fmod_of_same_sign (hn : n ≠ 0) (h : n < 0 ↔ m.tmod n < 0) :
    m.fdiv n = m.tdiv n ∧ m.fmod n = m.tmod n := by
  have hlt := natAbs_tmod_lt m hn
  exact fdiv_fmod_eq hn (Int.tdiv_mul_add_tmod m n) (by omega)

/-- A truncated remainder that points away from the divisor is one divisor off. -/
theorem fdiv_fmod_of_other_sign (hn : n ≠ 0) (hzero : m.tmod n ≠ 0)
    (h : ¬ (n < 0 ↔ m.tmod n < 0)) :
    m.fdiv n = m.tdiv n - 1 ∧ m.fmod n = m.tmod n + n := by
  have hlt := natAbs_tmod_lt m hn
  have hsum := Int.tdiv_mul_add_tmod m n
  apply fdiv_fmod_eq hn
  · rw [Int.sub_mul]
    omega
  · omega

/-- The two quotients differ only where none of them is positive. -/
theorem tdiv_nonpos_of_fdiv_lt (h : m.fdiv n < m.tdiv n) : m.tdiv n ≤ 0 := by
  rcases le_total 0 m with hm | hm <;> rcases le_total 0 n with hn | hn
  · rw [Int.fdiv_eq_tdiv_of_nonneg hm hn] at h
    exact absurd h (lt_irrefl _)
  · exact Int.tdiv_nonpos_of_nonneg_of_nonpos hm hn
  · rw [← Int.neg_tdiv_neg]
    exact Int.tdiv_nonpos_of_nonneg_of_nonpos (by omega) (by omega)
  · rw [← Int.neg_fdiv_neg, ← Int.neg_tdiv_neg m n,
      Int.fdiv_eq_tdiv_of_nonneg (by omega) (by omega)] at h
    exact absurd h (lt_irrefl _)

theorem fmod_bounds (m : Int) (hn : n ≠ 0) :
    0 ≤ m.fmod n ∧ m.fmod n < n ∨ n < m.fmod n ∧ m.fmod n ≤ 0 := by
  rcases lt_or_gt_of_ne hn with hneg | hpos
  · have hnonneg := Int.fmod_nonneg_of_pos (-m) (show 0 < -n by omega)
    have hlt := Int.fmod_lt_of_pos (-m) (show 0 < -n by omega)
    rw [Int.neg_fmod_neg] at hnonneg hlt
    omega
  · exact .inl ⟨Int.fmod_nonneg_of_pos m hpos, Int.fmod_lt_of_pos m hpos⟩

end Correction

namespace IsInt

variable {a b : Binary64} {m n : Int}

theorem settle (ha : IsInt a n) (h : n.natAbs ≤ 2 ^ 53) (zeroNegative : Bool) :
    IsInt (settle zeroNegative a) n := by
  unfold Binary64.settle
  by_cases hzero : a.isZero = true
  · obtain rfl := ha.isZero_iff.mp hzero
    rw [if_pos hzero]
    exact isInt_zero zeroNegative
  · have hfloor := ha.floor h
    -- A whole number is its own floor, so it is not taken one step further up.
    have hdiff : IsInt (a - a.floor) 0 := by
      simpa using ha.sub hfloor (by simp)
    rw [if_neg hzero, if_neg hdiff.not_half_lt]
    exact hfloor

/-- Floored division of whole numbers is exact. -/
theorem floorDivMod (ha : IsInt a m) (hb : IsInt b n) (hn : n ≠ 0) (hm : m.natAbs ≤ 2 ^ 53)
    (hn' : n.natAbs ≤ 2 ^ 53) :
    IsInt (floorDivMod a b).1 (m.fdiv n) ∧ IsInt (floorDivMod a b).2 (m.fmod n) := by
  have hrem := ha.truncatedRem hb hn hm
  have htdiv : (m.tdiv n).natAbs ≤ 2 ^ 53 := (Int.natAbs_tdiv_le_natAbs m n).trans hm
  have hfdiv : (m.fdiv n).natAbs ≤ 2 ^ 53 := (Int.natAbs_fdiv_le_natAbs m n).trans hm
  -- The dividend without its remainder is a multiple of the divisor, so the quotient is exact.
  have hdiff : IsInt (a - Binary64.truncatedRem a b) (m.tdiv n * n) := by
    rw [← sub_tmod_eq]
    apply ha.sub hrem
    rw [sub_tmod_eq, Int.natAbs_mul, Int.natAbs_tdiv]
    exact (Nat.div_mul_le_self _ _).trans hm
  have hdiv := hdiff.div hb hn htdiv
  rw [floorDivMod_eq]
  dsimp only
  by_cases hzero : (Binary64.truncatedRem a b).isZero = true
  · rw [if_pos hzero]
    obtain ⟨hq, hr⟩ := fdiv_fmod_of_tmod_eq_zero (hrem.isZero_iff.mp hzero)
    rw [hq, hr]
    exact ⟨hdiv.settle htdiv _, isInt_zero _⟩
  rw [if_neg hzero]
  have hne : m.tmod n ≠ 0 := hrem.isZero_iff.not.mp hzero
  have hlt := natAbs_tmod_lt m hn
  by_cases hsign :
      (decide (b < zero false) != decide (Binary64.truncatedRem a b < zero false)) = true
  -- The remainder points away from the divisor: one more step down.
  · rw [if_pos hsign]
    simp only [hb.lt_zero_iff, hrem.lt_zero_iff, bne_iff_ne, ne_eq, decide_eq_decide] at hsign
    obtain ⟨hq, hr⟩ := fdiv_fmod_of_other_sign hn hne hsign
    rw [hq] at hfdiv ⊢
    rw [hr]
    exact ⟨(hdiv.sub isInt_one hfdiv).settle hfdiv _, hrem.add hb (by omega)⟩
  · rw [if_neg hsign]
    simp only [hb.lt_zero_iff, hrem.lt_zero_iff, bne_iff_ne, ne_eq, decide_eq_decide,
      Decidable.not_not] at hsign
    obtain ⟨hq, hr⟩ := fdiv_fmod_of_same_sign hn hsign
    rw [hq, hr]
    exact ⟨hdiv.settle htdiv _, hrem⟩

end IsInt

end LineCalculator.Binary64
