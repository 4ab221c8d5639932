import LineCalculator.Binary64.Arithmetic
import LineCalculator.Binary64.Power
import LineCalculator.Proofs.Binary64.Ranks
import Mathlib.Algebra.Order.Ring.Int

namespace LineCalculator.Binary64

/-- The value is the whole number `n`. Both zeros are the whole number zero. -/
def IsInt (a : Binary64) (n : Int) : Prop :=
  ∃ negative rank, a = .finite negative rank ∧ signedUnits negative rank = n * unitsPerOne

theorem natAbs_signedUnits (negative : Bool) (rank : Nat) :
    (signedUnits negative rank).natAbs = units rank := by
  cases negative <;> simp [signedUnits]

/-- A finite value is rounded to itself, but a zero takes the given sign. -/
theorem ofUnits_signedUnits (zeroNegative negative : Bool) (rank : Fin finiteCount) :
    ofUnits zeroNegative (signedUnits negative rank) =
      if rank.val = 0 then zero zeroNegative else .finite negative rank := by
  have hnat := natAbs_signedUnits negative rank
  by_cases hzero : rank.val = 0
  · have hvalue : signedUnits negative rank = 0 := by
      rw [← Int.natAbs_eq_zero, hnat, hzero, units_zero]
    rw [ofUnits, if_pos hvalue, if_pos hzero]
  · have hpos : 0 < units rank := Nat.pos_of_ne_zero (units_eq_zero_iff.not.mpr hzero)
    have hvalue : signedUnits negative rank ≠ 0 := by
      rw [← Int.natAbs_ne_zero, hnat]
      exact hpos.ne'
    have hsign : decide (signedUnits negative rank < 0) = negative := by
      cases negative <;> simp [signedUnits, hpos]
    rw [ofUnits, if_neg hvalue, if_neg hzero, hsign, hnat, ofRatio, nearestRank_units, ofRank,
      dif_pos rank.isLt]

/-- A magnitude under a sign that fits is the signed value. -/
theorem signedUnits_eq {negative : Bool} {rank : Nat} {value : Int}
    (h : units rank = value.natAbs) (hneg : negative = true → value ≤ 0)
    (hpos : negative = false → 0 ≤ value) : signedUnits negative rank = value := by
  rw [signedUnits, h]
  cases negative with
  | false =>
    have hvalue := hpos rfl
    simp only [Bool.false_eq_true, if_false]
    omega
  | true =>
    have hvalue := hneg rfl
    simp only [if_true]
    omega

theorem units_eq_of_signedUnits {negative : Bool} {rank : Nat} {n : Int}
    (h : signedUnits negative rank = n * unitsPerOne) : units rank = n.natAbs * unitsPerOne := by
  rw [← natAbs_signedUnits negative, h, Int.natAbs_mul, Int.natAbs_natCast]

theorem unitsPerOne_ne_zero : (unitsPerOne : Int) ≠ 0 := by
  exact_mod_cast unitsPerOne_pos.ne'

/-- A set sign belongs to a whole number that is not positive, a clear one to one that is not
negative. -/
theorem sign_of_signedUnits {negative : Bool} {rank : Nat} {n : Int}
    (h : signedUnits negative rank = n * unitsPerOne) :
    (negative = true → n ≤ 0) ∧ (negative = false → 0 ≤ n) := by
  have hpos : (0 : Int) < unitsPerOne := by exact_mod_cast unitsPerOne_pos
  constructor
  · rintro rfl
    have hle : n * (unitsPerOne : Int) ≤ 0 := by simp [← h, signedUnits]
    exact nonpos_of_mul_nonpos_left hle hpos
  · rintro rfl
    have hle : 0 ≤ n * (unitsPerOne : Int) := by simp [← h, signedUnits]
    exact nonneg_of_mul_nonneg_left hle hpos

/-- Every whole number up to `2 ^ 53` is a finite magnitude. -/
theorem exists_rank_of_le {m : Nat} (hm : m ≤ 2 ^ 53) :
    ∃ rank : Fin finiteCount, units rank = m * unitsPerOne := by
  have hunits : ∃ rank, units rank = m * 2 ^ 1074 := by
    -- The bound itself needs 54 bits, but it is a power of two.
    rcases hm.lt_or_eq with hlt | rfl
    · exact exists_units_eq m 1074 hlt
    · obtain ⟨rank, hrank⟩ := exists_units_eq 1 (53 + 1074) (by decide)
      exact ⟨rank, by rw [hrank, pow_add, Nat.one_mul]⟩
  obtain ⟨rank, hrank⟩ := hunits
  refine ⟨⟨rank, lt_finiteCount_of_units_lt ?_⟩, by rw [hrank, unitsPerOne_eq]⟩
  calc units rank = m * 2 ^ 1074 := hrank
    _ ≤ 2 ^ 53 * 2 ^ 1074 := Nat.mul_le_mul_right _ hm
    _ < 2 ^ 52 * 2 ^ 2046 := by
      rw [← pow_add, ← pow_add]
      exact pow_lt_pow_right₀ Nat.one_lt_two (by decide)

section Exact

variable {num den m : Nat} (negative : Bool)

/-- A quotient that is a whole number is not rounded. -/
theorem ofRatio_eq (hm : m ≤ 2 ^ 53) (hden : 0 < den) (h : num = m * unitsPerOne * den) :
    ∃ rank, ofRatio negative num den = .finite negative rank ∧ units rank = m * unitsPerOne := by
  obtain ⟨rank, hrank⟩ := exists_rank_of_le hm
  have hnum : num = units rank * den := by rw [h, hrank]
  refine ⟨rank, ?_, hrank⟩
  rw [ofRatio, nearestRank_eq_of_units hden hnum, ofRank, dif_pos rank.isLt]

theorem signedUnits_bne (s t : Bool) {a b c d : Nat} (h : units a * d = units b * units c) :
    signedUnits (s != t) a * d = signedUnits s b * signedUnits t c := by
  have hcast : (units a : Int) * d = units b * units c := by exact_mod_cast h
  cases s <;> cases t <;> simp [signedUnits, hcast]

end Exact

theorem isInt_ofUnits (zeroNegative : Bool) {n : Int} (hn : n.natAbs ≤ 2 ^ 53) :
    IsInt (ofUnits zeroNegative (n * unitsPerOne)) n := by
  rcases eq_or_ne n 0 with rfl | hne
  · exact ⟨zeroNegative, ⟨0, by decide⟩, by simp [ofUnits, zero], by
      cases zeroNegative <;> simp [signedUnits]⟩
  · have hvalue : n * (unitsPerOne : Int) ≠ 0 := mul_ne_zero hne unitsPerOne_ne_zero
    have hnat : (n * (unitsPerOne : Int)).natAbs = n.natAbs * unitsPerOne * 1 := by
      rw [Int.natAbs_mul, Int.natAbs_natCast, Nat.mul_one]
    obtain ⟨rank, hrank, hunits⟩ := ofRatio_eq (decide (n * (unitsPerOne : Int) < 0)) hn
      Nat.one_pos hnat
    refine ⟨_, rank, by rw [ofUnits, if_neg hvalue, hrank], ?_⟩
    apply signedUnits_eq (by rw [hunits, hnat, Nat.mul_one])
    · intro hsign
      exact (of_decide_eq_true hsign).le
    · intro hsign
      exact not_lt.mp (of_decide_eq_false hsign)

theorem isInt_zero (negative : Bool) : IsInt (zero negative) 0 :=
  ⟨negative, ⟨0, by decide⟩, rfl, by cases negative <;> simp [signedUnits]⟩

theorem units_rankOne : units rankOne = unitsPerOne := by
  have hrank : rankOne = (1022 + 1) * binadeSize + 0 := by decide
  rw [hrank, units_normal 1022 0 (by decide), Nat.add_zero, binadeSize_eq, ← pow_add,
    unitsPerOne_eq]

theorem isInt_one : IsInt one 1 :=
  ⟨false, _, rfl, by
    rw [signedUnits, if_neg (by decide), one_mul]
    exact_mod_cast units_rankOne⟩

namespace IsInt

variable {a b : Binary64} {m n : Int}

theorem isFinite (h : IsInt a n) : a.isFinite = true := by
  obtain ⟨negative, rank, rfl, -⟩ := h
  rfl

theorem isZero_iff (h : IsInt a n) : a.isZero = true ↔ n = 0 := by
  obtain ⟨negative, rank, rfl, hunits⟩ := h
  have hrank := units_eq_of_signedUnits hunits
  have hpos := unitsPerOne_pos
  rw [isZero, beq_iff_eq, ← units_eq_zero_iff, hrank, Nat.mul_eq_zero, Int.natAbs_eq_zero]
  omega

theorem lt_zero_iff (h : IsInt a n) : a < zero false ↔ n < 0 := by
  have hzero := h.isZero_iff
  obtain ⟨negative, rank, rfl, hunits⟩ := h
  have hpos : (0 : Int) < unitsPerOne := by exact_mod_cast unitsPerOne_pos
  have hsign : n < 0 ↔ signedUnits negative rank < 0 := by
    rw [hunits, ← Int.mul_lt_mul_right hpos, zero_mul]
  have hrank : (0 : Int) < units rank ↔ (rank : Nat) ≠ 0 := by
    have hiff : units rank = 0 ↔ (rank : Nat) = 0 := units_eq_zero_iff
    omega
  rw [hsign]
  change lt _ _ = true ↔ _
  cases negative with
  | false =>
    have hplace : ¬ (rank.val : Int) < 0 := by omega
    have hnonneg : ¬ (units rank : Int) < 0 := by omega
    simp [lt, place?, zero, signedUnits, hplace, hnonneg]
  | true =>
    simp only [lt, place?, zero, signedUnits, if_true, Bool.false_eq_true, if_false,
      Nat.cast_zero, decide_eq_true_eq, Left.neg_neg_iff, hrank]
    omega

theorem neg (h : IsInt a n) : IsInt (-a) (-n) := by
  obtain ⟨negative, rank, rfl, hunits⟩ := h
  refine ⟨!negative, rank, rfl, ?_⟩
  rw [neg_mul, ← hunits]
  cases negative <;> simp [signedUnits]

theorem add (ha : IsInt a m) (hb : IsInt b n) (h : (m + n).natAbs ≤ 2 ^ 53) :
    IsInt (a + b) (m + n) := by
  obtain ⟨s, rank, rfl, hm⟩ := ha
  obtain ⟨t, rank', rfl, hn⟩ := hb
  have hsum : signedUnits s rank + signedUnits t rank' = (m + n) * unitsPerOne := by
    rw [hm, hn, add_mul]
  change IsInt (ofUnits (s && t) (signedUnits s rank + signedUnits t rank')) (m + n)
  rw [hsum]
  exact isInt_ofUnits _ h

theorem sub (ha : IsInt a m) (hb : IsInt b n) (h : (m - n).natAbs ≤ 2 ^ 53) :
    IsInt (a - b) (m - n) := by
  rw [sub_eq_add_neg] at h ⊢
  exact ha.add hb.neg h

theorem mul (ha : IsInt a m) (hb : IsInt b n) (h : (m * n).natAbs ≤ 2 ^ 53) :
    IsInt (a * b) (m * n) := by
  obtain ⟨s, rank, rfl, hm⟩ := ha
  obtain ⟨t, rank', rfl, hn⟩ := hb
  have hnum : units rank * units rank' = (m * n).natAbs * unitsPerOne * unitsPerOne := by
    rw [units_eq_of_signedUnits hm, units_eq_of_signedUnits hn, Int.natAbs_mul]
    ring
  obtain ⟨product, hproduct, hunits⟩ := ofRatio_eq (s != t) h unitsPerOne_pos hnum
  refine ⟨s != t, product, hproduct, ?_⟩
  have hsign := signedUnits_bne s t (a := product) (b := rank) (c := rank') (d := unitsPerOne)
    (by rw [hunits, hnum])
  apply mul_right_cancel₀ unitsPerOne_ne_zero
  rw [hsign, hm, hn]
  ring

/-- A division without a remainder is exact. -/
theorem div (ha : IsInt a (m * n)) (hb : IsInt b n) (hn : n ≠ 0) (h : m.natAbs ≤ 2 ^ 53) :
    IsInt (a / b) m := by
  have hzero := hb.isZero_iff.not.mpr hn
  obtain ⟨s, rank, rfl, hm⟩ := ha
  obtain ⟨t, rank', rfl, hunits'⟩ := hb
  replace hzero : rank'.val ≠ 0 := by simpa [isZero] using hzero
  have hpos : 0 < units rank' := Nat.pos_of_ne_zero (units_eq_zero_iff.not.mpr hzero)
  have hnum : units rank * unitsPerOne = m.natAbs * unitsPerOne * units rank' := by
    rw [units_eq_of_signedUnits hm, units_eq_of_signedUnits hunits', Int.natAbs_mul]
    ring
  obtain ⟨quotient, hquotient, hunits⟩ := ofRatio_eq (s != t) h hpos hnum
  refine ⟨s != t, quotient, ?_, ?_⟩
  · change (if rank'.val = 0 then _ else _) = _
    rw [if_neg hzero]
    exact hquotient
  · have hproduct := signedUnits_bne (s != t) t (d := unitsPerOne) (a := rank) (b := quotient)
      (c := rank') (by rw [hunits, hnum])
    have hsign : ((s != t) != t) = s := by cases s <;> cases t <;> rfl
    rw [hsign, hm, hunits'] at hproduct
    apply mul_right_cancel₀ (mul_ne_zero hn unitsPerOne_ne_zero)
    rw [← hproduct]
    ring

/-- The exact remainder takes the sign of the dividend. -/
theorem truncatedRem (ha : IsInt a m) (hb : IsInt b n) (hn : n ≠ 0) (h : m.natAbs ≤ 2 ^ 53) :
    IsInt (truncatedRem a b) (m.tmod n) := by
  have hzero := hb.isZero_iff.not.mpr hn
  obtain ⟨s, rank, rfl, hm⟩ := ha
  obtain ⟨t, rank', rfl, hunits'⟩ := hb
  replace hzero : rank'.val ≠ 0 := by simpa [isZero] using hzero
  have hnum : units rank % units rank' = (m.natAbs % n.natAbs) * unitsPerOne * 1 := by
    rw [units_eq_of_signedUnits hm, units_eq_of_signedUnits hunits', Nat.mul_mod_mul_right,
      Nat.mul_one]
  have hle : m.natAbs % n.natAbs ≤ 2 ^ 53 := (Nat.mod_le _ _).trans h
  obtain ⟨rem, hrem, hunits⟩ := ofRatio_eq s hle Nat.one_pos hnum
  refine ⟨s, rem, ?_, ?_⟩
  · change (if rank'.val = 0 then _ else _) = _
    rw [if_neg hzero]
    exact hrem
  -- The sign is that of the dividend even when the remainder is zero.
  · have hnat : units rem = (m.tmod n * (unitsPerOne : Int)).natAbs := by
      rw [hunits, Int.natAbs_mul, Int.natAbs_tmod, Int.natAbs_natCast]
    have hpos : (0 : Int) ≤ unitsPerOne := Int.natCast_nonneg _
    obtain ⟨hneg, hnonneg⟩ := sign_of_signedUnits hm
    apply signedUnits_eq hnat
    · intro hs
      have hrem := Int.tmod_nonneg n (Int.neg_nonneg_of_nonpos (hneg hs))
      rw [Int.neg_tmod] at hrem
      exact mul_nonpos_of_nonpos_of_nonneg (Int.nonpos_of_neg_nonneg hrem) hpos
    · intro hs
      exact mul_nonneg (Int.tmod_nonneg n (hnonneg hs)) hpos

theorem floor (ha : IsInt a n) (h : n.natAbs ≤ 2 ^ 53) : IsInt a.floor n := by
  obtain ⟨s, rank, rfl, hn⟩ := ha
  change IsInt (ofUnits s (signedUnits s rank / unitsPerOne * unitsPerOne)) n
  rw [hn, Int.mul_ediv_cancel _ unitsPerOne_ne_zero]
  exact isInt_ofUnits s h

theorem not_half_lt (ha : IsInt a 0) : ¬ half < a := by
  have hzero := ha.isZero_iff.mpr rfl
  obtain ⟨s, rank, rfl, -⟩ := ha
  replace hzero : rank.val = 0 := by simpa [isZero] using hzero
  change ¬ lt _ _ = true
  simp [lt, place?, half, hzero]

end IsInt

end LineCalculator.Binary64
