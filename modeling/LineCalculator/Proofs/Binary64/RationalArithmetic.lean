import LineCalculator.Proofs.Binary64.Rationals

namespace LineCalculator.Binary64

section Operations

variable {a b : Binary64}

theorem toRat_neg (a : Binary64) : (-a).toRat = -a.toRat := by
  cases a with
  | nan => exact neg_zero.symm
  | infinity negative => exact neg_zero.symm
  | finite negative rank => exact ratio_not negative rank

theorem isFinite_neg (a : Binary64) : (-a).isFinite = a.isFinite := by
  cases a <;> rfl

/-- A sum of finite values is the exact sum, rounded. -/
theorem roundsTo_add (ha : a.isFinite = true) (hb : b.isFinite = true) :
    RoundsTo (a.toRat + b.toRat) (a + b) := by
  cases a with
  | nan | infinity s => simp [isFinite] at ha
  | finite s rank =>
    cases b with
    | nan | infinity t => simp [isFinite] at hb
    | finite t rank' =>
      have hround := roundsTo_ofUnits (s && t) (signedUnits s rank + signedUnits t rank')
      rw [Int.cast_add, add_div] at hround
      exact hround

theorem roundsTo_sub (ha : a.isFinite = true) (hb : b.isFinite = true) :
    RoundsTo (a.toRat - b.toRat) (a - b) := by
  rw [sub_eq_add_neg, ← toRat_neg]
  exact roundsTo_add ha (by rwa [isFinite_neg])

/-- The quotient of units that a product of two magnitudes is rounded from. -/
theorem signedQuotient_mul (s t : Bool) (rank rank' : Nat) :
    signedQuotient (s != t) (units rank * units rank') unitsPerOne =
      ratio s rank * ratio t rank' := by
  have hunit := unitsPerOne_cast_pos
  cases s <;> cases t <;> simp [signedQuotient, ratio_false, ratio_true] <;> field_simp

theorem signedQuotient_div (s t : Bool) (rank : Nat) {divisor : Nat} (h : 0 < units divisor) :
    signedQuotient (s != t) (units rank * unitsPerOne) (units divisor) =
      ratio s rank / ratio t divisor := by
  have hunit := unitsPerOne_cast_pos
  have hden : (0 : ℚ) < units divisor := by exact_mod_cast h
  cases s <;> cases t <;> simp [signedQuotient, ratio_false, ratio_true] <;> field_simp

theorem div_finite_eq (s t : Bool) (rank divisor : Fin finiteCount) (h : divisor.val ≠ 0) :
    Binary64.finite s rank / Binary64.finite t divisor =
      ofRank (s != t) (nearestRank (units rank * unitsPerOne) (units divisor)) := by
  change (if divisor.val = 0 then _ else _) = _
  rw [if_neg h]
  rfl

/-- A quotient of finite values is the exact quotient, rounded. -/
theorem roundsTo_div (ha : a.isFinite = true) (hb : b.isFinite = true) (hzero : b.isZero = false) :
    RoundsTo (a.toRat / b.toRat) (a / b) := by
  cases a with
  | nan | infinity s => simp [isFinite] at ha
  | finite s rank =>
    cases b with
    | nan | infinity t => simp [isFinite] at hb
    | finite t divisor =>
      have hne : divisor.val ≠ 0 := by simpa [isZero] using hzero
      have hpos : 0 < units divisor := Nat.pos_of_ne_zero (units_eq_zero_iff.not.mpr hne)
      rw [div_finite_eq s t rank divisor hne]
      have hround := roundsTo_ofRatio (s != t) (units rank * unitsPerOne) hpos
      rw [signedQuotient_div s t rank hpos] at hround
      exact hround

end Operations

section Order

variable {a b : Binary64}

/-- Finite values compare as their exact values do. -/
theorem lt_iff_toRat_lt (ha : a.isFinite = true) (hb : b.isFinite = true) :
    a < b ↔ a.toRat < b.toRat := by
  have hunit := unitsPerOne_cast_pos
  have hmono (m n : Nat) : (units m : ℚ) / unitsPerOne < units n / unitsPerOne ↔ m < n := by
    rw [div_lt_div_iff_of_pos_right hunit, Nat.cast_lt, units_strictMono.lt_iff_lt]
  have hzero (n : Nat) : (units n : ℚ) / unitsPerOne = 0 ∧ n = 0 ∨
      0 < (units n : ℚ) / unitsPerOne ∧ 0 < n := by
    rcases Nat.eq_zero_or_pos n with rfl | hpos
    · simp
    · have hn := (hmono 0 n).mpr hpos
      rw [units_zero, Nat.cast_zero, zero_div] at hn
      exact .inr ⟨hn, hpos⟩
  cases a with
  | nan | infinity s => simp [isFinite] at ha
  | finite s r =>
    cases b with
    | nan | infinity t => simp [isFinite] at hb
    | finite t k =>
      change lt _ _ = true ↔ ratio s r < ratio t k
      have hr := hzero r
      have hk := hzero k
      have hrk := hmono r k
      have hkr := hmono k r
      cases s <;> cases t <;>
        simp only [lt, place?, ratio_false, ratio_true, Bool.false_eq_true, if_true, if_false,
          decide_eq_true_eq]
      · rw [hrk, Int.ofNat_lt]
      · constructor
        · omega
        · intro hlt
          obtain ⟨hr, -⟩ | ⟨hr, -⟩ := hr <;> obtain ⟨hk, -⟩ | ⟨hk, -⟩ := hk <;> linarith
      · obtain ⟨hr, hr'⟩ | ⟨hr, hr'⟩ := hr <;> obtain ⟨hk, hk'⟩ | ⟨hk, hk'⟩ := hk
        · simp [hr', hk']
        all_goals
          constructor
          · intro
            linarith
          · omega
      · rw [neg_lt_neg_iff, neg_lt_neg_iff, hkr, Int.ofNat_lt]

end Order

section Whole

variable {a : Binary64} {n : Int}

theorem isInt_iff_toRat : IsInt a n ↔ a.isFinite = true ∧ a.toRat = n := by
  have hunit : (unitsPerOne : ℚ) ≠ 0 := unitsPerOne_cast_pos.ne'
  constructor
  · rintro ⟨negative, rank, rfl, hunits⟩
    refine ⟨rfl, ?_⟩
    rw [toRat, ratio, hunits, Int.cast_mul, Int.cast_natCast, mul_div_cancel_right₀ _ hunit]
  · intro h
    cases a with
    | nan | infinity negative => simp [isFinite] at h
    | finite negative rank =>
      refine ⟨negative, rank, rfl, ?_⟩
      have hvalue := h.2
      rw [toRat, ratio, div_eq_iff hunit] at hvalue
      exact_mod_cast hvalue

theorem toRat_one : one.toRat = 1 := by
  simpa using (isInt_iff_toRat.mp isInt_one).2

theorem unitsPerOne_eq_two_mul : unitsPerOne = 2 * 2 ^ 1073 := by
  rw [unitsPerOne_eq, pow_succ']

theorem toRat_half : half.toRat = 1 / 2 := by
  have hrank : 0x3FE0000000000000 = (1021 + 1) * binadeSize + 0 := by decide
  have hunits : units 0x3FE0000000000000 = 2 ^ 1073 := by
    rw [hrank, units_normal 1021 0 (by decide), Nat.add_zero, binadeSize_eq, ← pow_add]
  have hunit : (unitsPerOne : ℚ) = 2 * 2 ^ 1073 := by
    rw [unitsPerOne_eq_two_mul, Nat.cast_mul, Nat.cast_pow, Nat.cast_ofNat]
  change ratio false 0x3FE0000000000000 = 1 / 2
  rw [ratio_false, hunits, hunit, Nat.cast_pow, Nat.cast_ofNat]
  field_simp

/-- A magnitude that is no whole number lies below `2 ^ 52`. -/
theorem units_lt_of_not_dvd {rank : Nat} (h : ¬ unitsPerOne ∣ units rank) :
    units rank < 2 ^ 52 * unitsPerOne := by
  have hsize : binadeSize = 2 ^ 52 := binadeSize_eq
  rcases rank_cases rank with hlt | ⟨exponent, fraction, hfraction, rfl⟩
  · rw [units_of_lt hlt, hsize.symm]
    exact hlt.trans_le (Nat.le_mul_of_pos_right _ unitsPerOne_pos)
  · rw [units_normal exponent fraction hfraction] at h ⊢
    -- A large power of two would make the magnitude whole.
    have hexponent : exponent < 1074 := by
      by_contra hlarge
      apply h
      rw [unitsPerOne_eq]
      exact (pow_dvd_pow 2 (not_lt.mp hlarge)).mul_left _
    have hscale : 2 * 2 ^ exponent ≤ unitsPerOne := by
      rw [unitsPerOne_eq, ← pow_succ']
      exact pow_le_pow_right₀ one_le_two hexponent
    calc (binadeSize + fraction) * 2 ^ exponent
        < 2 ^ 52 * 2 * 2 ^ exponent := Nat.mul_lt_mul_of_pos_right (by omega) (Nat.two_pow_pos _)
      _ = 2 ^ 52 * (2 * 2 ^ exponent) := Nat.mul_assoc _ _ _
      _ ≤ 2 ^ 52 * unitsPerOne := Nat.mul_le_mul_left _ hscale

theorem abs_toRat_lt_of_not_whole (ha : a.isFinite = true) (h : a.toRat ≠ ⌊a.toRat⌋) :
    |a.toRat| < 2 ^ 52 := by
  cases a with
  | nan | infinity negative => simp [isFinite] at ha
  | finite negative rank =>
    have hdvd : ¬ unitsPerOne ∣ units rank := by
      intro hdvd
      apply h
      obtain ⟨k, hk⟩ := Int.natCast_dvd.mpr (natAbs_signedUnits negative rank ▸ hdvd)
      have hvalue : (finite negative rank).toRat = (k : ℚ) := by
        rw [toRat, ratio, hk, Int.cast_mul, Int.cast_natCast,
          mul_div_cancel_left₀ _ unitsPerOne_cast_pos.ne']
      rw [hvalue, Int.floor_intCast]
    rw [toRat, abs_ratio, div_lt_iff₀ unitsPerOne_cast_pos]
    exact_mod_cast units_lt_of_not_dvd hdvd

/-- The floor of a finite value is exact. -/
theorem isInt_floor (ha : a.isFinite = true) : IsInt a.floor ⌊a.toRat⌋ := by
  cases a with
  | nan | infinity negative => simp [isFinite] at ha
  | finite negative rank =>
    have hfloor : ⌊(finite negative rank).toRat⌋ = signedUnits negative rank / unitsPerOne :=
      Rat.floor_intCast_div_natCast _ _
    rw [hfloor]
    change IsInt (ofUnits negative (signedUnits negative rank / unitsPerOne * unitsPerOne)) _
    by_cases hdvd : (unitsPerOne : Int) ∣ signedUnits negative rank
    -- A whole number is its own floor.
    · have hunits := Int.ediv_mul_cancel hdvd
      rw [hunits, ofUnits_signedUnits]
      by_cases hrank : rank.val = 0
      · rw [if_pos hrank, hrank]
        cases negative <;> simpa [signedUnits] using isInt_zero _
      · rw [if_neg hrank]
        exact ⟨negative, rank, rfl, hunits.symm⟩
    · have hlt := units_lt_of_not_dvd (mt (fun h => Int.natCast_dvd.mpr
        ((natAbs_signedUnits negative rank).symm ▸ h)) hdvd)
      rw [← natAbs_signedUnits negative] at hlt
      have hpos : (0 : Int) < unitsPerOne := by exact_mod_cast unitsPerOne_pos
      have hlow : -2 ^ 52 ≤ signedUnits negative rank / unitsPerOne := by
        apply Int.le_ediv_of_mul_le hpos
        omega
      have hhigh : signedUnits negative rank / unitsPerOne < 2 ^ 52 := by
        apply Int.ediv_lt_of_lt_mul hpos
        omega
      apply isInt_ofUnits
      omega

end Whole

end LineCalculator.Binary64
