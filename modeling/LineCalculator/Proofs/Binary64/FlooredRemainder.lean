import LineCalculator.Proofs.Binary64.IntegerDivision
import LineCalculator.Proofs.Binary64.RationalArithmetic

/-!
The floored remainder of binary64 values. The truncated remainder is a magnitude itself, so the one
addition that corrects its sign is the only rounding on the way.
-/
namespace LineCalculator.Binary64

section Magnitudes

variable {rank divisor : Nat}

theorem significand_lt (rank : Nat) : significand rank < 2 ^ 53 := by
  have hsize : binadeSize = 2 ^ 52 := binadeSize_eq
  have hmod := Nat.mod_lt rank (show 0 < binadeSize by decide)
  unfold significand
  split <;> omega

theorem two_pow_scale_dvd_units (rank : Nat) : 2 ^ scale rank ∣ units rank := by
  rw [units_eq]
  exact Nat.dvd_mul_left _ _

/-- The multiples of a magnitude's last place that do not exceed it are magnitudes. -/
theorem exists_units_eq_of_dvd (rank : Nat) {n : Nat} (hdvd : 2 ^ scale rank ∣ n)
    (hle : n ≤ units rank) : ∃ r, units r = n := by
  obtain ⟨m, rfl⟩ := hdvd
  rw [units_eq, Nat.mul_comm (significand rank)] at hle
  have hm : m ≤ significand rank := Nat.le_of_mul_le_mul_left hle (Nat.two_pow_pos _)
  rw [Nat.mul_comm]
  exact exists_units_eq m _ (hm.trans_lt (significand_lt rank))

/-- The remainder of two magnitudes is a magnitude: it lies on the finer of their grids and exceeds
neither of them. -/
theorem exists_units_mod (rank : Nat) (hdivisor : 0 < units divisor) :
    ∃ r, units r = units rank % units divisor := by
  rcases le_total (scale rank) (scale divisor) with hscale | hscale
  · apply exists_units_eq_of_dvd rank
    · rw [Nat.dvd_mod_iff]
      · exact two_pow_scale_dvd_units rank
      · exact (pow_dvd_pow 2 hscale).trans (two_pow_scale_dvd_units divisor)
    · exact Nat.mod_le _ _
  · apply exists_units_eq_of_dvd divisor
    · rw [Nat.dvd_mod_iff (two_pow_scale_dvd_units divisor)]
      exact (pow_dvd_pow 2 hscale).trans (two_pow_scale_dvd_units rank)
    · exact (Nat.mod_lt _ hdivisor).le

end Magnitudes

theorem floor_intCast_div_intCast (m n : Int) : ⌊(m : ℚ) / n⌋ = m.fdiv n := by
  have hnonneg (m n : Int) (hn : 0 ≤ n) : ⌊(m : ℚ) / n⌋ = m.fdiv n := by
    lift n to Nat using hn
    rw [Int.fdiv_eq_ediv_of_nonneg m (Int.natCast_nonneg n)]
    exact Rat.floor_intCast_div_natCast m n
  rcases le_total 0 n with hn | hn
  · exact hnonneg m n hn
  · rw [← Int.neg_fdiv_neg, ← hnonneg (-m) (-n) (by omega), Int.cast_neg, Int.cast_neg,
      neg_div_neg_eq]

section Remainder

variable {s t : Bool} {rank divisor : Fin finiteCount}

theorem signedUnits_ne_zero (t : Bool) (h : divisor.val ≠ 0) : signedUnits t divisor ≠ 0 := by
  rw [← Int.natAbs_ne_zero, natAbs_signedUnits]
  exact units_eq_zero_iff.not.mpr h

/-- The truncated remainder is exact and has the sign of the dividend. -/
theorem exists_truncatedRem_eq (s t : Bool) (rank : Fin finiteCount) (h : divisor.val ≠ 0) :
    ∃ r, truncatedRem (.finite s rank) (.finite t divisor) = .finite s r ∧
      signedUnits s r = (signedUnits s rank).tmod (signedUnits t divisor) := by
  have hpos : 0 < units divisor := Nat.pos_of_ne_zero (units_eq_zero_iff.not.mpr h)
  obtain ⟨r, hr⟩ := exists_units_mod rank hpos
  have hfinite : r < finiteCount := by
    have hle : units r ≤ units rank := hr ▸ Nat.mod_le _ _
    exact (units_strictMono.le_iff_le.mp hle).trans_lt rank.isLt
  refine ⟨⟨r, hfinite⟩, ?_, ?_⟩
  · change (if divisor.val = 0 then _ else _) = _
    rw [if_neg h, ofRatio, ← hr, nearestRank_units, ofRank, dif_pos hfinite]
  · have hcast : (units r : Int) = (units rank : Int).tmod (units divisor) := by
      rw [hr]
      exact Int.ofNat_tmod _ _
    cases s <;> cases t <;> simp [signedUnits, hcast, Int.neg_tmod, Int.tmod_neg]

theorem lt_zero_iff (negative : Bool) (rank : Fin finiteCount) :
    Binary64.finite negative rank < zero false ↔ signedUnits negative rank < 0 := by
  rw [lt_iff_toRat_lt rfl rfl]
  change ratio negative rank < ratio false 0 ↔ _
  rw [ratio_zero, ratio, div_lt_iff₀ unitsPerOne_cast_pos, zero_mul, Int.cast_lt_zero]

/-- The zero sign of a sum of units matters only for an exact zero. -/
theorem ofUnits_of_ne_zero {value : Int} (h : value ≠ 0) (zeroNegative zeroNegative' : Bool) :
    ofUnits zeroNegative value = ofUnits zeroNegative' value := by
  rw [ofUnits, ofUnits, if_neg h, if_neg h]

theorem isZero_finite_iff (negative : Bool) (rank : Fin finiteCount) :
    (Binary64.finite negative rank).isZero = true ↔ signedUnits negative rank = 0 := by
  rw [← Int.natAbs_eq_zero, natAbs_signedUnits, units_eq_zero_iff, isZero, beq_iff_eq]

/-- The floored pair of finite values: without a remainder, with one of the sign of the divisor, and
with one that points away from it. -/
theorem floorDivMod_cases (s t : Bool) (rank : Fin finiteCount) (h : divisor.val ≠ 0) :
    let a := Binary64.finite s rank
    let b := Binary64.finite t divisor
    let m := signedUnits s rank
    let n := signedUnits t divisor
    let div := (a - truncatedRem a b) / b
    let zeroNegative := (a / b).isNegative
    (m.fdiv n = m.tdiv n ∧ m.fmod n = 0 ∧
      floorDivMod a b = (settle zeroNegative div, zero t)) ∨
    (m.fdiv n = m.tdiv n ∧ m.fmod n = m.tmod n ∧ m.tmod n ≠ 0 ∧
      floorDivMod a b = (settle zeroNegative div, truncatedRem a b)) ∨
    (m.fdiv n = m.tdiv n - 1 ∧ m.fmod n = m.tmod n + n ∧
      floorDivMod a b = (settle zeroNegative (div - one), truncatedRem a b + b)) := by
  dsimp only
  obtain ⟨r, hrem, hunits⟩ := exists_truncatedRem_eq s t rank h
  have hdivisor := signedUnits_ne_zero t h
  rw [floorDivMod_eq, hrem]
  dsimp only
  by_cases hzero : (Binary64.finite s r).isZero = true
  · rw [if_pos hzero]
    rw [isZero_finite_iff, hunits] at hzero
    obtain ⟨hdiv, hmod⟩ := fdiv_fmod_of_tmod_eq_zero hzero
    exact .inl ⟨hdiv, hmod, rfl⟩
  rw [if_neg hzero]
  rw [isZero_finite_iff, hunits] at hzero
  right
  by_cases hsign : (decide (Binary64.finite t divisor < zero false) !=
      decide (Binary64.finite s r < zero false)) = true
  · rw [if_pos hsign]
    simp only [lt_zero_iff, hunits, bne_iff_ne, ne_eq, decide_eq_decide] at hsign
    obtain ⟨hdiv, hmod⟩ := fdiv_fmod_of_other_sign hdivisor hzero hsign
    exact .inr ⟨hdiv, hmod, rfl⟩
  · rw [if_neg hsign]
    simp only [lt_zero_iff, hunits, bne_iff_ne, ne_eq, decide_eq_decide, Decidable.not_not] at hsign
    obtain ⟨hdiv, hmod⟩ := fdiv_fmod_of_same_sign hdivisor hsign
    exact .inl ⟨hdiv, hmod, hzero, rfl⟩

/-- The floored remainder is rounded once, from the exact one. -/
theorem floorMod_eq (s t : Bool) (rank : Fin finiteCount) (h : divisor.val ≠ 0) :
    floorMod (.finite s rank) (.finite t divisor) =
      ofUnits t ((signedUnits s rank).fmod (signedUnits t divisor)) := by
  obtain ⟨r, hrem, hunits⟩ := exists_truncatedRem_eq s t rank h
  rw [floorMod]
  obtain ⟨-, hmod, heq⟩ | ⟨-, hmod, hne, heq⟩ | ⟨-, hmod, heq⟩ := floorDivMod_cases s t rank h
  · rw [heq, hmod]
    rfl
  -- The truncated remainder is not zero and so is rounded to itself.
  · have hrank : r.val ≠ 0 := by
      intro hrank
      apply hne
      rw [← hunits, hrank]
      cases s <;> simp [signedUnits]
    rw [heq, hmod, hrem, ← hunits, ofUnits_signedUnits, if_neg hrank]
  · rw [heq, hmod, hrem, ← hunits]
    apply ofUnits_of_ne_zero
    have hlt := natAbs_tmod_lt (signedUnits s rank) (signedUnits_ne_zero t h)
    omega

end Remainder

/-- The exact remainder of the floored quotient. -/
def exactMod (a b : Binary64) : ℚ :=
  a.toRat - b.toRat * ⌊a.toRat / b.toRat⌋

section FlooredRemainder

variable {s t : Bool} {rank divisor : Fin finiteCount}

theorem ratio_div_ratio (s t : Bool) (rank divisor : Nat) :
    ratio s rank / ratio t divisor = (signedUnits s rank : ℚ) / signedUnits t divisor :=
  div_div_div_cancel_right₀ unitsPerOne_cast_pos.ne' _ _

theorem exactMod_eq (s t : Bool) (rank divisor : Fin finiteCount) :
    exactMod (.finite s rank) (.finite t divisor) =
      ((signedUnits s rank).fmod (signedUnits t divisor) : ℚ) / unitsPerOne := by
  have hfloor : ⌊ratio s rank / ratio t divisor⌋ =
      (signedUnits s rank).fdiv (signedUnits t divisor) := by
    rw [ratio_div_ratio, floor_intCast_div_intCast]
  rw [exactMod, toRat, toRat, hfloor, ratio, ratio, Int.fmod_def]
  push_cast
  ring

theorem abs_exactMod_lt (s : Bool) (rank : Fin finiteCount) (h : divisor.val ≠ 0) :
    |exactMod (.finite s rank) (.finite t divisor)| < |(Binary64.finite t divisor).toRat| := by
  have hbounds := fmod_bounds (signedUnits s rank) (signedUnits_ne_zero t h)
  have hlt : |(signedUnits s rank).fmod (signedUnits t divisor)| < |signedUnits t divisor| := by
    rw [Int.abs_eq_natAbs, Int.abs_eq_natAbs]
    omega
  rw [exactMod_eq, toRat, ratio, abs_div, abs_div]
  apply div_lt_div_of_pos_right _ (abs_pos.mpr unitsPerOne_cast_pos.ne')
  exact_mod_cast hlt

end FlooredRemainder

section Units

variable {value : Int}

theorem isNegative_ofRank (negative : Bool) (rank : Nat) :
    (ofRank negative rank).isNegative = negative := by
  unfold ofRank
  split <;> rfl

/-- A whole number of units is not rounded to zero. -/
theorem isZero_ofUnits_iff (zeroNegative : Bool) (value : Int) :
    (ofUnits zeroNegative value).isZero = true ↔ value = 0 := by
  constructor
  · intro hzero
    by_contra hvalue
    rw [ofUnits, if_neg hvalue, ofRatio, ofRank] at hzero
    have hrank : nearestRank value.natAbs 1 = 0 := by
      split at hzero
      · exact beq_iff_eq.mp hzero
      · simp [isZero] at hzero
    -- One unit is nearer than zero.
    have hnear := ((nearestRank_eq_iff Nat.one_pos).mp hrank).nearest 1
    rw [units_zero, units_of_lt (by decide)] at hnear
    simp only [Nat.dist] at hnear
    omega
  · rintro rfl
    rfl

theorem isNegative_ofUnits (h : value ≠ 0) (zeroNegative : Bool) :
    (ofUnits zeroNegative value).isNegative = decide (value < 0) := by
  rw [ofUnits, if_neg h, ofRatio, isNegative_ofRank]

theorem exists_finite {a : Binary64} (h : a.isFinite = true) : ∃ s rank, a = .finite s rank := by
  cases a with
  | nan | infinity s => simp [isFinite] at h
  | finite s rank => exact ⟨s, rank, rfl⟩

end Units

section Values

variable {a b : Binary64}

/-- The remainder in units, which has the sign of the divisor. -/
theorem exists_floorMod_eq (ha : a.isFinite = true) (hb : b.isFinite = true)
    (hzero : b.isZero = false) : ∃ t value, a.floorMod b = ofUnits t value ∧
      exactMod a b = value / unitsPerOne ∧ b.isNegative = t ∧
      (value ≠ 0 → decide (value < 0) = t) ∧ |exactMod a b| < |b.toRat| := by
  obtain ⟨s, rank, rfl⟩ := exists_finite ha
  obtain ⟨t, divisor, rfl⟩ := exists_finite hb
  have hdivisor : divisor.val ≠ 0 := by simpa [isZero] using hzero
  refine ⟨t, _, floorMod_eq s t rank hdivisor, exactMod_eq s t rank divisor, rfl, ?_,
    abs_exactMod_lt s rank hdivisor⟩
  intro hvalue
  have hbounds := fmod_bounds (signedUnits s rank) (signedUnits_ne_zero t hdivisor)
  cases t with
  | false =>
    have hnonneg : (0 : Int) ≤ signedUnits false divisor := by simp [signedUnits]
    simp only [decide_eq_false_iff_not]
    omega
  | true =>
    have hnonpos : signedUnits true divisor ≤ 0 := by simp [signedUnits]
    simp only [decide_eq_true_eq]
    omega

/-- The exact remainder vanishes where the divisor divides the dividend. -/
theorem exactMod_eq_zero_iff (hb : b.toRat ≠ 0) :
    exactMod a b = 0 ↔ ∃ k : Int, a.toRat = k * b.toRat := by
  constructor
  · intro h
    refine ⟨⌊a.toRat / b.toRat⌋, ?_⟩
    rw [exactMod] at h
    linarith
  · rintro ⟨k, hk⟩
    rw [exactMod, hk, mul_div_cancel_right₀ _ hb, Int.floor_intCast]
    ring

end Values

end LineCalculator.Binary64
