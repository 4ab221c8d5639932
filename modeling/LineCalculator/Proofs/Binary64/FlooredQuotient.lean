import LineCalculator.Proofs.Binary64.FlooredRemainder
import LineCalculator.Proofs.Binary64.Thresholds
import Mathlib.Algebra.Order.Round

/-!
The floored quotient of binary64 values. It is computed with three roundings, but below `2 ^ 51`
they stay within a quarter of the whole number that is meant, and the last step settles on that
number.
-/
namespace LineCalculator.Binary64

section RelativeError

variable {a : Binary64}

/-- Some number of 53 bits on the grid of a power of two is near every whole number of units. -/
theorem exists_grid_near (value : Int) : ∃ (m : Int) (e : Nat), m.natAbs ≤ 2 ^ 53 ∧
    |(value : ℚ) - m * 2 ^ e| ≤ |(value : ℚ)| / 2 ^ 53 := by
  obtain ⟨hlow, hhigh⟩ := quotient_mem_binade value.natAbs
  generalize value.natAbs.log2 - 52 = e at hlow hhigh
  rw [binadeSize_eq] at hlow hhigh
  have hpow : (0 : ℚ) < 2 ^ e := by positivity
  have habs : (value.natAbs : ℚ) = |(value : ℚ)| := by
    rw [Nat.cast_natAbs, Int.cast_abs]
  have hround : |(value : ℚ) / 2 ^ e - round ((value : ℚ) / 2 ^ e)| ≤ 1 / 2 := abs_sub_round _
  refine ⟨round ((value : ℚ) / 2 ^ e), e, ?_, ?_⟩
  · have hlt : |(value : ℚ) / 2 ^ e| < 2 ^ 53 := by
      rw [abs_div, abs_of_pos hpow, div_lt_iff₀ hpow, ← habs]
      exact_mod_cast hhigh
    have hle : |(round ((value : ℚ) / 2 ^ e) : ℚ)| < 2 ^ 53 + 1 := by
      have htriangle := abs_sub_abs_le_abs_sub (round ((value : ℚ) / 2 ^ e) : ℚ) (value / 2 ^ e)
      rw [abs_sub_comm] at htriangle
      linarith
    have hint : |round ((value : ℚ) / 2 ^ e)| < 2 ^ 53 + 1 := by exact_mod_cast hle
    rw [Int.abs_eq_natAbs] at hint
    omega
  · rcases hlow with hzero | hlow
    -- On the grid of single units nothing is rounded.
    · rw [hzero, pow_zero, div_one, round_intCast, mul_one, sub_self, abs_zero]
      positivity
    · have hscaled : (value : ℚ) - round ((value : ℚ) / 2 ^ e) * 2 ^ e =
          ((value : ℚ) / 2 ^ e - round ((value : ℚ) / 2 ^ e)) * 2 ^ e := by
        field_simp
      have hbinade : (2 : ℚ) ^ 52 * 2 ^ e ≤ |(value : ℚ)| := by
        rw [← habs]
        exact_mod_cast hlow
      rw [hscaled, abs_mul, abs_of_pos hpow]
      calc |(value : ℚ) / 2 ^ e - round ((value : ℚ) / 2 ^ e)| * 2 ^ e
          ≤ 1 / 2 * 2 ^ e := mul_le_mul_of_nonneg_right hround hpow.le
        _ = 2 ^ 52 * 2 ^ e / 2 ^ 53 := by ring
        _ ≤ |(value : ℚ)| / 2 ^ 53 := div_le_div_of_nonneg_right hbinade (by positivity)

/-- A whole number of units is rounded by at most one part in `2 ^ 53`. -/
theorem RoundsTo.abs_sub_toRat_le {value : Int} (h : RoundsTo (value / unitsPerOne) a)
    (ha : a.isFinite = true) :
    |(value / unitsPerOne : ℚ) - a.toRat| ≤ |(value / unitsPerOne : ℚ)| / 2 ^ 53 := by
  obtain ⟨m, e, hm, hnear⟩ := exists_grid_near value
  calc |(value / unitsPerOne : ℚ) - a.toRat|
      ≤ |(value / unitsPerOne : ℚ) - m * 2 ^ e / unitsPerOne| :=
        h.nearest ha (isRatio_grid hm e)
    _ = |(value : ℚ) - m * 2 ^ e| / unitsPerOne := by
      rw [← sub_div, abs_div, abs_of_pos unitsPerOne_cast_pos]
    _ ≤ |(value : ℚ)| / 2 ^ 53 / unitsPerOne :=
        div_le_div_of_nonneg_right hnear unitsPerOne_cast_pos.le
    _ = |(value / unitsPerOne : ℚ)| / 2 ^ 53 := by
      rw [abs_div, abs_of_pos unitsPerOne_cast_pos, div_right_comm]

end RelativeError

/-- The value is at most a quarter away from the whole number `n`. -/
structure NearWhole (a : Binary64) (n : Int) : Prop where
  isFinite : a.isFinite = true
  near : |a.toRat - n| ≤ 1 / 4

section NearWhole

variable {a : Binary64} {n : Int} {x : ℚ}

theorem isRatio_quarters {m : Int} (hm : m.natAbs ≤ 2 ^ 53) : IsRatio (m / 4) := by
  have hunit : (unitsPerOne : ℚ) = 4 * 2 ^ 1072 := by
    rw [unitsPerOne_eq_two_mul, pow_succ', ← Nat.mul_assoc, Nat.cast_mul, Nat.cast_pow]
    rfl
  have hgrid := isRatio_grid hm 1072
  rw [hunit, mul_div_mul_right _ _ (by positivity)] at hgrid
  exact hgrid

theorem exists_isInt {n : Int} (hn : n.natAbs ≤ 2 ^ 53) : ∃ a, IsInt a n :=
  ⟨_, isInt_ofUnits false hn⟩

/-- Rounding does not move a number out of the quarter around a whole number. -/
theorem RoundsTo.nearWhole (h : RoundsTo x a) (hn : |n| < 2 ^ 51) (hx : |x - n| ≤ 1 / 4) :
    NearWhole a n := by
  obtain ⟨hlow, hhigh⟩ := abs_le.mp hx
  have habs : |(n : ℚ)| ≤ 2 ^ 51 := by exact_mod_cast hn.le
  have hfinite : a.isFinite = true := by
    obtain ⟨bound, hbound⟩ := exists_isInt (n := 2 ^ 52) (by decide)
    obtain ⟨hbound, hvalue⟩ := isInt_iff_toRat.mp hbound
    apply h.isFinite hbound
    rw [hvalue]
    have htriangle := abs_sub_abs_le_abs_sub x n
    norm_num
    linarith
  rw [Int.abs_eq_natAbs] at hn
  have hlower : IsRatio ((4 * n - 1 : Int) / 4) := isRatio_quarters (by omega)
  have hupper : IsRatio ((4 * n + 1 : Int) / 4) := isRatio_quarters (by omega)
  push_cast at hlower hupper
  refine ⟨hfinite, abs_le.mpr ⟨?_, ?_⟩⟩
  · have hle := h.le_toRat hfinite hlower (by linarith)
    linarith
  · have hle := h.toRat_le hfinite hupper (by linarith)
    linarith

/-- The distance to the floor is rounded, but it does not leave the interval from zero to one. -/
theorem roundsTo_sub_floor (ha : a.isFinite = true) :
    (a - a.floor).isFinite = true ∧ RoundsTo (a.toRat - ⌊a.toRat⌋) (a - a.floor) := by
  obtain ⟨hfinite, hvalue⟩ := isInt_iff_toRat.mp (isInt_floor ha)
  have hdiff := roundsTo_sub ha hfinite
  rw [hvalue] at hdiff
  refine ⟨?_, hdiff⟩
  apply hdiff.isFinite isInt_one.isFinite
  rw [toRat_one, abs_one, Int.self_sub_floor, Int.abs_fract]
  exact (Int.fract_lt_one a.toRat).le

theorem half_lt_sub_floor_iff (ha : a.isFinite = true) :
    half < a - a.floor ↔ 1 / 2 < (a - a.floor).toRat := by
  rw [lt_iff_toRat_lt rfl (roundsTo_sub_floor ha).1, toRat_half]

/-- Near a zero there is no other whole number than zero. -/
theorem NearWhole.eq_zero_of_isZero (h : NearWhole a n) (hzero : a.isZero = true) : n = 0 := by
  obtain ⟨hlow, hhigh⟩ := abs_le.mp h.near
  rw [toRat_of_isZero hzero] at hlow hhigh
  have hlt : n < 1 := by
    have hlt : (n : ℚ) < 1 := by linarith
    exact_mod_cast hlt
  have hgt : -1 < n := by
    have hgt : (-1 : ℚ) < n := by linarith
    exact_mod_cast hgt
  omega

/-- The last step finds the whole number again. -/
theorem NearWhole.settle (h : NearWhole a n) (hn : |n| < 2 ^ 51) (zeroNegative : Bool) :
    IsInt (settle zeroNegative a) n := by
  obtain ⟨hlow, hhigh⟩ := abs_le.mp h.near
  rw [Int.abs_eq_natAbs] at hn
  unfold Binary64.settle
  by_cases hzero : a.isZero = true
  · rw [if_pos hzero, h.eq_zero_of_isZero hzero]
    exact isInt_zero zeroNegative
  rw [if_neg hzero]
  have hfloor := isInt_floor h.isFinite
  obtain ⟨hfinite, hdiff⟩ := roundsTo_sub_floor h.isFinite
  have hhalf := half_lt_sub_floor_iff h.isFinite
  rcases le_or_gt (n : ℚ) a.toRat with hle | hlt
  -- From above, the floor is the whole number itself.
  · have hn' : ⌊a.toRat⌋ = n := by
      rw [Int.floor_eq_iff]
      constructor <;> linarith
    rw [hn'] at hdiff hfloor
    have hle := hdiff.toRat_le hfinite (isRatio_toRat half) (by rw [toRat_half]; linarith)
    rw [toRat_half] at hle
    rw [if_neg (hhalf.not.mpr (not_lt.mpr hle))]
    exact hfloor
  -- From below, the floor is one too low and the difference shows it.
  · have hn' : ⌊a.toRat⌋ = n - 1 := by
      rw [Int.floor_eq_iff]
      push_cast
      constructor <;> linarith
    rw [hn'] at hdiff hfloor
    have hthree : IsRatio ((3 : Int) / 4) := isRatio_quarters (by decide)
    push_cast at hdiff hthree
    have hge := hdiff.le_toRat hfinite hthree (by linarith)
    rw [if_pos (hhalf.mpr (by linarith))]
    have hsum := hfloor.add isInt_one (by omega)
    rwa [sub_add_cancel] at hsum

end NearWhole

section Quotient

variable {t : Bool} {divisor : Fin finiteCount}

theorem abs_tdiv_mul_le (s : Bool) (rank : Fin finiteCount) (n : Int) :
    |(((signedUnits s rank).tdiv n * n : Int) / unitsPerOne : ℚ)| ≤
      |(Binary64.finite s rank).toRat| := by
  rw [toRat, ratio, abs_div, abs_div]
  apply div_le_div_of_nonneg_right _ (abs_nonneg _)
  rw [← Int.cast_abs, ← Int.cast_abs, Int.cast_le, Int.abs_eq_natAbs, Int.abs_eq_natAbs,
    Int.natAbs_mul, Int.natAbs_tdiv]
  exact_mod_cast Nat.div_mul_le_self _ _

/-- The dividend without its remainder is the multiple of the divisor, rounded once. -/
theorem roundsTo_sub_truncatedRem (s t : Bool) (rank : Fin finiteCount) (h : divisor.val ≠ 0) :
    let a := Binary64.finite s rank
    let b := Binary64.finite t divisor
    let m := signedUnits s rank
    let n := signedUnits t divisor
    (a - truncatedRem a b).isFinite = true ∧
      RoundsTo ((m.tdiv n * n : Int) / unitsPerOne) (a - truncatedRem a b) := by
  dsimp only
  obtain ⟨r, hrem, hunits⟩ := exists_truncatedRem_eq s t rank h
  have hround : RoundsTo _ (Binary64.finite s rank - truncatedRem (.finite s rank)
      (.finite t divisor)) := roundsTo_sub rfl (by rw [hrem]; rfl)
  rw [hrem, toRat, toRat, ratio, ratio, ← sub_div, ← Int.cast_sub, hunits, sub_tmod_eq,
    ← hrem] at hround
  exact ⟨hround.isFinite (b := .finite s rank) rfl (abs_tdiv_mul_le s rank _), hround⟩

/-- The truncated quotient is computed with an error below a quarter. -/
theorem nearWhole_div (s : Bool) (rank : Fin finiteCount) (h : divisor.val ≠ 0)
    (hq : |(signedUnits s rank).tdiv (signedUnits t divisor)| < 2 ^ 51) :
    NearWhole ((Binary64.finite s rank - truncatedRem (.finite s rank) (.finite t divisor)) /
      .finite t divisor) ((signedUnits s rank).tdiv (signedUnits t divisor)) := by
  obtain ⟨hfinite, hdiff⟩ := roundsTo_sub_truncatedRem s t rank h
  have herror := hdiff.abs_sub_toRat_le hfinite
  have hzero : (Binary64.finite t divisor).isZero = false := by simpa [isZero] using h
  apply (roundsTo_div hfinite rfl hzero).nearWhole hq
  generalize (Binary64.finite s rank - truncatedRem (.finite s rank) (.finite t divisor)).toRat = d
    at herror ⊢
  generalize (signedUnits s rank).tdiv (signedUnits t divisor) = q at hq herror ⊢
  have hb : (Binary64.finite t divisor).toRat ≠ 0 := by
    rw [toRat, ratio]
    exact div_ne_zero (by exact_mod_cast signedUnits_ne_zero t h) unitsPerOne_cast_pos.ne'
  have hmultiple : ((q * signedUnits t divisor : Int) : ℚ) / unitsPerOne =
      q * (Binary64.finite t divisor).toRat := by
    rw [toRat, ratio]
    push_cast
    ring
  rw [hmultiple] at herror
  generalize (Binary64.finite t divisor).toRat = y at hb herror ⊢
  have hq' : |(q : ℚ)| ≤ 2 ^ 51 := by exact_mod_cast hq.le
  have hscale : d / y - q = (d - q * y) / y := by field_simp
  rw [hscale, abs_div, div_le_iff₀ (abs_pos.mpr hb), abs_sub_comm]
  calc |q * y - d| ≤ |q * y| / 2 ^ 53 := herror
    _ = |(q : ℚ)| / 2 ^ 53 * |y| := by rw [abs_mul, mul_div_right_comm]
    _ ≤ 1 / 4 * |y| := by
      apply mul_le_mul_of_nonneg_right _ (abs_nonneg y)
      rw [div_le_iff₀ (by positivity)]
      linarith

end Quotient

section Range

variable {a : Binary64} {rank : Nat}

/-- What the last step makes of a finite value is whole. -/
theorem exists_isInt_settle (ha : a.isFinite = true) (zeroNegative : Bool) :
    ∃ n, IsInt (settle zeroNegative a) n := by
  have hfloor := isInt_floor ha
  unfold settle
  by_cases hzero : a.isZero = true
  · rw [if_pos hzero]
    exact ⟨0, isInt_zero zeroNegative⟩
  rw [if_neg hzero]
  by_cases hhalf : half < a - a.floor
  -- A value above its floor is small, and so is the next whole number.
  · obtain ⟨hfinite, hdiff⟩ := roundsTo_sub_floor ha
    have hne : a.toRat ≠ ⌊a.toRat⌋ := by
      intro heq
      have hratio : IsRatio (a.toRat - ⌊a.toRat⌋) := by
        rw [← heq, sub_self]
        exact ⟨false, 0, (ratio_zero false).symm⟩
      rw [half_lt_sub_floor_iff ha, hdiff.toRat_eq hfinite hratio, ← heq, sub_self] at hhalf
      linarith
    obtain ⟨hlow, hhigh⟩ := abs_lt.mp (abs_toRat_lt_of_not_whole ha hne)
    have hlower : -2 ^ 52 ≤ ⌊a.toRat⌋ := by
      apply Int.le_floor.mpr
      push_cast
      exact hlow.le
    have hupper : ⌊a.toRat⌋ < 2 ^ 52 := by
      apply Int.floor_lt.mpr
      push_cast
      exact hhigh
    rw [if_pos hhalf]
    exact ⟨_, hfloor.add isInt_one (by omega)⟩
  · rw [if_neg hhalf]
    exact ⟨_, hfloor⟩

theorem settle_infinity (zeroNegative negative : Bool) :
    settle zeroNegative (.infinity negative) = .infinity negative := by
  cases negative <;> rfl

/-- The last finite magnitude is far below the first overflow. -/
theorem units_add_lt_units_finiteCount (h : rank < finiteCount) :
    units rank + 2 * unitsPerOne < units finiteCount := by
  have hlast : finiteCount - 1 = (2045 + 1) * binadeSize + (binadeSize - 1) := by decide
  have hcarry : binadeSize + (binadeSize - 1) + 1 = binadeSize * 2 := by decide
  have hle : units rank ≤ units (finiteCount - 1) :=
    units_strictMono.monotone (Nat.le_pred_of_lt h)
  have hgap : units (finiteCount - 1) + 2 ^ 2045 = units finiteCount := by
    rw [hlast, units_normal 2045 _ (by decide), units_finiteCount, pow_succ' 2 2045,
      ← binadeSize_eq, ← Nat.add_one_mul, ← Nat.mul_assoc, hcarry]
  have hsmall : 2 * unitsPerOne < 2 ^ 2045 := by
    rw [unitsPerOne_eq, ← pow_succ']
    exact pow_lt_pow_right₀ Nat.one_lt_two (by decide)
  generalize 2 ^ 2045 = gap at hgap hsmall
  omega

/-- One less than a finite value is finite. -/
theorem isFinite_sub_one (ha : a.isFinite = true) : (a - one).isFinite = true := by
  have hround := roundsTo_sub ha isInt_one.isFinite
  rw [toRat_one] at hround
  obtain ⟨negative, rank, heq, hnearest⟩ := hround
  rw [heq, isFinite_ofRank]
  obtain ⟨s, last, rfl⟩ := exists_finite ha
  -- The value itself is at distance one, so a nearer one lies at most two farther out.
  have hnear := hnearest.nearest s last
  rw [toRat, sub_sub_cancel_left, abs_neg, abs_one] at hnear
  have hrank := abs_sub_abs_le_abs_sub (ratio negative rank) (ratio s last - 1)
  have hlast := abs_sub_abs_le_abs_sub (ratio s last - 1) (ratio s last)
  rw [sub_sub_cancel_left, abs_neg, abs_one] at hlast
  rw [abs_sub_comm (ratio negative rank)] at hrank
  have hunits : (units rank : ℚ) / unitsPerOne ≤ units last / unitsPerOne + 2 := by
    rw [← abs_ratio negative, ← abs_ratio s]
    linarith
  rw [div_le_iff₀ unitsPerOne_cast_pos, add_mul, div_mul_cancel₀ _ unitsPerOne_cast_pos.ne']
    at hunits
  have hle : units rank ≤ units last + 2 * unitsPerOne := by exact_mod_cast hunits
  exact units_strictMono.lt_iff_lt.mp (hle.trans_lt (units_add_lt_units_finiteCount last.isLt))

/-- The truncated quotient overflows only where the quotient does. -/
theorem div_sub_truncatedRem_cases (s t : Bool) (rank divisor : Fin finiteCount)
    (h : divisor.val ≠ 0) :
    let a := Binary64.finite s rank
    let b := Binary64.finite t divisor
    ((a - truncatedRem a b) / b).isFinite = true ∨
      ∃ u v, (a - truncatedRem a b) / b = .infinity u ∧ a / b = .infinity v := by
  dsimp only
  obtain ⟨hfinite, hdiff⟩ := roundsTo_sub_truncatedRem s t rank h
  have hle := hdiff.abs_toRat_le hfinite (isRatio_toRat (.finite s rank))
    (abs_tdiv_mul_le s rank _)
  obtain ⟨u, diff, heq⟩ := exists_finite hfinite
  have hunits : units diff ≤ units rank := by
    rw [heq, toRat, toRat, abs_ratio, abs_ratio,
      div_le_div_iff_of_pos_right unitsPerOne_cast_pos] at hle
    exact_mod_cast hle
  have hpos : 0 < units divisor := Nat.pos_of_ne_zero (units_eq_zero_iff.not.mpr h)
  have hmono := nearestRank_mono hpos (Nat.mul_le_mul_right unitsPerOne hunits)
  rw [heq, div_finite_eq u t diff divisor h, div_finite_eq s t rank divisor h, isFinite_ofRank]
  by_cases hlt : nearestRank (units diff * unitsPerOne) (units divisor) < finiteCount
  · exact .inl hlt
  · right
    refine ⟨_, _, dif_neg hlt, dif_neg ?_⟩
    omega

end Range

section FlooredQuotient

variable {a b : Binary64}

theorem floor_div_eq (s t : Bool) (rank divisor : Fin finiteCount) :
    ⌊(Binary64.finite s rank).toRat / (Binary64.finite t divisor).toRat⌋ =
      (signedUnits s rank).fdiv (signedUnits t divisor) := by
  rw [toRat, toRat, ratio_div_ratio, floor_intCast_div_intCast]

/-- Below `2 ^ 51` the floored quotient is exact. -/
theorem isInt_floorDiv (ha : a.isFinite = true) (hb : b.isFinite = true)
    (hzero : b.isZero = false) (hq : |⌊a.toRat / b.toRat⌋| < 2 ^ 51) :
    IsInt (a.floorDiv b) ⌊a.toRat / b.toRat⌋ := by
  obtain ⟨s, rank, rfl⟩ := exists_finite ha
  obtain ⟨t, divisor, rfl⟩ := exists_finite hb
  have hdivisor : divisor.val ≠ 0 := by simpa [isZero] using hzero
  rw [floor_div_eq] at hq ⊢
  have hnear := nearWhole_div (t := t) s rank hdivisor
  rw [floorDiv]
  obtain ⟨hq', -, heq⟩ | ⟨hq', -, -, heq⟩ | ⟨hq', -, heq⟩ := floorDivMod_cases s t rank hdivisor
  · rw [hq'] at hq ⊢
    rw [heq]
    exact (hnear hq).settle hq _
  · rw [hq'] at hq ⊢
    rw [heq]
    exact (hnear hq).settle hq _
  -- The truncated quotient is not positive here, so it is not larger than the floored one.
  · have hnonpos := tdiv_nonpos_of_fdiv_lt (by omega :
      (signedUnits s rank).fdiv (signedUnits t divisor) <
        (signedUnits s rank).tdiv (signedUnits t divisor))
    rw [hq'] at hq ⊢
    have hlow := (abs_lt.mp hq).1
    replace hnear := hnear (by rw [abs_of_nonpos hnonpos]; omega)
    rw [heq]
    refine ((roundsTo_sub hnear.isFinite isInt_one.isFinite).nearWhole hq ?_).settle hq _
    rw [toRat_one, Int.cast_sub, Int.cast_one, sub_sub_sub_cancel_right]
    exact hnear.near

/-- Of any size, the floored quotient is whole or overflows together with the quotient. -/
theorem floorDiv_cases (ha : a.isFinite = true) (hb : b.isFinite = true)
    (hzero : b.isZero = false) : (∃ n, IsInt (a.floorDiv b) n) ∨
      ∃ u v, a.floorDiv b = .infinity u ∧ a / b = .infinity v := by
  obtain ⟨s, rank, rfl⟩ := exists_finite ha
  obtain ⟨t, divisor, rfl⟩ := exists_finite hb
  have hdivisor : divisor.val ≠ 0 := by simpa [isZero] using hzero
  -- The quotient before the last step is the truncated one or one less.
  have hsettle : ∃ zeroNegative div, (div = (Binary64.finite s rank -
        truncatedRem (.finite s rank) (.finite t divisor)) / .finite t divisor ∨
      div = (Binary64.finite s rank -
        truncatedRem (.finite s rank) (.finite t divisor)) / .finite t divisor - one) ∧
      floorDiv (.finite s rank) (.finite t divisor) = settle zeroNegative div := by
    rw [floorDiv]
    obtain ⟨-, -, heq⟩ | ⟨-, -, -, heq⟩ | ⟨-, -, heq⟩ := floorDivMod_cases s t rank hdivisor
    · exact ⟨_, _, .inl rfl, by rw [heq]⟩
    · exact ⟨_, _, .inl rfl, by rw [heq]⟩
    · exact ⟨_, _, .inr rfl, by rw [heq]⟩
  obtain ⟨zeroNegative, div, hdiv, heq⟩ := hsettle
  rw [heq]
  rcases div_sub_truncatedRem_cases s t rank divisor hdivisor with hfinite | ⟨u, v, hu, hv⟩
  · left
    apply exists_isInt_settle
    rcases hdiv with rfl | rfl
    · exact hfinite
    · exact isFinite_sub_one hfinite
  · right
    refine ⟨u, v, ?_, hv⟩
    rw [hu] at hdiv
    -- An infinite quotient stays what it is.
    rcases hdiv with rfl | rfl
    · exact settle_infinity zeroNegative u
    · exact settle_infinity zeroNegative u

end FlooredQuotient

end LineCalculator.Binary64
