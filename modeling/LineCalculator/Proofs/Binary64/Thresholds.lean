import LineCalculator.Proofs.Binary64.Rationals

/-!
Where rounding leaves the finite values. The numbers that are rounded to a magnitude or a smaller
one end in the middle between it and the next, and the middle itself goes to the even rank. Zero is
the first of these magnitudes and the largest finite value the last.
-/
namespace LineCalculator.Binary64

section Middle

variable {y near far : ℚ}

/-- Of two numbers the smaller one is as near as the other up to the middle between them. -/
theorem abs_sub_le_abs_sub_iff_of_lt (h : near < far) :
    |y - near| ≤ |y - far| ↔ 2 * y ≤ near + far := by
  rw [← sq_le_sq]
  constructor
  · intro hle
    by_contra hlt
    nlinarith [mul_pos (sub_pos.mpr h) (sub_pos.mpr (not_le.mp hlt))]
  · intro hle
    nlinarith [mul_nonneg (sub_pos.mpr h).le (sub_nonneg.mpr hle)]

theorem abs_sub_ge_abs_sub_iff_of_lt (h : near < far) :
    |y - far| ≤ |y - near| ↔ near + far ≤ 2 * y := by
  have hreflect := abs_sub_le_abs_sub_iff_of_lt (y := -y) (neg_lt_neg h)
  rw [neg_sub_neg, neg_sub_neg, abs_sub_comm far, abs_sub_comm near] at hreflect
  rw [hreflect]
  constructor <;> intro hle <;> linarith

end Middle

section Rank

variable {x : ℚ} {negative : Bool} {rank : Nat}

theorem ratio_false_lt_iff {m n : Nat} : ratio false m < ratio false n ↔ m < n := by
  rw [ratio_false, ratio_false, div_lt_div_iff_of_pos_right unitsPerOne_cast_pos, Nat.cast_lt,
    units_strictMono.lt_iff_lt]

theorem ratio_false_nonneg (rank : Nat) : 0 ≤ ratio false rank := by
  rw [ratio_false]
  positivity

/-- The distance of two magnitudes is the least one under any signs, and that under equal signs. -/
theorem abs_abs_sub_ratio_le (x : ℚ) (s : Bool) (r : Nat) :
    |(|x| - ratio false r)| ≤ |x - ratio s r| := by
  rw [ratio_false, ← abs_ratio s]
  exact abs_abs_sub_abs_le x (ratio s r)

theorem abs_sub_ratio_sign (x : ℚ) (r : Nat) :
    |x - ratio (decide (x < 0)) r| = |(|x| - ratio false r)| := by
  rcases lt_or_ge x 0 with hneg | hnonneg
  · rw [decide_eq_true hneg, abs_of_neg hneg, ← Bool.not_false, ratio_not, ← abs_neg]
    congr 1
    ring
  · rw [decide_eq_false (not_lt.mpr hnonneg), abs_of_nonneg hnonneg]

theorem IsNearestRatio.abs_nearest (h : IsNearestRatio x negative rank) (r : Nat) :
    |(|x| - ratio false rank)| ≤ |(|x| - ratio false r)| := by
  calc |(|x| - ratio false rank)|
      ≤ |x - ratio negative rank| := abs_abs_sub_ratio_le x negative rank
    _ ≤ |x - ratio (decide (x < 0)) r| := h.nearest _ r
    _ = |(|x| - ratio false r)| := abs_sub_ratio_sign x r

theorem IsNearestRatio.abs_even (h : IsNearestRatio x negative rank) {r : Nat} (hne : r ≠ rank)
    (hsame : |(|x| - ratio false r)| = |(|x| - ratio false rank)|) : rank % 2 = 0 := by
  apply h.even (decide (x < 0)) r
  · intro heq
    have habs := congrArg abs heq
    rw [abs_ratio, abs_ratio, ← ratio_false, ← ratio_false] at habs
    rcases Nat.lt_or_gt_of_ne hne with hlt | hgt
    · exact (ratio_false_lt_iff.mpr hlt).ne habs
    · exact (ratio_false_lt_iff.mpr hgt).ne' habs
  · apply le_antisymm
    · rw [abs_sub_ratio_sign, hsame]
      exact abs_abs_sub_ratio_le x negative rank
    · exact h.nearest _ r

/-- The numbers that are rounded to this magnitude or a smaller one. -/
theorem IsNearestRatio.rank_le_iff (h : IsNearestRatio x negative rank) (bound : Nat) :
    rank ≤ bound ↔ 2 * |x| ≤ ratio false bound + ratio false (bound + 1) ∧
      (2 * |x| = ratio false bound + ratio false (bound + 1) → bound % 2 = 0) := by
  have hstep : ratio false bound < ratio false (bound + 1) :=
    ratio_false_lt_iff.mpr (Nat.lt_add_one bound)
  constructor
  · intro hle
    have hlt : ratio false rank < ratio false (bound + 1) :=
      ratio_false_lt_iff.mpr (Nat.lt_add_one_of_le hle)
    have hnear := (abs_sub_le_abs_sub_iff_of_lt hlt).mp (h.abs_nearest (bound + 1))
    rcases Nat.lt_or_eq_of_le hle with hbelow | rfl
    -- A smaller rank keeps the number below the middle.
    · have hratio := ratio_false_lt_iff.mpr hbelow
      exact ⟨by linarith, fun hmiddle => by linarith⟩
    · refine ⟨hnear, fun hmiddle => h.abs_even (Nat.succ_ne_self rank) ?_⟩
      apply le_antisymm _ (h.abs_nearest (rank + 1))
      exact (abs_sub_ge_abs_sub_iff_of_lt hlt).mpr hmiddle.ge
  · rintro ⟨hle, heven⟩
    by_contra hgt
    have hlt : ratio false bound < ratio false rank := ratio_false_lt_iff.mpr (not_le.mp hgt)
    have hnear := (abs_sub_ge_abs_sub_iff_of_lt hlt).mp (h.abs_nearest bound)
    -- Only the next rank is not farther off, and then the number is the middle itself.
    obtain rfl : rank = bound + 1 := by
      apply le_antisymm _ (not_le.mp hgt)
      by_contra hfar
      have hratio := ratio_false_lt_iff.mpr (not_le.mp hfar)
      linarith
    have hmiddle := le_antisymm hle hnear
    have htie : |(|x| - ratio false bound)| = |(|x| - ratio false (bound + 1))| := by
      apply le_antisymm _ (h.abs_nearest bound)
      exact (abs_sub_le_abs_sub_iff_of_lt hstep).mpr hle
    have hbound := heven hmiddle
    have hrank := h.abs_even (Nat.lt_add_one bound).ne htie
    omega

theorem IsNearestRatio.rank_le (h : IsNearestRatio x negative rank) {bound : Nat}
    (hx : |x| ≤ units bound / unitsPerOne) : rank ≤ bound := by
  rw [← ratio_false] at hx
  -- The magnitude itself lies below the middle after it.
  have hstep : ratio false bound < ratio false (bound + 1) :=
    ratio_false_lt_iff.mpr (Nat.lt_add_one bound)
  apply (h.rank_le_iff bound).mpr
  exact ⟨by linarith, fun hmiddle => by linarith⟩

theorem isNearestRatio_ratio (negative : Bool) (rank : Nat) :
    IsNearestRatio (ratio negative rank) negative rank := by
  constructor
  · intro s r
    rw [sub_self, abs_zero]
    exact abs_nonneg _
  · intro s r hne hsame
    rw [sub_self, abs_zero, abs_eq_zero, sub_eq_zero] at hsame
    exact absurd hsame.symm hne

/-- A larger number is not rounded to a smaller magnitude. -/
theorem IsNearestRatio.rank_mono {y : ℚ} {s : Bool} {r : Nat} (hx : IsNearestRatio x negative rank)
    (hy : IsNearestRatio y s r) (h : |x| ≤ |y|) : rank ≤ r := by
  obtain ⟨hle, heven⟩ := (hy.rank_le_iff r).mp le_rfl
  apply (hx.rank_le_iff r).mpr
  exact ⟨by linarith, fun hmiddle => heven (by linarith)⟩

/-- The last of 53 bits is not larger than the step to a magnitude. -/
theorem ratio_step (rank : Nat) :
    ratio false (rank + 1) ≤ 2 ^ 53 * (ratio false (rank + 1) - ratio false rank) := by
  obtain ⟨exponent, m, rfl, hlow, hhigh⟩ : ∃ exponent m, rank = exponent * binadeSize + m ∧
      (exponent = 0 ∨ binadeSize ≤ m) ∧ m + 1 ≤ 2 * binadeSize := by
    rcases rank_cases rank with h | ⟨exponent, fraction, hfraction, rfl⟩
    · exact ⟨0, rank, by omega, .inl rfl, by omega⟩
    · exact ⟨exponent, binadeSize + fraction, by rw [Nat.add_one_mul]; omega,
        .inr (by omega), by omega⟩
  have hnext : units (exponent * binadeSize + (m + 1)) = (m + 1) * 2 ^ exponent :=
    units_binade (hlow.imp_right fun h => by omega) hhigh
  rw [← Nat.add_assoc] at hnext
  have hsize : ((m + 1 : Nat) : ℚ) ≤ 2 ^ 53 := by
    rw [binadeSize_eq] at hhigh
    exact_mod_cast hhigh
  rw [ratio_false, ratio_false, hnext, units_binade hlow (by omega), ← sub_div, mul_div_assoc']
  apply div_le_div_of_nonneg_right _ unitsPerOne_cast_pos.le
  have hstep : (((m + 1) * 2 ^ exponent : Nat) : ℚ) - ((m * 2 ^ exponent : Nat) : ℚ) =
      2 ^ exponent := by
    push_cast
    ring
  rw [hstep, Nat.cast_mul, Nat.cast_pow, Nat.cast_ofNat]
  exact mul_le_mul_of_nonneg_right hsize (by positivity)

end Rank

theorem isZero_ofRank (negative : Bool) (rank : Nat) :
    (ofRank negative rank).isZero = true ↔ rank = 0 := by
  have hpos : 0 < finiteCount := by decide
  unfold ofRank
  split
  · exact beq_iff_eq
  · simp only [isZero, Bool.false_eq_true, false_iff]
    omega

theorem ratio_one : ratio false 1 = 1 / 2 ^ 1074 := by
  rw [ratio_false, units_of_lt (by decide), unitsPerOne_eq, Nat.cast_one, Nat.cast_pow,
    Nat.cast_ofNat]

/-- The magnitude after the largest finite one. -/
theorem ratio_finiteCount : ratio false finiteCount = 2 ^ 1024 := by
  have hpow : (2 : ℚ) ^ 52 * 2 ^ 2046 = 2 ^ 1024 * 2 ^ 1074 := by
    rw [← pow_add, ← pow_add]
  rw [ratio_false, units_finiteCount, unitsPerOne_eq, Nat.cast_mul, Nat.cast_pow, Nat.cast_pow,
    Nat.cast_pow, Nat.cast_ofNat, hpow]
  exact mul_div_cancel_right₀ _ (pow_ne_zero _ two_ne_zero)

theorem ratio_largest : ratio false (finiteCount - 1) = 2 ^ 1024 - 2 ^ 971 := by
  have hrank : finiteCount - 1 = (2045 + 1) * binadeSize + (binadeSize - 1) := by decide
  have hsize : binadeSize + (binadeSize - 1) = 2 ^ 53 - 1 := by decide
  have hpow : ((2 : ℚ) ^ 53 - 1) * 2 ^ 2045 = (2 ^ 1024 - 2 ^ 971) * 2 ^ 1074 := by
    rw [sub_mul, sub_mul, one_mul, ← pow_add, ← pow_add, ← pow_add]
  rw [ratio_false, hrank, units_normal 2045 _ (by decide), hsize, unitsPerOne_eq, Nat.cast_mul,
    Nat.cast_sub Nat.one_le_two_pow, Nat.cast_pow, Nat.cast_pow, Nat.cast_pow, Nat.cast_ofNat,
    Nat.cast_one, hpow]
  exact mul_div_cancel_right₀ _ (pow_ne_zero _ two_ne_zero)

section Ends

variable {x : ℚ} {a b : Binary64}

/-- A number within the range of finite values is rounded to a finite value. -/
theorem RoundsTo.isFinite (h : RoundsTo x a) (hb : b.isFinite = true) (hx : |x| ≤ |b.toRat|) :
    a.isFinite = true := by
  obtain ⟨negative, rank, rfl, hnearest⟩ := h
  cases b with
  | nan | infinity s => simp [Binary64.isFinite] at hb
  | finite s bound =>
    rw [toRat, abs_ratio] at hx
    rw [isFinite_ofRank]
    exact (hnearest.rank_le hx).trans_lt bound.isLt

/-- A number is rounded to zero where it does not exceed half of the least positive value. -/
theorem RoundsTo.isZero_iff (h : RoundsTo x a) : a.isZero = true ↔ |x| ≤ 1 / 2 ^ 1075 := by
  obtain ⟨negative, rank, rfl, hnearest⟩ := h
  have hhalf : (1 : ℚ) / 2 ^ 1074 = 2 * (1 / 2 ^ 1075) := by
    rw [pow_succ' 2 1074]
    field_simp
  rw [isZero_ofRank, ← Nat.le_zero, hnearest.rank_le_iff 0, ratio_zero, Nat.zero_add, ratio_one,
    zero_add, hhalf, mul_le_mul_iff_right₀ two_pos]
  exact and_iff_left fun _ => rfl

/-- A number overflows from half a last place beyond the largest finite value on. -/
theorem RoundsTo.isFinite_iff (h : RoundsTo x a) :
    a.isFinite = true ↔ |x| < 2 ^ 1024 - 2 ^ 970 := by
  obtain ⟨negative, rank, rfl, hnearest⟩ := h
  have hcount : finiteCount - 1 + 1 = finiteCount := by decide
  have hmiddle (largest place : ℚ) :
      largest - 2 * place + largest = 2 * (largest - place) := by
    ring
  have hodd : (finiteCount - 1) % 2 ≠ 0 := by decide
  rw [isFinite_ofRank, Nat.lt_iff_le_pred (by decide), hnearest.rank_le_iff, hcount, ratio_largest,
    ratio_finiteCount, pow_succ' 2 970, hmiddle, mul_le_mul_iff_right₀ two_pos,
    mul_right_inj' two_ne_zero, lt_iff_le_and_ne]
  -- The largest rank is odd, so the middle after it overflows.
  exact and_congr_right fun _ => imp_congr_right fun _ => iff_of_false hodd id

end Ends

end LineCalculator.Binary64
