import LineCalculator.Proofs.Decimal.Rationals
import LineCalculator.Proofs.Decimal.Shortest
import Mathlib.Algebra.Order.Floor.Semifield

/-!
The decimals around a magnitude. On the grid of a power of ten the magnitude has a lower and an
upper neighbour, and no decimal of the digits that this grid leaves lies between them, so that a
decimal rounds to the magnitude only if a neighbour that is not farther off does.
-/
namespace LineCalculator.Decimal

open Binary64 (ratio)

/-- The largest multiple of a power of ten that is not above the magnitude. -/
def lower (rank : Nat) (exponent : Int) : Decimal :=
  ⟨⌊ratio false rank / 10 ^ exponent⌋₊, exponent⟩

def upper (rank : Nat) (exponent : Int) : Decimal :=
  ⟨⌊ratio false rank / 10 ^ exponent⌋₊ + 1, exponent⟩

section Grid

variable (rank : Nat) (exponent : Int)

theorem zpow_ten_pos : (0 : ℚ) < 10 ^ exponent :=
  zpow_pos (by norm_num) exponent

/-- A power of ten is split off from a larger one. -/
theorem zpow_ten_eq_mul {n exponent : Int} {places : Nat} (h : n = places + exponent) :
    (10 : ℚ) ^ n = 10 ^ places * 10 ^ exponent := by
  rw [h, zpow_add₀ (by norm_num), zpow_natCast]

/-- The quotient that the search divides out. -/
theorem ratio_div_pow : ratio false rank / 10 ^ exponent =
    ((Binary64.units rank * Nat.pow 10 (-exponent).toNat : Nat) : ℚ) /
      ((Binary64.unitsPerOne * Nat.pow 10 exponent.toNat : Nat) : ℚ) := by
  rw [Binary64.ratio_false, zpow_eq_div]
  have hunit := Binary64.unitsPerOne_cast_pos
  simp only [Nat.pow_eq, Nat.cast_mul, Nat.cast_pow, Nat.cast_ofNat]
  field_simp

theorem lower_le : (lower rank exponent).toRat ≤ ratio false rank := by
  have hpow := zpow_ten_pos exponent
  rw [toRat, lower, ← le_div_iff₀ hpow]
  exact Nat.floor_le (div_nonneg (Binary64.ratio_false_nonneg rank) hpow.le)

theorem lt_upper : ratio false rank < (upper rank exponent).toRat := by
  have hpow := zpow_ten_pos exponent
  rw [toRat, upper, ← div_lt_iff₀ hpow]
  push_cast
  exact Nat.lt_floor_add_one _

theorem upper_toRat :
    (upper rank exponent).toRat = (lower rank exponent).toRat + 10 ^ exponent := by
  rw [toRat, toRat, upper, lower]
  push_cast
  ring

/-- The remainder tells which multiple of the divisor is nearer. -/
theorem sub_floor_lt_iff (num : Nat) {den : Nat} (hden : 0 < den) :
    (num : ℚ) / den - (num / den : Nat) < (num / den + 1 : Nat) - (num : ℚ) / den ↔
      2 * (num % den) < den := by
  have hden' : (0 : ℚ) < den := by exact_mod_cast hden
  have hnum : (num : ℚ) / den = (num / den : Nat) + (num % den : Nat) / den := by
    rw [div_eq_iff hden'.ne', add_mul, div_mul_cancel₀ _ hden'.ne']
    exact_mod_cast (Nat.div_add_mod' num den).symm
  have hhalf : (num / den : Nat) + ((num % den : Nat) : ℚ) / den - (num / den : Nat) <
      (num / den + 1 : Nat) - ((num / den : Nat) + ((num % den : Nat) : ℚ) / den) ↔
        2 * (((num % den : Nat) : ℚ) / den) < 1 := by
    push_cast
    constructor <;> intro h <;> linarith
  rw [hnum, hhalf, ← mul_div_assoc, div_lt_one hden']
  exact_mod_cast Iff.rfl

/-- The search tests both neighbours and compares their distances to the magnitude. -/
theorem onGrid?_eq : onGrid? rank exponent =
    choose? (decide (ratio false rank - (lower rank exponent).toRat <
        (upper rank exponent).toRat - ratio false rank))
      ([lower rank exponent, upper rank exponent].filter (·.nearestRank == rank)) := by
  have hpow := zpow_ten_pos exponent
  have hx : ratio false rank = ratio false rank / 10 ^ exponent * 10 ^ exponent :=
    (div_mul_cancel₀ _ hpow.ne').symm
  have hden : 0 < Binary64.unitsPerOne * Nat.pow 10 exponent.toNat :=
    Nat.mul_pos Binary64.unitsPerOne_pos (pow_ten_pos _)
  rw [toRat, toRat, lower, upper, hx]
  dsimp only
  rw [mul_div_cancel_right₀ _ hpow.ne', ratio_div_pow, onGrid?]
  generalize Binary64.units rank * Nat.pow 10 (-exponent).toNat = num
  generalize Binary64.unitsPerOne * Nat.pow 10 exponent.toNat = den at hden
  have hnearer : (num : ℚ) / den * 10 ^ exponent - (num / den : Nat) * 10 ^ exponent <
      (num / den + 1 : Nat) * 10 ^ exponent - (num : ℚ) / den * 10 ^ exponent ↔
        2 * (num % den) < den := by
    rw [← sub_mul, ← sub_mul, mul_lt_mul_iff_left₀ hpow, sub_floor_lt_iff num hden]
  rw [Nat.floor_div_eq_div]
  simp only [hnearer]

end Grid

def IsNeighbour (rank : Nat) (exponent : Int) (d : Decimal) : Prop :=
  d = lower rank exponent ∨ d = upper rank exponent

section Candidates

variable {low high d : Decimal} {rounds : Decimal → Bool} {x : ℚ}

theorem choose?_eq_none {lowerNearer : Bool} {candidates : List Decimal}
    (h : choose? lowerNearer candidates = none) : candidates = [] := by
  unfold choose? at h
  split at h
  · rfl
  · cases h
  · cases h

/-- The chosen candidate is the nearest one of those that round. -/
theorem of_choose? (h : choose? (decide (|low.toRat - x| < |high.toRat - x|))
      ([low, high].filter rounds) = some d) :
    (d = low ∨ d = high) ∧ ∀ d', d' = low ∨ d' = high → rounds d' = true →
      |d.toRat - x| ≤ |d'.toRat - x| := by
  cases hlow : rounds low <;> cases hhigh : rounds high <;>
    simp only [List.filter, hlow, hhigh, choose?] at h
  · cases h
  · obtain rfl := Option.some.inj h
    refine ⟨.inr rfl, ?_⟩
    rintro d' (rfl | rfl) hrounds
    · rw [hlow] at hrounds
      cases hrounds
    · exact le_rfl
  · obtain rfl := Option.some.inj h
    refine ⟨.inl rfl, ?_⟩
    rintro d' (rfl | rfl) hrounds
    · exact le_rfl
    · rw [hhigh] at hrounds
      cases hrounds
  · obtain rfl := Option.some.inj h
    by_cases hnearer : |low.toRat - x| < |high.toRat - x|
    · rw [if_pos (decide_eq_true hnearer)]
      refine ⟨.inl rfl, ?_⟩
      rintro d' (rfl | rfl) -
      · exact le_rfl
      · exact hnearer.le
    · rw [if_neg (by simpa using hnearer)]
      refine ⟨.inr rfl, ?_⟩
      rintro d' (rfl | rfl) -
      · exact not_lt.mp hnearer
      · exact le_rfl

end Candidates

section Choice

variable {rank : Nat} {exponent : Int} {d : Decimal}

/-- The search refuses a grid only if neither neighbour rounds to the magnitude. -/
theorem onGrid?_ne_none (h : IsNeighbour rank exponent d) (hrank : d.nearestRank = rank) :
    onGrid? rank exponent ≠ none := by
  have hmem : d ∈ [lower rank exponent, upper rank exponent].filter (·.nearestRank == rank) := by
    rcases h with rfl | rfl <;> simp [hrank]
  rw [onGrid?_eq]
  intro hnone
  rw [choose?_eq_none hnone] at hmem
  cases hmem

/-- The search finds the nearest neighbour that rounds to the magnitude. -/
theorem of_onGrid? (h : onGrid? rank exponent = some d) : IsNeighbour rank exponent d ∧
    ∀ d', IsNeighbour rank exponent d' → d'.nearestRank = rank →
      |d.toRat - ratio false rank| ≤ |d'.toRat - ratio false rank| := by
  have hlower : |(lower rank exponent).toRat - ratio false rank| =
      ratio false rank - (lower rank exponent).toRat := by
    rw [abs_sub_comm, abs_of_nonneg (sub_nonneg.mpr (lower_le rank exponent))]
  have hupper : |(upper rank exponent).toRat - ratio false rank| =
      (upper rank exponent).toRat - ratio false rank :=
    abs_of_pos (sub_pos.mpr (lt_upper rank exponent))
  rw [onGrid?_eq, ← hlower, ← hupper] at h
  obtain ⟨hd, hnearest⟩ := of_choose? h
  exact ⟨hd, fun d' hd' hrank => hnearest d' hd' (beq_iff_eq.mpr hrank)⟩

/-- A decimal that is not between the neighbours rounds to the magnitude only if a neighbour does
that is not farther off. -/
theorem exists_isNeighbour (hrank : d.nearestRank = rank)
    (hside : d.toRat ≤ (lower rank exponent).toRat ∨ (upper rank exponent).toRat ≤ d.toRat) :
    ∃ d', IsNeighbour rank exponent d' ∧ d'.nearestRank = rank ∧
      |d'.toRat - ratio false rank| ≤ |d.toRat - ratio false rank| := by
  have hlower := lower_le rank exponent
  have hupper := (lt_upper rank exponent).le
  rcases hside with hside | hside
  · refine ⟨lower rank exponent, .inl rfl, ?_, ?_⟩
    · apply le_antisymm (nearestRank_le_of_toRat_le hlower)
      exact hrank.symm.le.trans (nearestRank_le_nearestRank hside)
    · rw [abs_sub_comm, abs_of_nonneg (by linarith), abs_sub_comm, abs_of_nonneg (by linarith)]
      linarith
  · refine ⟨upper rank exponent, .inr rfl, ?_, ?_⟩
    · apply le_antisymm _ (le_nearestRank_of_le_toRat hupper)
      exact (nearestRank_le_nearestRank hside).trans hrank.le
    · rw [abs_of_nonneg (by linarith), abs_of_nonneg (by linarith)]
      linarith

end Choice

section LeadingPlace

variable {rank : Nat}

/-- The length of a positive number's digits. -/
theorem pow_length_toDigits_le {n : Nat} (hn : 0 < n) :
    10 ^ ((Nat.toDigits 10 n).length - 1) ≤ n := by
  by_contra hlt
  rcases Nat.eq_zero_or_pos ((Nat.toDigits 10 n).length - 1) with hzero | hpos
  · rw [hzero] at hlt
    omega
  · have hle := (Nat.length_toDigits_le_iff (by decide) hpos).mpr (not_le.mp hlt)
    omega

theorem lt_pow_length_toDigits (n : Nat) : n < 10 ^ (Nat.toDigits 10 n).length :=
  (Nat.length_toDigits_le_iff (by decide) Nat.length_toDigits_pos).mp le_rfl

/-- The digits of a number, counted on a grid that leaves one of them at least. -/
theorem length_toDigits_floor {x : ℚ} {places : Nat} (hx : 1 ≤ x * 10 ^ places) :
    let place : Int := ((Nat.toDigits 10 ⌊x * 10 ^ places⌋₊).length : Int) - places
    10 ^ (place - 1) ≤ x ∧ x < 10 ^ place := by
  have hpow : (0 : ℚ) < 10 ^ places := by positivity
  have hlow := pow_length_toDigits_le (Nat.floor_pos.mpr hx)
  have hhigh := lt_pow_length_toDigits ⌊x * 10 ^ places⌋₊
  have hpos := Nat.length_toDigits_pos (b := 10) (n := ⌊x * 10 ^ places⌋₊)
  generalize (Nat.toDigits 10 ⌊x * 10 ^ places⌋₊).length = count at hlow hhigh hpos
  rw [Nat.le_floor_iff (by linarith)] at hlow
  rw [Nat.floor_lt (by linarith)] at hhigh
  push_cast at hlow hhigh
  have hcount : ((count : Int) - 1) = ((count - 1 : Nat) : Int) := by omega
  constructor
  · rw [sub_right_comm, hcount, zpow_sub₀ (by norm_num), zpow_natCast, zpow_natCast,
      div_le_iff₀ hpow]
    exact hlow
  · rw [zpow_sub₀ (by norm_num), zpow_natCast, zpow_natCast, lt_div_iff₀ hpow]
    exact hhigh

theorem leadingPlace_bounds (hrank : rank ≠ 0) :
    10 ^ (leadingPlace rank - 1) ≤ ratio false rank ∧
      ratio false rank < 10 ^ leadingPlace rank := by
  have hunits : 0 < Binary64.units rank :=
    Nat.pos_of_ne_zero (Binary64.units_eq_zero_iff.not.mpr hrank)
  have hplaces : Binary64.unitsPerOne ≤ Nat.pow 10 324 := by decide +kernel
  have hcast : (324 : Int) = ((324 : Nat) : Int) := rfl
  unfold leadingPlace
  dsimp only
  rw [hcast]
  -- The number of places is large, so that it stays a variable from here on.
  generalize 324 = places at hplaces ⊢
  have hquotient : ratio false rank * 10 ^ places =
      ((Binary64.units rank * Nat.pow 10 places : Nat) : ℚ) / Binary64.unitsPerOne := by
    rw [Binary64.ratio_false, div_mul_eq_mul_div, Nat.pow_eq]
    push_cast
    rfl
  have hfloor : ⌊ratio false rank * 10 ^ places⌋₊ =
      Binary64.units rank * Nat.pow 10 places / Binary64.unitsPerOne := by
    rw [hquotient, Nat.floor_div_eq_div]
  have hone : 1 ≤ ratio false rank * 10 ^ places := by
    rw [hquotient, le_div_iff₀ Binary64.unitsPerOne_cast_pos, one_mul]
    exact_mod_cast hplaces.trans (Nat.le_mul_of_pos_left _ hunits)
  have hbounds := length_toDigits_floor hone
  rw [hfloor] at hbounds
  exact hbounds

end LeadingPlace

section Digits

variable {rank : Nat} {d : Decimal}

/-- On the grid that leaves `n + 1` digits the neighbours have these digits, but for a carry. -/
theorem coefficient_bounds (hrank : rank ≠ 0) (n : Nat) :
    10 ^ n ≤ (lower rank (leadingPlace rank - 1 - n)).coefficient ∧
      (upper rank (leadingPlace rank - 1 - n)).coefficient ≤ 10 ^ (n + 1) := by
  obtain ⟨hlow, hhigh⟩ := leadingPlace_bounds hrank
  have hpow := zpow_ten_pos (leadingPlace rank - 1 - n)
  have hfirst : (10 : ℚ) ^ (leadingPlace rank - 1) =
      10 ^ n * 10 ^ (leadingPlace rank - 1 - n) :=
    zpow_ten_eq_mul (by omega)
  have hbeyond : (10 : ℚ) ^ leadingPlace rank =
      10 ^ (n + 1) * 10 ^ (leadingPlace rank - 1 - n) :=
    zpow_ten_eq_mul (by omega)
  have hnonneg : 0 ≤ ratio false rank / 10 ^ (leadingPlace rank - 1 - n) :=
    div_nonneg (Binary64.ratio_false_nonneg rank) hpow.le
  constructor
  · rw [lower, Nat.le_floor_iff hnonneg, le_div_iff₀ hpow]
    push_cast
    rw [← hfirst]
    exact hlow
  · rw [upper, Nat.succ_le_iff, Nat.floor_lt hnonneg, div_lt_iff₀ hpow]
    push_cast
    rw [← hbeyond]
    exact hhigh

/-- A decimal of a coarser grid is on the finer one. -/
theorem exists_toRat_eq_mul {exponent : Int} (h : exponent ≤ d.exponent) :
    ∃ m : Nat, d.toRat = m * 10 ^ exponent := by
  have hsum : d.exponent = (d.exponent - exponent).toNat + exponent := by omega
  refine ⟨d.coefficient * 10 ^ (d.exponent - exponent).toNat, ?_⟩
  rw [toRat, Nat.cast_mul, Nat.cast_pow, Nat.cast_ofNat, mul_assoc, ← zpow_ten_eq_mul hsum]

/-- The digits on a finer grid stay below the first place of the coarser one. -/
theorem toRat_le_of_exponent_lt {exponent : Int} {n : Nat} (hd : d.coefficient < 10 ^ (n + 1))
    (h : d.exponent < exponent) : d.toRat ≤ 10 ^ n * 10 ^ exponent := by
  have hcoefficient : (d.coefficient : ℚ) ≤ 10 ^ n * 10 := by
    rw [← pow_succ]
    exact_mod_cast hd.le
  have hstep : (10 : ℚ) ^ d.exponent ≤ 10 ^ (exponent - 1) :=
    zpow_le_zpow_right₀ (by norm_num) (by omega)
  calc d.toRat ≤ 10 ^ n * 10 * 10 ^ (exponent - 1) := by
        apply mul_le_mul hcoefficient hstep (zpow_ten_pos _).le
        positivity
    _ = 10 ^ n * 10 ^ exponent := by
        rw [mul_assoc, ← zpow_one_add₀ (by norm_num), add_sub_cancel]

/-- No decimal of at most `n + 1` digits lies between the neighbours on this grid. -/
theorem not_between (hrank : rank ≠ 0) {n : Nat} (hd : d.coefficient < 10 ^ (n + 1)) :
    d.toRat ≤ (lower rank (leadingPlace rank - 1 - n)).toRat ∨
      (upper rank (leadingPlace rank - 1 - n)).toRat ≤ d.toRat := by
  have hfirst := (coefficient_bounds hrank n).1
  generalize leadingPlace rank - 1 - n = exponent at hfirst
  have hpow := zpow_ten_pos exponent
  rcases le_or_gt exponent d.exponent with hle | hlt
  · obtain ⟨m, hm⟩ := exists_toRat_eq_mul hle
    rcases Nat.lt_or_ge (lower rank exponent).coefficient m with hlt | hge
    · right
      rw [hm]
      exact mul_le_mul_of_nonneg_right (by exact_mod_cast hlt) hpow.le
    · left
      rw [hm]
      exact mul_le_mul_of_nonneg_right (by exact_mod_cast hge) hpow.le
  · left
    apply (toRat_le_of_exponent_lt hd hlt).trans
    exact mul_le_mul_of_nonneg_right (by exact_mod_cast hfirst) hpow.le

end Digits

end LineCalculator.Decimal
