import LineCalculator.Proofs.Binary64.FlooredQuotient

/-!
Where the operations have no value. Sum, product, quotient and power of values that are not NaN are
NaN exactly there. Floored division compares, rounds and subtracts values that may be infinite, but
no NaN of these steps is left in a result unless the dividend is infinite.
-/
namespace LineCalculator.Binary64

section Rounded

theorem ofRank_ne_nan (negative : Bool) (rank : Nat) : ofRank negative rank ≠ .nan := by
  unfold ofRank
  split <;> simp

theorem ofUnits_ne_nan (zeroNegative : Bool) (value : Int) : ofUnits zeroNegative value ≠ .nan := by
  unfold ofUnits
  split
  · simp [zero]
  · exact ofRank_ne_nan _ _

end Rounded

theorem isInteger_iff {a : Binary64} : a.isInteger = true ↔ ∃ n, IsInt a n := by
  cases a with
  | nan | infinity s => simp [isInteger, IsInt]
  | finite s rank =>
    have hunits : units rank % unitsPerOne = 0 ↔ (unitsPerOne : Int) ∣ signedUnits s rank := by
      rw [← Nat.dvd_iff_mod_eq_zero, ← natAbs_signedUnits s, Int.natCast_dvd]
    rw [isInteger, beq_iff_eq, hunits]
    constructor
    · rintro ⟨n, hn⟩
      exact ⟨n, s, rank, rfl, by rw [hn, Int.mul_comm]⟩
    · rintro ⟨n, t, rank', heq, hn⟩
      obtain ⟨rfl, rfl⟩ := Binary64.finite.inj heq
      exact ⟨n, by rw [hn, Int.mul_comm]⟩

theorem finite_lt_zero_iff {s : Bool} {rank : Fin finiteCount} :
    Binary64.finite s rank < zero false ↔ s = true ∧ rank.val ≠ 0 := by
  have hpos := Nat.pos_iff_ne_zero (n := rank.val)
  change lt _ _ = true ↔ _
  cases s <;> simp [lt, place?, zero, hpos]

theorem zero_lt_finite_iff {s : Bool} {rank : Fin finiteCount} :
    zero false < Binary64.finite s rank ↔ s = false ∧ rank.val ≠ 0 := by
  have hpos := Nat.pos_iff_ne_zero (n := rank.val)
  change lt _ _ = true ↔ _
  cases s <;> simp [lt, place?, zero, hpos]

section Operations

variable {a b : Binary64}

theorem add_eq_nan_iff (ha : a ≠ .nan) (hb : b ≠ .nan) :
    a + b = .nan ↔ ∃ s, a = .infinity s ∧ b = .infinity (!s) := by
  change add a b = .nan ↔ _
  cases a with
  | nan => exact absurd rfl ha
  | infinity s =>
    cases b with
    | nan => exact absurd rfl hb
    | infinity t => cases s <;> cases t <;> simp [add]
    | finite t rank => simp [add]
  | finite s rank =>
    cases b with
    | nan => exact absurd rfl hb
    | infinity t => simp [add]
    | finite t rank' => simp [add, ofUnits_ne_nan]

theorem neg_ne_nan (hb : b ≠ .nan) : -b ≠ .nan := by
  cases b with
  | nan => exact absurd rfl hb
  | infinity t | finite t rank => exact Binary64.noConfusion

theorem sub_eq_nan_iff (ha : a ≠ .nan) (hb : b ≠ .nan) :
    a - b = .nan ↔ ∃ s, a = .infinity s ∧ b = .infinity s := by
  change a + -b = .nan ↔ _
  rw [add_eq_nan_iff ha (neg_ne_nan hb)]
  cases b with
  | nan => exact absurd rfl hb
  | infinity t =>
    change (∃ s, a = .infinity s ∧ Binary64.infinity (!t) = .infinity (!s)) ↔ _
    simp
  | finite t rank =>
    change (∃ s, a = .infinity s ∧ Binary64.finite (!t) rank = .infinity (!s)) ↔ _
    simp

theorem mul_eq_nan_iff (ha : a ≠ .nan) (hb : b ≠ .nan) :
    a * b = .nan ↔ a.isZero = true ∧ (∃ t, b = .infinity t) ∨
      (∃ s, a = .infinity s) ∧ b.isZero = true := by
  change mul a b = .nan ↔ _
  cases a with
  | nan => exact absurd rfl ha
  | infinity s =>
    cases b with
    | nan => exact absurd rfl hb
    | infinity t => simp [mul, isZero]
    | finite t rank => simp [mul, isZero]
  | finite s rank =>
    cases b with
    | nan => exact absurd rfl hb
    | infinity t => simp [mul, isZero]
    | finite t rank' => simp [mul, ofRatio, ofRank_ne_nan]

theorem div_eq_nan_iff (ha : a ≠ .nan) (hb : b ≠ .nan) (hzero : b.isZero = false) :
    a / b = .nan ↔ (∃ s, a = .infinity s) ∧ ∃ t, b = .infinity t := by
  change div a b = .nan ↔ _
  cases a with
  | nan => exact absurd rfl ha
  | infinity s =>
    cases b with
    | nan => exact absurd rfl hb
    | infinity t => simp [div]
    | finite t rank => simp [div]
  | finite s rank =>
    cases b with
    | nan => exact absurd rfl hb
    | infinity t => simp [div, zero]
    | finite t divisor =>
      have hdivisor : divisor.val ≠ 0 := by simpa [isZero] using hzero
      simp [div, hdivisor, ofRatio, ofRank_ne_nan]

theorem isInteger_of_isZero (h : a.isZero = true) : a.isInteger = true := by
  cases a with
  | nan | infinity s => cases h
  | finite s rank =>
    rw [isZero, beq_iff_eq] at h
    simp [isInteger, h, units_zero]

/-- The powers of finite values, but for the exponent zero and the base one. -/
theorem pow_finite_eq_nan_iff {s t : Bool} {base exponent : Fin finiteCount}
    (hone : ¬ ((Binary64.finite t exponent).isZero || Binary64.finite s base == one) = true) :
    (Binary64.finite s base).pow (.finite t exponent) = .nan ↔
      (s = true ∧ base.val ≠ 0) ∧ (Binary64.finite t exponent).isInteger = false := by
  unfold pow
  rw [if_neg hone]
  dsimp only
  by_cases hbase : base.val = 0
  · rw [if_pos hbase]
    refine iff_of_false ?_ (by simp [hbase])
    split <;> simp [zero]
  rw [if_neg hbase]
  by_cases hundefined : (s && !(Binary64.finite t exponent).isInteger) = true
  · rw [if_pos hundefined]
    simp only [Bool.and_eq_true, Bool.not_eq_true'] at hundefined
    exact iff_of_true rfl ⟨⟨hundefined.1, hbase⟩, hundefined.2⟩
  · rw [if_neg hundefined]
    refine iff_of_false ?_ (by simpa [hbase] using hundefined)
    split
    · simp
    · exact ofRank_ne_nan _ _

/-- A power is undefined where a finite negative base meets a finite exponent that is not whole. -/
theorem pow_eq_nan_iff (ha : a ≠ .nan) (hb : b ≠ .nan) :
    a.pow b = .nan ↔ (a.isFinite = true ∧ a < zero false) ∧
      b.isFinite = true ∧ ∀ n, ¬ IsInt b n := by
  have hwhole : (∀ n, ¬ IsInt b n) ↔ b.isInteger = false := by
    rw [← not_exists, ← isInteger_iff, Bool.not_eq_true]
  rw [hwhole]
  by_cases hone : (b.isZero || a == one) = true
  · unfold pow
    rw [if_pos hone]
    refine iff_of_false (by decide) ?_
    rintro ⟨⟨-, hneg⟩, -, hinteger⟩
    rcases Bool.or_eq_true_iff.mp hone with hzero | hbase
    · rw [isInteger_of_isZero hzero] at hinteger
      cases hinteger
    · rw [beq_iff_eq.mp hbase] at hneg
      exact absurd hneg (by decide)
  cases a with
  | nan => exact absurd rfl ha
  | infinity s =>
    cases b with
    | nan => exact absurd rfl hb
    | infinity t | finite t exponent =>
      refine iff_of_false ?_ (by simp [isFinite])
      unfold pow
      rw [if_neg hone]
      dsimp only
      split <;> simp [zero]
  | finite s base =>
    cases b with
    | nan => exact absurd rfl hb
    | infinity t =>
      refine iff_of_false ?_ (by simp [isFinite])
      unfold pow
      rw [if_neg hone]
      dsimp only
      split
      · decide
      · split <;> simp [zero]
    | finite t exponent =>
      rw [pow_finite_eq_nan_iff hone, finite_lt_zero_iff]
      simp [isFinite]

end Operations

section FlooredDivision

variable {a b : Binary64}

/-- With an infinite dividend there is no remainder, and with it no quotient. -/
theorem floorDivMod_infinity_left (s : Bool) (b : Binary64) :
    floorDivMod (.infinity s) b = (.nan, .nan) := by
  have hrem : truncatedRem (.infinity s) b = .nan := by cases b <;> rfl
  have hquotient (d : Binary64) : (d - .nan) / b = .nan := by cases d <;> cases b <;> rfl
  rw [floorDivMod_eq, hrem]
  dsimp only
  rw [hquotient]
  split
  · rename_i h
    exact absurd h (by decide)
  · split
    · exact Prod.ext rfl (by cases b <;> rfl)
    · rfl

/-- A finite dividend is its own remainder by an infinity of its sign. By the other infinity the
floored quotient is minus one, which leaves the divisor. -/
theorem floorDivMod_infinity_right (s t : Bool) (rank : Fin finiteCount) :
    floorDivMod (.finite s rank) (.infinity t) =
      if rank.val = 0 then (zero (s != t), zero t)
      else if s = t then (zero (s != t), .finite s rank)
      else (-one, .infinity t) := by
  have hdiff : Binary64.finite s rank - .finite s rank = zero false := by
    change ofUnits (s && !s) (signedUnits s rank + signedUnits (!s) rank) = _
    cases s <;> simp [signedUnits, ofUnits]
  have hquotient : (Binary64.finite s rank - .finite s rank) / .infinity t = zero t := by
    rw [hdiff]
    cases t <;> rfl
  have hrem : truncatedRem (.finite s rank) (.infinity t) = .finite s rank := rfl
  have hsign : (Binary64.finite s rank / Binary64.infinity t).isNegative = (s != t) := rfl
  have hminus (negative : Bool) : settle negative (zero t - one) = -one := by
    cases negative <;> cases t <;> decide +kernel
  have hdivisor : (Binary64.infinity t < zero false) ↔ t = true := by cases t <;> decide
  rw [floorDivMod_eq, hrem]
  dsimp only
  rw [hquotient, hsign, hminus]
  simp only [isZero, beq_iff_eq, finite_lt_zero_iff, hdivisor]
  by_cases hrank : rank.val = 0
  · rw [if_pos hrank, if_pos hrank]
    rfl
  · rw [if_neg hrank, if_neg hrank]
    cases s <;> cases t <;> simp [hrank] <;> rfl

theorem floorDiv_infinity_right (ha : a.isFinite = true) (t : Bool) : a.floorDiv (.infinity t) =
    if a.isZero = true ∨ a.isNegative = t then zero (a.isNegative != t) else -one := by
  obtain ⟨s, rank, rfl⟩ := exists_finite ha
  have hzero : (Binary64.finite s rank).isZero = true ↔ rank.val = 0 := beq_iff_eq
  rw [floorDiv, floorDivMod_infinity_right, isNegative]
  by_cases hrank : rank.val = 0
  · rw [if_pos hrank, if_pos (.inl (hzero.mpr hrank))]
  rw [if_neg hrank]
  by_cases hsign : s = t
  · rw [if_pos hsign, if_pos (.inr hsign)]
  · rw [if_neg hsign, if_neg (not_or.mpr ⟨mt hzero.mp hrank, hsign⟩)]

theorem floorMod_infinity_right (ha : a.isFinite = true) (t : Bool) : a.floorMod (.infinity t) =
    if a.isZero = true then zero t else if a.isNegative = t then a else .infinity t := by
  obtain ⟨s, rank, rfl⟩ := exists_finite ha
  have hzero : (Binary64.finite s rank).isZero = true ↔ rank.val = 0 := beq_iff_eq
  rw [floorMod, floorDivMod_infinity_right]
  by_cases hrank : rank.val = 0
  · rw [if_pos hrank, if_pos (hzero.mpr hrank)]
  rw [if_neg hrank, if_neg (mt hzero.mp hrank), isNegative]
  split <;> rfl

/-- An overflow of the quotient before its last steps is an overflow of the result. -/
theorem floorDiv_eq_infinity {u : Bool} (h : (a - truncatedRem a b) / b = .infinity u) :
    a.floorDiv b = .infinity u := by
  have hsub : Binary64.infinity u - one = .infinity u := rfl
  rw [floorDiv, floorDivMod_eq]
  dsimp only
  rw [h, hsub]
  split
  · exact settle_infinity (a / b).isNegative u
  · split <;> exact settle_infinity (a / b).isNegative u

theorem floorDiv_eq_nan_iff (ha : a ≠ .nan) (hb : b ≠ .nan) (hzero : b.isZero = false) :
    a.floorDiv b = .nan ↔ ∃ s, a = .infinity s := by
  cases a with
  | nan => exact absurd rfl ha
  | infinity s => simp [floorDiv, floorDivMod_infinity_left]
  | finite s rank =>
    refine iff_of_false ?_ (by simp)
    cases b with
    | nan => exact absurd rfl hb
    | infinity t =>
      rw [floorDiv_infinity_right rfl]
      split
      · simp [zero]
      · decide
    | finite t divisor =>
      intro hnan
      have hcases := floorDiv_cases (a := .finite s rank) rfl rfl hzero
      rw [hnan] at hcases
      obtain ⟨n, hn⟩ | ⟨u, v, hu, -⟩ := hcases
      · exact absurd hn.isFinite (by decide)
      · cases hu

theorem floorMod_eq_nan_iff (ha : a ≠ .nan) (hb : b ≠ .nan) (hzero : b.isZero = false) :
    a.floorMod b = .nan ↔ ∃ s, a = .infinity s := by
  cases a with
  | nan => exact absurd rfl ha
  | infinity s => simp [floorMod, floorDivMod_infinity_left]
  | finite s rank =>
    refine iff_of_false ?_ (by simp)
    cases b with
    | nan => exact absurd rfl hb
    | infinity t =>
      rw [floorMod_infinity_right rfl]
      split
      · simp [zero]
      · split <;> simp
    | finite t divisor =>
      have hdivisor : divisor.val ≠ 0 := by simpa [isZero] using hzero
      rw [floorMod_eq s t rank hdivisor]
      exact ofUnits_ne_nan _ _

end FlooredDivision

end LineCalculator.Binary64
