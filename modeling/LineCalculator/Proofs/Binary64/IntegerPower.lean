import LineCalculator.Proofs.Binary64.Integers
import Mathlib.Algebra.Order.Ring.Basic

/-!
Powers of whole numbers. A base other than zero, one and minus one reaches `2 ^ 53` within 53 steps,
so every power below that bound is rounded from the exact power and keeps its value.
-/
namespace LineCalculator.Binary64

theorem IsInt.unique {a : Binary64} {m n : Int} (hm : IsInt a m) (hn : IsInt a n) : m = n := by
  obtain ⟨s, rank, rfl, hunits⟩ := hm
  obtain ⟨t, rank', heq, hunits'⟩ := hn
  obtain ⟨rfl, rfl⟩ : s = t ∧ rank = rank' := by simpa using heq
  exact mul_right_cancel₀ unitsPerOne_ne_zero (hunits.symm.trans hunits')

section Exponent

variable {t : Bool} {exponent : Fin finiteCount} {k : Nat}

theorem units_exponent (h : signedUnits t exponent = (k : Int) * unitsPerOne) :
    units exponent = k * unitsPerOne := by
  simpa using units_eq_of_signedUnits h

theorem isInteger_exponent (h : signedUnits t exponent = (k : Int) * unitsPerOne) :
    isInteger (.finite t exponent) = true := by
  simp [isInteger, units_exponent h]

theorem isOddInteger_exponent (h : signedUnits t exponent = (k : Int) * unitsPerOne) :
    isOddInteger (.finite t exponent) = decide (k % 2 = 1) := by
  simp only [isOddInteger, units_exponent h, Nat.mul_mod_left, beq_self_eq_true, Bool.true_and,
    Nat.mul_div_cancel _ unitsPerOne_pos]
  rfl

theorem not_negative_exponent (h : signedUnits t exponent = (k : Int) * unitsPerOne)
    (hk : k ≠ 0) : t = false := by
  cases t with
  | false => rfl
  | true =>
    have hle := (sign_of_signedUnits h).1 rfl
    omega

end Exponent

/-- A whole exponent in reach is powered exactly before the one rounding. -/
theorem powerRank_eq {base k : Nat} {exponent rank m : Nat} (hk : k ≤ exactPowerLimit)
    (hbase : units base = m * unitsPerOne) (hexponent : units exponent = k * unitsPerOne)
    (hrank : units rank = m ^ k * unitsPerOne) : powerRank base false exponent = rank := by
  have hmod : units exponent % unitsPerOne = 0 := by simp [hexponent]
  have hdiv : units exponent / unitsPerOne = k := by
    rw [hexponent, Nat.mul_div_cancel _ unitsPerOne_pos]
  have hpow : 0 < unitsPerOne ^ k := Nat.pow_pos unitsPerOne_pos
  unfold powerRank
  dsimp only
  rw [if_pos ⟨hmod, hdiv ▸ hk⟩, hdiv, exactPowerRank, if_neg (by decide)]
  apply nearestRank_eq_of_units hpow
  change units base ^ k * unitsPerOne = units rank * unitsPerOne ^ k
  rw [hbase, hrank, Nat.mul_pow]
  ring

/-- A power of a base beyond one is small only for a small exponent. -/
theorem exponent_le {m k : Nat} (hm : 2 ≤ m) (h : m ^ k ≤ 2 ^ 53) : k ≤ exactPowerLimit := by
  have hle : 2 ^ k ≤ 2 ^ 53 := (Nat.pow_le_pow_left hm k).trans h
  have hk := (Nat.pow_le_pow_iff_right Nat.one_lt_two).mp hle
  unfold exactPowerLimit
  omega

/-- The sign of a power: a set sign of the base survives in the odd powers. -/
theorem signedUnits_pow {s : Bool} {base rank k : Nat} {m : Int}
    (hm : signedUnits s base = m * unitsPerOne)
    (hrank : units rank = (m ^ k).natAbs * unitsPerOne) :
    signedUnits (s && decide (k % 2 = 1)) rank = m ^ k * unitsPerOne := by
  obtain ⟨hneg, hnonneg⟩ := sign_of_signedUnits hm
  have hpos : (0 : Int) ≤ unitsPerOne := Int.natCast_nonneg _
  have hnat : units rank = (m ^ k * (unitsPerOne : Int)).natAbs := by
    rw [hrank, Int.natAbs_mul, Int.natAbs_natCast]
  apply signedUnits_eq hnat
  · intro hsign
    obtain ⟨hs, hodd⟩ : s = true ∧ k % 2 = 1 := by simpa using hsign
    have hpow : m ^ k ≤ 0 := (Nat.odd_iff.mpr hodd).pow_nonpos (hneg hs)
    exact mul_nonpos_of_nonpos_of_nonneg hpow hpos
  · intro hsign
    refine mul_nonneg ?_ hpos
    rcases Nat.even_or_odd k with heven | hodd
    · exact heven.pow_nonneg m
    · have hs : s = false := by simpa [Nat.odd_iff.mp hodd] using hsign
      exact pow_nonneg (hnonneg hs) k

/-- Powers of whole numbers with a natural exponent are exact. -/
theorem IsInt.pow {a b : Binary64} {m : Int} {k : Nat} (ha : IsInt a m) (hb : IsInt b k)
    (h : (m ^ k).natAbs ≤ 2 ^ 53) : IsInt (a.pow b) (m ^ k) := by
  unfold Binary64.pow
  by_cases hone : (b.isZero || a == one) = true
  -- The zeroth power, and every power of one.
  · rw [if_pos hone]
    have hpow : m ^ k = 1 := by
      rcases Bool.or_eq_true_iff.mp hone with hzero | hbase
      · have hk : k = 0 := by simpa using hb.isZero_iff.mp hzero
        rw [hk, pow_zero]
      · rw [beq_iff_eq] at hbase
        subst hbase
        rw [ha.unique isInt_one, one_pow]
    rw [hpow]
    exact isInt_one
  rw [if_neg hone]
  have hzero : ¬ b.isZero = true := by
    intro hzero
    simp [hzero] at hone
  have hk : k ≠ 0 := by simpa using hb.isZero_iff.not.mp hzero
  have hazero := ha.isZero_iff
  obtain ⟨s, base, rfl, hm⟩ := ha
  obtain ⟨t, exponent, rfl, hunits⟩ := hb
  obtain rfl := not_negative_exponent hunits hk
  dsimp only
  rw [isOddInteger_exponent hunits, isInteger_exponent hunits]
  simp only [Bool.not_true, Bool.and_false, Bool.false_eq_true, if_false]
  by_cases hbase : base.val = 0
  · have hm0 : m = 0 := by simpa [isZero, hbase] using hazero
    rw [if_pos hbase, hm0, zero_pow hk]
    exact isInt_zero _
  rw [if_neg hbase]
  have hm0 : m ≠ 0 := by simpa [isZero, hbase] using hazero
  by_cases hunit : base.val = rankOne
  -- The base is minus one here, and its powers keep its magnitude.
  · rw [if_pos hunit]
    have habs : m.natAbs = 1 := by
      have hmul := units_eq_of_signedUnits hm
      rw [hunit, units_rankOne] at hmul
      exact Nat.eq_of_mul_eq_mul_right unitsPerOne_pos (by rw [← hmul, Nat.one_mul])
    refine ⟨_, base, rfl, signedUnits_pow hm ?_⟩
    rw [units_eq_of_signedUnits hm, Int.natAbs_pow, habs, one_pow]
  · rw [if_neg hunit]
    have habs : 2 ≤ m.natAbs := by
      have hne : m.natAbs ≠ 1 := by
        intro heq
        apply hunit
        apply units_strictMono.injective
        rw [units_eq_of_signedUnits hm, heq, Nat.one_mul, units_rankOne]
      omega
    rw [Int.natAbs_pow] at h
    obtain ⟨rank, hrank⟩ := exists_rank_of_le h
    have hpower := powerRank_eq (exponent_le habs h) (units_eq_of_signedUnits hm)
      (units_exponent hunits) hrank
    refine ⟨_, rank, by rw [hpower, ofRank, dif_pos rank.isLt], signedUnits_pow hm ?_⟩
    rw [hrank, Int.natAbs_pow]

end LineCalculator.Binary64
