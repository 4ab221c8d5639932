import LineCalculator.Binary64.Rounding
import Mathlib.Order.Monotone.Basic
import Mathlib.Tactic.Ring

namespace LineCalculator.Binary64

theorem binadeSize_eq : binadeSize = 2 ^ 52 := by
  decide

theorem one_shiftLeft_eq (n : Nat) : 1 <<< n = 2 ^ n :=
  Nat.one_shiftLeft n

theorem unitsPerOne_eq : unitsPerOne = 2 ^ 1074 :=
  one_shiftLeft_eq 1074

theorem unitsPerOne_pos : 0 < unitsPerOne := by
  rw [unitsPerOne_eq]
  exact pow_pos Nat.two_pos 1074

theorem units_eq (rank : Nat) : units rank = significand rank * 2 ^ scale rank := by
  rw [units, Nat.shiftLeft_eq]

/-- Below the first normal magnitude the rank counts the units. -/
theorem units_of_lt {rank : Nat} (h : rank < binadeSize) : units rank = rank := by
  have hscale : scale rank = 0 := by
    simp [scale, Nat.div_eq_of_lt h]
  simp [units_eq, hscale, significand, h]

/-- From there on each binade is twice as coarse as the one before. -/
theorem units_normal (exponent fraction : Nat) (h : fraction < binadeSize) :
    units ((exponent + 1) * binadeSize + fraction) = (binadeSize + fraction) * 2 ^ exponent := by
  have hpos : 0 < binadeSize := by decide
  have hdiv : ((exponent + 1) * binadeSize + fraction) / binadeSize = exponent + 1 := by
    rw [Nat.mul_comm, Nat.mul_add_div hpos, Nat.div_eq_of_lt h, Nat.add_zero]
  have hmod : ((exponent + 1) * binadeSize + fraction) % binadeSize = fraction := by
    rw [Nat.mul_comm, Nat.mul_add_mod, Nat.mod_eq_of_lt h]
  have hle : ¬ (exponent + 1) * binadeSize + fraction < binadeSize := by
    rw [Nat.add_mul]
    omega
  simp [units_eq, significand, scale, hle, hdiv, hmod]

/-- Every rank is a subnormal one or the sum of its binade and its fraction. -/
theorem rank_cases (rank : Nat) : rank < binadeSize ∨
    ∃ exponent fraction, fraction < binadeSize ∧
      rank = (exponent + 1) * binadeSize + fraction := by
  have hpos : 0 < binadeSize := by decide
  rcases Nat.lt_or_ge rank binadeSize with h | h
  · exact .inl h
  · have hone : 1 ≤ rank / binadeSize := (Nat.one_le_div_iff hpos).mpr h
    refine .inr ⟨rank / binadeSize - 1, rank % binadeSize, Nat.mod_lt _ hpos, ?_⟩
    rw [Nat.sub_add_cancel hone, Nat.mul_comm, Nat.div_add_mod]

theorem units_lt_succ (rank : Nat) : units rank < units (rank + 1) := by
  have hsize : binadeSize = 2 ^ 52 := binadeSize_eq
  rcases rank_cases rank with h | ⟨exponent, fraction, hfraction, rfl⟩
  -- Two subnormal magnitudes, or the last of them and the first normal one.
  · rw [units_of_lt h]
    rcases Nat.lt_or_ge (rank + 1) binadeSize with hlt | hge
    · rw [units_of_lt hlt]
      omega
    · have hnext : rank + 1 = (0 + 1) * binadeSize + 0 := by omega
      rw [hnext, units_normal 0 0 (by decide)]
      omega
  · rw [units_normal exponent fraction hfraction]
    have hpow : 0 < 2 ^ exponent := Nat.two_pow_pos exponent
    rcases Nat.lt_or_ge (fraction + 1) binadeSize with hlt | hge
    · rw [Nat.add_assoc, units_normal exponent (fraction + 1) hlt]
      exact Nat.mul_lt_mul_of_pos_right (by omega) hpow
    -- The last fraction of a binade is followed by the first of the next one.
    · have hnext : (exponent + 1) * binadeSize + fraction + 1 =
          (exponent + 1 + 1) * binadeSize + 0 := by
        rw [Nat.add_mul (exponent + 1)]
        omega
      rw [hnext, units_normal (exponent + 1) 0 (by decide), pow_succ]
      calc (binadeSize + fraction) * 2 ^ exponent
          < (binadeSize * 2) * 2 ^ exponent := Nat.mul_lt_mul_of_pos_right (by omega) hpow
        _ = (binadeSize + 0) * (2 ^ exponent * 2) := by ring

theorem units_strictMono : StrictMono units :=
  strictMono_nat_of_lt_succ units_lt_succ

@[simp]
theorem units_zero : units 0 = 0 :=
  units_of_lt (by decide)

@[simp]
theorem units_eq_zero_iff {rank : Nat} : units rank = 0 ↔ rank = 0 := by
  rw [← units_zero, units_strictMono.injective.eq_iff, units_zero]

theorem units_finiteCount : units finiteCount = 2 ^ 52 * 2 ^ 2046 := by
  have hcount : finiteCount = (2046 + 1) * binadeSize + 0 := by decide
  rw [hcount, units_normal 2046 0 (by decide), Nat.add_zero, binadeSize_eq]

theorem lt_finiteCount_of_units_lt {rank : Nat} (h : units rank < 2 ^ 52 * 2 ^ 2046) :
    rank < finiteCount := by
  rw [← units_finiteCount] at h
  exact units_strictMono.lt_iff_lt.mp h

section Rounding

theorem divHalfEven_of_dvd {quotient den : Nat} (hden : 0 < den) :
    divHalfEven (quotient * den) den = quotient := by
  simp [divHalfEven, Nat.mul_div_cancel _ hden, hden]

/-- Rounding a quotient does not depend on how it is written. -/
theorem divHalfEven_mul_right (num den : Nat) {k : Nat} (hk : 0 < k) :
    divHalfEven (num * k) (den * k) = divHalfEven num den := by
  have hmul : 2 * (num * k % (den * k)) = 2 * (num % den) * k := by
    rw [Nat.mul_mod_mul_right, Nat.mul_assoc]
  unfold divHalfEven
  simp only [Nat.mul_div_mul_right _ _ hk, hmul, Nat.mul_lt_mul_right hk]

theorem nearestRank_mul_right (num den : Nat) {k : Nat} (hk : 0 < k) :
    nearestRank (num * k) (den * k) = nearestRank num den := by
  have hshift (n : Nat) : (den * k) <<< n = (den <<< n) * k := by
    simp only [Nat.shiftLeft_eq]
    ring
  unfold nearestRank
  simp only [Nat.mul_div_mul_right _ _ hk, hshift, divHalfEven_mul_right _ _ hk]

theorem nearestRank_congr {num den num' den' : Nat} (hden : 0 < den) (hden' : 0 < den')
    (h : num * den' = num' * den) : nearestRank num den = nearestRank num' den' := by
  rw [← nearestRank_mul_right num den hden', h, Nat.mul_comm den den',
    nearestRank_mul_right num' den' hden]

/-- A magnitude rounds to its own rank. -/
theorem nearestRank_units (rank : Nat) : nearestRank (units rank) 1 = rank := by
  unfold nearestRank
  simp only [Nat.div_one]
  -- The rounding finds the binade of the magnitude by its length in bits.
  rcases rank_cases rank with h | ⟨exponent, fraction, hfraction, rfl⟩
  · have hlog : (units rank).log2 - 52 = 0 := by
      rw [units_of_lt h]
      rcases Nat.eq_zero_or_pos rank with rfl | hpos
      · simp
      · have hlt : rank.log2 < 52 := (Nat.log2_lt (by omega)).mpr (binadeSize_eq ▸ h)
        omega
    rw [hlog, units_of_lt h]
    have hwhole : divHalfEven (rank * 1) 1 = rank := divHalfEven_of_dvd Nat.one_pos
    simpa using hwhole
  · have hpow : 0 < 2 ^ exponent := Nat.two_pow_pos exponent
    have hlog : ((binadeSize + fraction) * 2 ^ exponent).log2 - 52 = exponent := by
      have hlower : 2 ^ (52 + exponent) ≤ (binadeSize + fraction) * 2 ^ exponent := by
        rw [pow_add, ← binadeSize_eq]
        exact Nat.mul_le_mul_right _ (by omega)
      have hupper : (binadeSize + fraction) * 2 ^ exponent < 2 ^ (52 + exponent + 1) := by
        rw [pow_succ, pow_add, ← binadeSize_eq]
        calc (binadeSize + fraction) * 2 ^ exponent
            < (binadeSize * 2) * 2 ^ exponent := Nat.mul_lt_mul_of_pos_right (by omega) hpow
          _ = binadeSize * 2 ^ exponent * 2 := by ring
      have hne : (binadeSize + fraction) * 2 ^ exponent ≠ 0 :=
        (Nat.lt_of_lt_of_le (Nat.two_pow_pos _) hlower).ne'
      rw [(Nat.log2_eq_iff hne).mpr ⟨hlower, hupper⟩]
      omega
    rw [units_normal exponent fraction hfraction, hlog, Nat.one_shiftLeft,
      divHalfEven_of_dvd hpow, Nat.shiftLeft_eq, ← binadeSize_eq]
    ring

/-- A quotient that is a magnitude rounds to the rank of it. -/
theorem nearestRank_eq_of_units {num den rank : Nat} (hden : 0 < den)
    (h : num = units rank * den) : nearestRank num den = rank := by
  have hscaled := nearestRank_mul_right (units rank) 1 hden
  rw [Nat.one_mul, nearestRank_units] at hscaled
  rw [h, hscaled]

end Rounding

/-- A significand of at most 53 bits at any place is a magnitude. -/
theorem exists_units_eq (m k : Nat) (hm : m < 2 ^ 53) : ∃ rank, units rank = m * 2 ^ k := by
  have hsize : binadeSize = 2 ^ 52 := binadeSize_eq
  induction k generalizing m with
  | zero =>
    rcases Nat.lt_or_ge m binadeSize with h | h
    · exact ⟨m, by simp [units_of_lt h]⟩
    · refine ⟨(0 + 1) * binadeSize + (m - binadeSize), ?_⟩
      rw [units_normal 0 _ (by omega)]
      omega
  | succ k ih =>
    rcases Nat.lt_or_ge m binadeSize with h | h
    -- A short significand takes over one place.
    · obtain ⟨rank, hrank⟩ := ih (2 * m) (by omega)
      exact ⟨rank, by rw [hrank, pow_succ]; ring⟩
    · refine ⟨(k + 1 + 1) * binadeSize + (m - binadeSize), ?_⟩
      rw [units_normal (k + 1) _ (by omega), Nat.add_sub_cancel' h]

end LineCalculator.Binary64
