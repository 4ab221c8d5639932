import LineCalculator.Proofs.Binary64.Ranks
import Mathlib.Data.Nat.Dist

/-!
Rounding is to the nearest magnitude, ties to even. The grid of a binade finds the two consecutive
magnitudes around an exact quotient, and every other magnitude is farther off than one of these.
-/
namespace LineCalculator.Binary64

/-- No magnitude is nearer to `num / den` units than the one with this rank, and another one is as
near only if this rank is even. -/
structure IsNearest (num den rank : Nat) : Prop where
  nearest : ∀ other, Nat.dist num (units rank * den) ≤ Nat.dist num (units other * den)
  even : ∀ other, other ≠ rank →
    Nat.dist num (units other * den) = Nat.dist num (units rank * den) → rank % 2 = 0

/-- One binade and the magnitude after it are the multiples of a power of two. -/
theorem units_binade {exponent m : Nat} (hlow : exponent = 0 ∨ binadeSize ≤ m)
    (hhigh : m ≤ 2 * binadeSize) : units (exponent * binadeSize + m) = m * 2 ^ exponent := by
  rcases Nat.lt_or_ge m binadeSize with hsub | hnormal
  -- Subnormal magnitudes lie on the grid of units itself.
  · have hexponent : exponent = 0 := hlow.resolve_right (by omega)
    simp [hexponent, units_of_lt hsub]
  rcases Nat.lt_or_eq_of_le hhigh with hlt | rfl
  · have hrank : exponent * binadeSize + m =
        (exponent + 1) * binadeSize + (m - binadeSize) := by
      rw [Nat.add_mul]
      omega
    rw [hrank, units_normal exponent _ (by omega), Nat.add_sub_cancel' hnormal]
  -- The end of the binade is the first magnitude of the next one.
  · have hrank : exponent * binadeSize + 2 * binadeSize =
        (exponent + 1 + 1) * binadeSize + 0 := by
      ring
    rw [hrank, units_normal (exponent + 1) 0 (by decide), pow_succ]
    ring

/-- The binade of a quotient, from its length in bits. -/
theorem quotient_mem_binade (quotient : Nat) :
    (quotient.log2 - 52 = 0 ∨ binadeSize * 2 ^ (quotient.log2 - 52) ≤ quotient) ∧
      quotient < 2 * binadeSize * 2 ^ (quotient.log2 - 52) := by
  rw [binadeSize_eq, ← pow_add, ← pow_succ', ← pow_add]
  rcases Nat.eq_zero_or_pos quotient with rfl | hpos
  · simp
  · have hne : quotient ≠ 0 := hpos.ne'
    have hself := (Nat.log2_eq_iff hne).mp rfl
    constructor
    · rcases Nat.lt_or_ge 52 quotient.log2 with hlt | hge
      · have hsum : 52 + (quotient.log2 - 52) = quotient.log2 := by omega
        rw [hsum]
        exact .inr hself.1
      · exact .inl (by omega)
    · exact hself.2.trans_le (Nat.pow_le_pow_right Nat.two_pos (by omega))

/-- Of the two multiples around a number the nearer one is taken, and the even one from the middle
between them. -/
theorem divHalfEven_cases (num grid : Nat) :
    (divHalfEven num grid = num / grid ∧
      2 * num ≤ num / grid * grid + (num / grid + 1) * grid ∧
      (2 * num = num / grid * grid + (num / grid + 1) * grid → num / grid % 2 = 0)) ∨
    (divHalfEven num grid = num / grid + 1 ∧
      num / grid * grid + (num / grid + 1) * grid ≤ 2 * num ∧
      (2 * num = num / grid * grid + (num / grid + 1) * grid → (num / grid + 1) % 2 = 0)) := by
  have hsplit := Nat.div_add_mod' num grid
  rw [Nat.add_one_mul (num / grid)]
  unfold divHalfEven
  dsimp only
  split
  · omega
  · split <;> omega

/-- The two consecutive magnitudes around a quotient; it is rounded to the nearer one of them, and
to the one of even rank from the middle. -/
theorem nearestRank_cases (num : Nat) {den : Nat} (hden : 0 < den) :
    ∃ lower, units lower * den ≤ num ∧ num < units (lower + 1) * den ∧
      ((nearestRank num den = lower ∧ 2 * num ≤ units lower * den + units (lower + 1) * den ∧
        (2 * num = units lower * den + units (lower + 1) * den → lower % 2 = 0)) ∨
      (nearestRank num den = lower + 1 ∧ units lower * den + units (lower + 1) * den ≤ 2 * num ∧
        (2 * num = units lower * den + units (lower + 1) * den → (lower + 1) % 2 = 0))) := by
  obtain ⟨hlow, hhigh⟩ := quotient_mem_binade (num / den)
  unfold nearestRank
  dsimp only
  generalize (num / den).log2 - 52 = scale at hlow hhigh ⊢
  have hpow : 0 < 2 ^ scale := Nat.two_pow_pos scale
  have hgrid : 0 < den * 2 ^ scale := Nat.mul_pos hden hpow
  have hcoarse : num / (den * 2 ^ scale) = num / den / 2 ^ scale :=
    (Nat.div_div_eq_div_mul num den (2 ^ scale)).symm
  rw [Nat.shiftLeft_eq, Nat.shiftLeft_eq, ← binadeSize_eq]
  have hnearest := divHalfEven_cases num (den * 2 ^ scale)
  have hle := Nat.div_mul_le_self num (den * 2 ^ scale)
  have hlt := Nat.lt_mul_div_succ num hgrid
  rw [Nat.mul_comm] at hlt
  rw [← Nat.le_div_iff_mul_le hpow, ← hcoarse] at hlow
  rw [← Nat.div_lt_iff_lt_mul hpow, ← hcoarse] at hhigh
  generalize num / (den * 2 ^ scale) = quotient at *
  -- The multiples of the grid around the quotient are magnitudes of its binade.
  have hlower : units (scale * binadeSize + quotient) * den = quotient * (den * 2 ^ scale) := by
    rw [units_binade hlow hhigh.le, Nat.mul_assoc, Nat.mul_comm den]
  have hupper : units (scale * binadeSize + quotient + 1) * den =
      (quotient + 1) * (den * 2 ^ scale) := by
    rw [Nat.add_assoc, units_binade (hlow.imp_right Nat.le_succ_of_le) hhigh, Nat.mul_assoc,
      Nat.mul_comm den]
  have hparity : (scale * binadeSize + quotient) % 2 = quotient % 2 := by
    rw [binadeSize]
    omega
  refine ⟨scale * binadeSize + quotient, ?_⟩
  rw [hlower, hupper]
  refine ⟨hle, hlt, ?_⟩
  omega

theorem units_mul_cases (lower other : Nat) {den : Nat} (hden : 0 < den) :
    other = lower ∨ other = lower + 1 ∨ units other * den < units lower * den ∨
      units (lower + 1) * den < units other * den := by
  rcases lt_trichotomy other lower with h | h | h
  · exact .inr (.inr (.inl (Nat.mul_lt_mul_of_pos_right (units_strictMono h) hden)))
  · exact .inl h
  · rcases Nat.lt_or_eq_of_le h with h | h
    · exact .inr (.inr (.inr (Nat.mul_lt_mul_of_pos_right (units_strictMono h) hden)))
    · exact .inr (.inl h.symm)

theorem nearestRank_isNearest (num : Nat) {den : Nat} (hden : 0 < den) :
    IsNearest num den (nearestRank num den) := by
  obtain ⟨lower, hle, hlt, hrank⟩ := nearestRank_cases num hden
  have hbelow : Nat.dist num (units lower * den) = num - units lower * den :=
    Nat.dist_eq_sub_of_le_right hle
  have habove : Nat.dist num (units (lower + 1) * den) = units (lower + 1) * den - num :=
    Nat.dist_eq_sub_of_le hlt.le
  have hnear : Nat.dist num (units (nearestRank num den) * den) ≤ num - units lower * den ∧
      Nat.dist num (units (nearestRank num den) * den) ≤ units (lower + 1) * den - num := by
    rcases hrank with ⟨hrank, hmiddle, -⟩ | ⟨hrank, hmiddle, -⟩
    · rw [hrank, hbelow]
      omega
    · rw [hrank, habove]
      omega
  -- Every magnitude outside the two around the quotient is farther off than one of them.
  have hfar (other : Nat) (h : units other * den < units lower * den ∨
      units (lower + 1) * den < units other * den) :
      Nat.dist num (units (nearestRank num den) * den) < Nat.dist num (units other * den) := by
    rcases h with h | h
    · rw [Nat.dist_eq_sub_of_le_right (h.le.trans hle)]
      omega
    · rw [Nat.dist_eq_sub_of_le (hlt.le.trans h.le)]
      omega
  constructor
  · intro other
    rcases units_mul_cases lower other hden with rfl | rfl | h
    · rw [hbelow]
      exact hnear.1
    · rw [habove]
      exact hnear.2
    · exact (hfar other h).le
  · intro other hne hsame
    -- Only the other one of the two can be as near, and then the quotient is in the middle.
    rcases units_mul_cases lower other hden with h | h | h
    · rcases hrank with ⟨hrank, -, -⟩ | ⟨hrank, hmiddle, heven⟩
      · exact absurd (h.trans hrank.symm) hne
      · rw [hrank, h, hbelow, habove] at hsame
        rw [hrank]
        exact heven (by omega)
    · rcases hrank with ⟨hrank, hmiddle, heven⟩ | ⟨hrank, -, -⟩
      · rw [hrank, h, hbelow, habove] at hsame
        rw [hrank]
        exact heven (by omega)
      · exact absurd (h.trans hrank.symm) hne
    · exact absurd hsame (hfar other h).ne'

/-- Two magnitudes of one distance have an odd rank or a nearer magnitude between them. -/
theorem IsNearest.unique {num den rank rank' : Nat} (hden : 0 < den)
    (h : IsNearest num den rank) (h' : IsNearest num den rank') : rank = rank' := by
  by_contra hne
  have hsame := Nat.le_antisymm (h.nearest rank') (h'.nearest rank)
  have heven := h.even rank' (Ne.symm hne) hsame.symm
  have heven' := h'.even rank hne hsame
  wlog hlt : rank < rank' generalizing rank rank'
  · exact this h' h (Ne.symm hne) hsame.symm heven' heven (by omega)
  -- The rank after an even one is odd, so it lies strictly between them.
  have hbetween := h.nearest (rank + 1)
  have hleft := Nat.mul_lt_mul_of_pos_right (units_strictMono (Nat.lt_add_one rank)) hden
  have hright := Nat.mul_lt_mul_of_pos_right
    (units_strictMono (show rank + 1 < rank' by omega)) hden
  simp only [Nat.dist] at hsame hbetween
  omega

/-- A larger quotient is not rounded to a smaller magnitude. -/
theorem nearestRank_mono {num num' den : Nat} (hden : 0 < den) (h : num ≤ num') :
    nearestRank num den ≤ nearestRank num' den := by
  by_contra hlt
  rw [not_le] at hlt
  have hunits := Nat.mul_lt_mul_of_pos_right (units_strictMono hlt) hden
  have hnear := (nearestRank_isNearest num hden).nearest (nearestRank num' den)
  have hnear' := (nearestRank_isNearest num' hden).nearest (nearestRank num den)
  -- Two quotients that are rounded across each other both lie in the middle.
  have heq : num = num' := by
    simp only [Nat.dist] at hnear hnear'
    omega
  rw [heq] at hlt
  exact absurd hlt (lt_irrefl _)

theorem nearestRank_eq_iff {num den rank : Nat} (hden : 0 < den) :
    nearestRank num den = rank ↔ IsNearest num den rank := by
  constructor
  · rintro rfl
    exact nearestRank_isNearest num hden
  · intro h
    exact (nearestRank_isNearest num hden).unique hden h

end LineCalculator.Binary64
