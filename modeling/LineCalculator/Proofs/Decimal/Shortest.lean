import LineCalculator.Binary64.Notation
import LineCalculator.Proofs.Binary64.Ranks
import LineCalculator.Proofs.Decimal.Positional

namespace LineCalculator.Decimal

theorem pow_ten_pos (n : Nat) : 0 < Nat.pow 10 n :=
  Nat.pow_pos (by decide)

/-- A zero at the end of the coefficient is a step of the exponent. -/
theorem nearestRank_shift (coefficient : Nat) (exponent : Int) :
    nearestRank ⟨coefficient, exponent + 1⟩ = nearestRank ⟨10 * coefficient, exponent⟩ := by
  apply Binary64.nearestRank_congr (pow_ten_pos _) (pow_ten_pos _)
  dsimp only
  rcases lt_or_ge exponent 0 with hneg | hnonneg
  -- Below the point the step takes a power of ten off the denominator.
  · have hplaces : (-exponent).toNat = (-(exponent + 1)).toNat + 1 := by omega
    have hup : (exponent + 1).toNat = 0 := by omega
    have hdown : exponent.toNat = 0 := by omega
    rw [hplaces, hup, hdown]
    simp only [Nat.pow_eq]
    ring
  · have hplaces : (-exponent).toNat = 0 := by omega
    have hplaces' : (-(exponent + 1)).toNat = 0 := by omega
    have hup : (exponent + 1).toNat = exponent.toNat + 1 := by omega
    rw [hplaces, hplaces', hup]
    simp only [Nat.pow_eq]
    ring

theorem nearestRank_zero (exponent : Int) : nearestRank ⟨0, exponent⟩ = 0 :=
  Binary64.nearestRank_eq_of_units (pow_ten_pos _) (by simp)

/-- A whole number that is a magnitude is not rounded. -/
theorem nearestRank_whole {n rank : Nat} (h : Binary64.units rank = n * Binary64.unitsPerOne) :
    nearestRank ⟨n, 0⟩ = rank :=
  Binary64.nearestRank_eq_of_units (pow_ten_pos _) (by simp [h])

theorem nearestRank_canonical (coefficient : Nat) (exponent : Int) :
    (canonical coefficient exponent).nearestRank = nearestRank ⟨coefficient, exponent⟩ := by
  fun_induction canonical coefficient exponent with
  | case1 exponent => rw [nearestRank_zero, nearestRank_zero]
  | case2 coefficient exponent hne hmod ih =>
    have hcoefficient : 10 * (coefficient / 10) = coefficient := by omega
    rw [ih, nearestRank_shift, hcoefficient]
  | case3 coefficient exponent hne hmod => rfl

theorem mem_of_choose? {lowerNearer : Bool} {candidates : List Decimal} {d : Decimal}
    (h : choose? lowerNearer candidates = some d) : d ∈ candidates := by
  unfold choose? at h
  split at h
  · simp at h
  · obtain rfl := Option.some.inj h
    simp
  · obtain rfl := Option.some.inj h
    split <;> simp

/-- A decimal chosen on a grid rounds to the magnitude it was chosen for. -/
theorem nearestRank_of_onGrid? {rank : Nat} {exponent : Int} {d : Decimal}
    (h : onGrid? rank exponent = some d) : d.nearestRank = rank := by
  have hmem := mem_of_choose? h
  exact beq_iff_eq.mp (List.mem_filter.mp hmem).2

theorem nearestRank_exact (rank : Nat) : (exact rank).nearestRank = rank := by
  have hunits : Binary64.unitsPerOne = 2 ^ unitPlaces := by
    rw [Binary64.unitsPerOne_eq, unitPlaces]
  have hplaces : (- -(unitPlaces : Int)).toNat = unitPlaces := by omega
  have hwhole : (-(unitPlaces : Int)).toNat = 0 := by omega
  have hten : 10 ^ unitPlaces = 5 ^ unitPlaces * 2 ^ unitPlaces := by
    rw [← Nat.mul_pow]
  -- The powers of five and two make up the power of ten in the denominator.
  apply Binary64.nearestRank_eq_of_units (pow_ten_pos _)
  simp only [exact, hplaces, hwhole, hunits, Nat.pow_eq, hten, pow_zero, Nat.mul_one,
    Nat.mul_assoc]

/-- The shortest decimal of a magnitude rounds to this magnitude. -/
theorem nearestRank_shortest (rank : Nat) : (shortest rank).nearestRank = rank := by
  unfold shortest
  dsimp only
  rw [nearestRank_canonical]
  cases hfound : (List.range 17).findSome? fun (n : Nat) =>
      onGrid? rank (leadingPlace rank - 1 - n) with
  | none => exact nearestRank_exact rank
  | some d =>
    obtain ⟨n, -, hgrid⟩ := List.exists_of_findSome?_eq_some hfound
    exact nearestRank_of_onGrid? hgrid

end LineCalculator.Decimal
