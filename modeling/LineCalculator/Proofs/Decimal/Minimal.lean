import LineCalculator.Proofs.Decimal.Neighbours

/-!
The search for the shortest decimal. It finds one among seventeen digits, no decimal with fewer
digits rounds to the magnitude, and none with as many digits is nearer to it.
-/
namespace LineCalculator.Decimal

open Binary64 (ratio)

section Canonical

theorem toRat_canonical (coefficient : Nat) (exponent : Int) :
    (canonical coefficient exponent).toRat = toRat ⟨coefficient, exponent⟩ := by
  fun_induction canonical coefficient exponent with
  | case1 exponent => simp [toRat]
  | case2 coefficient exponent hne hmod ih =>
    have hcoefficient : (coefficient : ℚ) = (coefficient / 10 : Nat) * 10 := by
      exact_mod_cast (Nat.div_mul_cancel (Nat.dvd_of_mod_eq_zero hmod)).symm
    rw [ih, toRat, toRat, hcoefficient, zpow_add_one₀ (by norm_num)]
    dsimp only
    ring
  | case3 coefficient exponent hne hmod => rfl

/-- A canonical coefficient ends in no zero. -/
theorem canonical_coefficient_mod {coefficient : Nat} (h : coefficient ≠ 0) (exponent : Int) :
    (canonical coefficient exponent).coefficient % 10 ≠ 0 := by
  fun_induction canonical coefficient exponent with
  | case1 exponent => exact absurd rfl h
  | case2 coefficient exponent hne hmod ih => exact ih (by omega)
  | case3 coefficient exponent hne hmod => exact hmod

/-- It has fewer digits than a power of ten that the coefficient does not exceed. -/
theorem canonical_coefficient_lt {coefficient count : Nat} (h : coefficient ≤ 10 ^ (count + 1))
    (exponent : Int) : (canonical coefficient exponent).coefficient < 10 ^ (count + 1) := by
  fun_induction canonical coefficient exponent with
  | case1 exponent => exact Nat.pow_pos (by decide)
  | case2 coefficient exponent hne hmod ih => exact ih ((Nat.div_le_self _ _).trans h)
  | case3 coefficient exponent hne hmod =>
    -- The power of ten itself would end in a zero.
    apply lt_of_le_of_ne h
    rintro rfl
    rw [pow_succ] at hmod
    exact hmod (Nat.mul_mod_left _ _)

end Canonical

section Search

variable {rank : Nat}

/-- Seventeen digits suffice, since two magnitudes in turn are farther apart than two decimals of so
many digits. -/
theorem onGrid?_sixteen (hrank : rank ≠ 0) : onGrid? rank (leadingPlace rank - 1 - 16) ≠ none := by
  intro hnone
  have hlow := (leadingPlace_bounds hrank).1
  have hshift : (10 : ℚ) ^ (leadingPlace rank - 1) =
      10 ^ 16 * 10 ^ (leadingPlace rank - 1 - 16) :=
    zpow_ten_eq_mul (by omega)
  rw [hshift] at hlow
  generalize leadingPlace rank - 1 - 16 = exponent at hnone hlow
  have hpow := zpow_ten_pos exponent
  have hlower : (lower rank exponent).nearestRank ≠ rank :=
    fun h => onGrid?_ne_none (.inl rfl) h hnone
  have hupper : (upper rank exponent).nearestRank ≠ rank :=
    fun h => onGrid?_ne_none (.inr rfl) h hnone
  obtain ⟨before, rfl⟩ := Nat.exists_eq_add_one_of_ne_zero hrank
  have hlowerLe := nearestRank_le_of_toRat_le (lower_le (before + 1) exponent)
  have hleUpper := le_nearestRank_of_le_toRat (lt_upper (before + 1) exponent).le
  have hbelow : 2 * (lower (before + 1) exponent).toRat ≤
      ratio false before + ratio false (before + 1) :=
    two_mul_toRat_le (by omega)
  have habove : ratio false (before + 1) + ratio false (before + 1 + 1) ≤
      2 * (upper (before + 1) exponent).toRat :=
    le_two_mul_toRat (by omega)
  have hstep := Binary64.ratio_step before
  have hstep' := Binary64.ratio_step (before + 1)
  have hmono := Binary64.ratio_false_lt_iff.mpr (Nat.lt_add_one (before + 1))
  rw [upper_toRat] at habove
  -- Two binary steps are wider than two of these decimal ones, since 2 ^ 53 is below 10 ^ 16.
  linarith

/-- The first of some steps that has a result. -/
theorem exists_of_findSome?_range {α : Type} {f : Nat → Option α} {count : Nat} {a : α}
    (h : (List.range count).findSome? f = some a) :
    ∃ n, f n = some a ∧ ∀ m < n, f m = none := by
  induction count with
  | zero => simp at h
  | succ count ih =>
    rw [List.range_succ, List.findSome?_append] at h
    cases hfirst : (List.range count).findSome? f with
    | some b =>
      rw [hfirst, Option.some_or] at h
      exact ih (hfirst.trans h)
    | none =>
      rw [hfirst, Option.none_or] at h
      refine ⟨count, by simpa using h, ?_⟩
      intro m hm
      exact List.findSome?_eq_none_iff.mp hfirst m (List.mem_range.mpr hm)

/-- The search ends on the first grid on which a neighbour rounds to the magnitude. -/
theorem exists_onGrid? (hrank : rank ≠ 0) : ∃ (n : Nat) (d : Decimal),
    onGrid? rank (leadingPlace rank - 1 - n) = some d ∧
      (∀ m < n, onGrid? rank (leadingPlace rank - 1 - m) = none) ∧
      shortest rank = canonical d.coefficient d.exponent := by
  unfold shortest
  dsimp only
  cases hfound : (List.range 17).findSome? fun (n : Nat) =>
      onGrid? rank (leadingPlace rank - 1 - n) with
  | none =>
    have hlast := List.findSome?_eq_none_iff.mp hfound 16 (by decide)
    exact absurd hlast (onGrid?_sixteen hrank)
  | some d =>
    obtain ⟨n, hn, hbefore⟩ := exists_of_findSome?_range hfound
    exact ⟨n, d, hn, hbefore, rfl⟩

theorem coefficient_ne_zero {d : Decimal} (hrank : rank ≠ 0) (hd : d.nearestRank = rank) :
    d.coefficient ≠ 0 := by
  obtain ⟨coefficient, exponent⟩ := d
  rintro rfl
  exact hrank (hd.symm.trans (nearestRank_zero exponent))

/-- The shortest decimal by what it was found as. -/
theorem exists_shortest (hrank : rank ≠ 0) : ∃ n : Nat,
    (shortest rank).digits.length ≤ n + 1 ∧
    (∀ m < n, onGrid? rank (leadingPlace rank - 1 - m) = none) ∧
    ∀ d, IsNeighbour rank (leadingPlace rank - 1 - n) d → d.nearestRank = rank →
      |(shortest rank).toRat - ratio false rank| ≤ |d.toRat - ratio false rank| := by
  obtain ⟨n, found, hgrid, hbefore, heq⟩ := exists_onGrid? hrank
  obtain ⟨hneighbour, hnearest⟩ := of_onGrid? hgrid
  have hbound := (coefficient_bounds hrank n).2
  have hcoefficient : found.coefficient ≤ 10 ^ (n + 1) := by
    rcases hneighbour with rfl | rfl
    · exact (Nat.le_succ _).trans hbound
    · exact hbound
  refine ⟨n, ?_, hbefore, ?_⟩
  · rw [heq, digits, Nat.length_toDigits_le_iff (by decide) n.succ_pos]
    exact canonical_coefficient_lt hcoefficient _
  · rw [heq, toRat_canonical]
    exact hnearest

end Search

section Shortest

variable {rank : Nat} {d : Decimal} {count : Nat}

theorem shortest_coefficient_mod (hrank : rank ≠ 0) : (shortest rank).coefficient % 10 ≠ 0 := by
  obtain ⟨n, found, hgrid, -, heq⟩ := exists_onGrid? hrank
  rw [heq]
  exact canonical_coefficient_mod (coefficient_ne_zero hrank (nearestRank_of_onGrid? hgrid)) _

/-- No decimal with fewer digits rounds to the magnitude. -/
theorem length_digits_shortest_le (hrank : rank ≠ 0) (hd : d.nearestRank = rank)
    (hcount : d.coefficient < 10 ^ count) : (shortest rank).digits.length ≤ count := by
  obtain ⟨n, hlength, hbefore, -⟩ := exists_shortest hrank
  cases count with
  | zero => exact absurd (Nat.lt_one_iff.mp hcount) (coefficient_ne_zero hrank hd)
  | succ m =>
    -- With fewer digits the search would have ended earlier.
    obtain ⟨d', hneighbour, hd', -⟩ := exists_isNeighbour hd (not_between hrank hcount)
    have hfound := onGrid?_ne_none hneighbour hd'
    by_contra hlt
    exact hfound (hbefore m (by omega))

/-- No decimal with as many digits that rounds to the magnitude is nearer to it. -/
theorem abs_shortest_sub_le (hrank : rank ≠ 0) (hd : d.nearestRank = rank)
    (hcount : d.coefficient < 10 ^ (shortest rank).digits.length) :
    |(shortest rank).toRat - ratio false rank| ≤ |d.toRat - ratio false rank| := by
  obtain ⟨n, hlength, -, hnearest⟩ := exists_shortest hrank
  have hdigits := hcount.trans_le (Nat.pow_le_pow_right (by decide) hlength)
  obtain ⟨d', hneighbour, hd', hle⟩ := exists_isNeighbour hd (not_between hrank hdigits)
  exact (hnearest d' hneighbour hd').trans hle

end Shortest

def HasDigits (count : Nat) (y : ℚ) : Prop :=
  ∃ (coefficient : Nat) (exponent : Int), coefficient < 10 ^ count ∧
    |y| = toRat ⟨coefficient, exponent⟩

/-- The decimal under the sign is a shortest one for the value. It rounds to the value and ends in
no zero, a number that rounds to the value has as many digits at least, and one that has as many is
not nearer to the value. -/
structure IsShortest (d : Decimal) (negative : Bool) (a : Binary64) : Prop where
  canonical : d.coefficient % 10 ≠ 0
  roundsTo : Binary64.RoundsTo (d.signedRat negative) a
  fewest : ∀ count y, HasDigits count y → Binary64.RoundsTo y a → d.digits.length ≤ count
  nearest : ∀ y, HasDigits d.digits.length y → Binary64.RoundsTo y a →
    |d.signedRat negative - a.toRat| ≤ |y - a.toRat|

theorem nearestRank_of_roundsTo {negative : Bool} {rank : Fin Binary64.finiteCount} {y : ℚ}
    {d : Decimal} (h : Binary64.RoundsTo y (.finite negative rank)) (hy : |y| = d.toRat) :
    d.nearestRank = rank := by
  obtain ⟨sign, r, heq, hnearest⟩ := h
  obtain ⟨rfl, rfl⟩ := Binary64.finite_eq_ofRank_iff.mp heq
  have hd := d.isNearestRatio false
  have habs : |d.signedRat false| = |y| := (abs_signedRat false d).trans hy.symm
  exact le_antisymm (hd.rank_mono hnearest habs.le) (hnearest.rank_mono hd habs.ge)

theorem isShortest_shortest (negative : Bool) {rank : Fin Binary64.finiteCount}
    (hrank : rank.val ≠ 0) : (shortest rank).IsShortest negative (.finite negative rank) := by
  refine ⟨shortest_coefficient_mod hrank, ?_, ?_, ?_⟩
  · refine ⟨negative, rank, Binary64.finite_eq_ofRank_iff.mpr ⟨rfl, rfl⟩, ?_⟩
    have hnearest := (shortest rank).isNearestRatio negative
    rwa [nearestRank_shortest] at hnearest
  · rintro count y ⟨coefficient, exponent, hcount, hy⟩ hround
    exact length_digits_shortest_le hrank (nearestRank_of_roundsTo hround hy) hcount
  · rintro y ⟨coefficient, exponent, hcount, hy⟩ hround
    have hvalue : (Binary64.finite negative rank).toRat = ratio negative rank := rfl
    have hsigned : |(shortest rank).signedRat negative - ratio negative rank| =
        |(shortest rank).toRat - ratio false rank| := by
      cases negative
      · rfl
      · rw [signedRat, if_pos rfl, ← Bool.not_false, Binary64.ratio_not, ← abs_neg]
        congr 1
        ring
    rw [hvalue, hsigned]
    calc |(shortest rank).toRat - ratio false rank|
        ≤ |toRat ⟨coefficient, exponent⟩ - ratio false rank| :=
          abs_shortest_sub_le hrank (nearestRank_of_roundsTo hround hy) hcount
      _ ≤ |y - ratio negative rank| := by
          rw [← hy]
          exact Binary64.abs_abs_sub_ratio_le y negative rank

end LineCalculator.Decimal
