import LineCalculator.Proofs.Decimal.Reading
import LineCalculator.Proofs.Expression.WholeNumbers

namespace LineCalculator.Binary64

/-- Only a zero is written without its sign. -/
theorem toList_resultText_finite (negative : Bool) (rank : Fin finiteCount) :
    (finite negative rank).resultText.toList =
      signText (negative && rank.val != 0) ++ resultMagnitude rank := by
  rcases Nat.eq_zero_or_pos rank.val with hzero | hpos
  · have hmagnitude : resultMagnitude 0 = ['0'] := by
      simp [resultMagnitude]
    rw [resultText_of_isZero (by simp [isZero, hzero]), hzero, hmagnitude]
    simp [signText]
  · have hisZero : (rank.val == 0) = false := by simpa using hpos.ne'
    have hsign : (rank.val != 0) = true := by simpa using hpos.ne'
    rw [resultText, isZero, hisZero, if_neg Bool.false_ne_true, toList_render_finite, hsign,
      Bool.and_true]

/-- No positive whole number is below the range of the plain notation. -/
theorem smallLimit_le_of_whole {rank : Nat} (hne : rank ≠ 0)
    (hwhole : units rank % unitsPerOne = 0) : smallLimit ≤ rank := by
  -- The limit is itself found by rounding, so it is evaluated here.
  have hlimit : smallLimit < rankOne := by
    decide +kernel
  have hpos : 0 < units rank := Nat.pos_of_ne_zero (units_eq_zero_iff.not.mpr hne)
  have hone : units rankOne ≤ units rank := by
    rw [units_rankOne]
    exact Nat.le_of_dvd hpos (Nat.dvd_of_mod_eq_zero hwhole)
  exact hlimit.le.trans (units_strictMono.le_iff_le.mp hone)

/-- From one ten-thousandth on, and for zero, a result is a decimal without an exponent. -/
theorem exists_resultMagnitude_eq_positional {rank : Nat} (h : rank = 0 ∨ smallLimit ≤ rank) :
    ∃ d : Decimal, resultMagnitude rank = d.positional ∧ d.nearestRank = rank := by
  by_cases hwhole : units rank % unitsPerOne = 0
  -- A whole result is written with all its digits, which need not be the shortest ones.
  · have hunits : units rank = units rank / unitsPerOne * unitsPerOne :=
      (Nat.div_mul_cancel (Nat.dvd_of_mod_eq_zero hwhole)).symm
    refine ⟨⟨units rank / unitsPerOne, 0⟩, ?_, Decimal.nearestRank_whole hunits⟩
    simp [resultMagnitude, hwhole, Decimal.positional, Decimal.digits]
  · have hlarge : ¬ rank < smallLimit := by
      rcases h with rfl | h
      · simp at hwhole
      · exact not_lt.mpr h
    refine ⟨Decimal.shortest rank, ?_, Decimal.nearestRank_shortest rank⟩
    simp [resultMagnitude, hwhole, hlarge]

theorem resultMagnitude_eq_scientific {rank : Nat} (hne : rank ≠ 0) (h : rank < smallLimit) :
    resultMagnitude rank = (Decimal.shortest rank).mantissa ++
      'e' :: exponentText (Decimal.shortest rank).leadingExponent := by
  have hwhole : units rank % unitsPerOne ≠ 0 := fun hwhole =>
    absurd (smallLimit_le_of_whole hne hwhole) (not_le.mpr h)
  simp [resultMagnitude, hwhole, h]

/-- The sign and the rank that a result is written with are those of the result without the sign of
a zero. -/
theorem ofRank_resultSign (negative : Bool) (rank : Fin finiteCount) :
    ofRank (negative && rank.val != 0) rank =
      if rank.val = 0 then zero false else finite negative rank := by
  rw [ofRank, dif_pos rank.isLt]
  obtain ⟨rank, hlt⟩ := rank
  by_cases hzero : rank = 0
  · subst hzero
    simp [zero]
  · simp [hzero]

/-- In both notations the magnitude is read back as a decimal that rounds to it. -/
theorem exists_ofText?_resultMagnitude (rank : Nat) :
    ∃ d, Decimal.ofText? (resultMagnitude rank) = some d ∧ d.nearestRank = rank := by
  by_cases h : rank = 0 ∨ smallLimit ≤ rank
  · obtain ⟨d, htext, hrank⟩ := exists_resultMagnitude_eq_positional h
    exact ⟨d.numeral.toDecimal, htext ▸ d.ofText?_positional, d.nearestRank_numeral.trans hrank⟩
  · have hne : rank ≠ 0 := fun hzero => h (.inl hzero)
    have hsmall : rank < smallLimit := not_le.mp fun hlarge => h (.inr hlarge)
    rw [resultMagnitude_eq_scientific hne hsmall]
    exact ⟨_, Decimal.ofText?_scientific _, Decimal.nearestRank_shortest rank⟩

theorem not_isSeparator_of_isDigit {c : Char} (h : c.isDigit = true) : isSeparator c = false :=
  not_isSeparator_of_isDecimalDigit (isDecimalDigit_of_isDigit h)

theorem not_isSeparator_of_mem_exponentText {exponent : Int} {c : Char}
    (h : c ∈ exponentText exponent) : isSeparator c = false := by
  have hdigits (n : Nat) (hc : c ∈ Nat.toDigits 10 n) : isSeparator c = false :=
    not_isSeparator_of_isDigit (Nat.isDigit_of_mem_toDigits (by decide) (by decide) hc)
  rcases List.mem_cons.mp h with rfl | h
  · split <;> decide
  · unfold twoDigits at h
    split at h
    · rcases List.mem_cons.mp h with rfl | h
      · decide
      · exact hdigits _ h
    · exact hdigits _ h

/-- No result is written with a separator. -/
theorem not_isSeparator_of_mem_resultText {a : Binary64} {c : Char}
    (h : c ∈ a.resultText.toList) : isSeparator c = false := by
  have hsign (negative : Bool) (hc : c ∈ signText negative) : isSeparator c = false := by
    cases negative <;> simp [signText] at hc
    rw [hc]
    decide
  cases a with
  | nan =>
    have hword : ∀ d ∈ (resultText .nan).toList, isSeparator d = false :=
      List.all_iff_forall_prop.mp (by decide)
    exact hword c h
  | infinity negative =>
    have hword : ∀ d ∈ (resultText (.infinity negative)).toList, isSeparator d = false := by
      cases negative <;> exact List.all_iff_forall_prop.mp (by decide)
    exact hword c h
  | finite negative rank =>
    rw [toList_resultText_finite, List.mem_append] at h
    rcases h with h | h
    · exact hsign _ h
    by_cases hplain : rank.val = 0 ∨ smallLimit ≤ rank.val
    · obtain ⟨d, htext, -⟩ := exists_resultMagnitude_eq_positional hplain
      rw [htext, ← d.numeral_text] at h
      exact Numeral.not_isSeparator_of_mem_text d.numeral_valid h
    · rw [not_or, not_le] at hplain
      rw [resultMagnitude_eq_scientific hplain.1 hplain.2, List.mem_append, List.mem_cons] at h
      rcases h with h | rfl | h
      · rw [← Decimal.mantissaNumeral_text] at h
        exact Numeral.not_isSeparator_of_mem_text (Decimal.mantissaNumeral_valid _) h
      · decide
      · exact not_isSeparator_of_mem_exponentText h

theorem isValueOf_resultText_iff (negative : Bool) (rank : Fin finiteCount) {a : Binary64} :
    a.IsValueOf (finite negative rank).resultText ↔
      a = if rank.val = 0 then zero false else finite negative rank := by
  obtain ⟨d, hread, hrank⟩ := exists_ofText?_resultMagnitude rank
  rw [Decimal.isValueOf_iff (toList_resultText_finite negative rank) hread, hrank,
    ofRank_resultSign, eq_comm]

/-- Equal numbers have one magnitude, and one sign unless they are zero. -/
theorem signedUnits_eq_iff {negative negative' : Bool} {rank rank' : Nat} :
    signedUnits negative rank = signedUnits negative' rank' ↔
      rank = rank' ∧ (rank = 0 ∨ negative = negative') := by
  constructor
  · intro h
    have hunits := congrArg Int.natAbs h
    rw [natAbs_signedUnits, natAbs_signedUnits] at hunits
    obtain rfl := units_strictMono.injective hunits
    refine ⟨rfl, ?_⟩
    have hzero : units rank = 0 ↔ rank = 0 := units_eq_zero_iff
    cases negative <;> cases negative' <;> simp [signedUnits] at h ⊢ <;> omega
  · rintro ⟨rfl, rfl | rfl⟩
    · simp [signedUnits]
    · rfl

/-- Two finite results have one text when they are one number. -/
theorem resultText_eq_iff {negative negative' : Bool} {rank rank' : Fin finiteCount} :
    (finite negative rank).resultText = (finite negative' rank').resultText ↔
      signedUnits negative rank = signedUnits negative' rank' := by
  rw [signedUnits_eq_iff]
  constructor
  -- The value of the one text is the value of the other one.
  · intro htext
    have hvalue := (isValueOf_resultText_iff negative rank).mpr rfl
    rw [htext, isValueOf_resultText_iff] at hvalue
    split at hvalue <;> split at hvalue
    · rename_i hzero hzero'
      exact ⟨hzero.trans hzero'.symm, .inl hzero⟩
    · rename_i hzero hne
      simp only [zero, finite.injEq] at hvalue
      exact absurd (congrArg Fin.val hvalue.2.symm) hne
    · rename_i hne hzero
      simp only [zero, finite.injEq] at hvalue
      exact absurd (congrArg Fin.val hvalue.2) hne
    · simp only [finite.injEq] at hvalue
      exact ⟨congrArg Fin.val hvalue.2, .inr hvalue.1⟩
  · rintro ⟨hrank, hsign⟩
    obtain rfl := Fin.ext hrank
    rcases hsign with hzero | rfl
    · have hisZero (s : Bool) : (finite s rank).isZero = true := beq_iff_eq.mpr hzero
      rw [resultText_of_isZero (hisZero negative), resultText_of_isZero (hisZero negative')]
    · rfl

theorem ofSignedText?_word {word : String} (h : word ∈ ["inf", "-inf", "NaN"]) :
    Decimal.ofSignedText? word.toList = none := by
  simp only [List.mem_cons, List.not_mem_nil, or_false] at h
  rcases h with rfl | rfl | rfl <;> decide

/-- The text of a finite result determines its number. It is read back as the result without the
sign of a zero, a whole result is written in full, and it is none of the words for the values that
are not finite. -/
theorem resultText_lossless (negative : Bool) (rank : Fin finiteCount) :
    (∀ a : Binary64, a.IsValueOf (finite negative rank).resultText ↔
      a = if rank.val = 0 then zero false else finite negative rank) ∧
    (∀ n : Int, signedUnits negative rank = n * unitsPerOne →
      (finite negative rank).resultText = toString n) ∧
    (∀ (negative' : Bool) (rank' : Fin finiteCount),
      (finite negative rank).resultText = (finite negative' rank').resultText ↔
        signedUnits negative rank = signedUnits negative' rank') ∧
    (finite negative rank).resultText ∉ ["inf", "-inf", "NaN"] := by
  refine ⟨?_, ?_, ?_, ?_⟩
  · intro a
    exact isValueOf_resultText_iff negative rank
  · intro n hn
    exact IsInt.resultText_eq ⟨negative, rank, rfl, hn⟩
  · intro negative' rank'
    exact resultText_eq_iff
  · intro hword
    have hnone := ofSignedText?_word hword
    obtain ⟨sign, d, _, hread, -⟩ := (isValueOf_resultText_iff negative rank).mpr rfl
    simp [hnone] at hread

end LineCalculator.Binary64
