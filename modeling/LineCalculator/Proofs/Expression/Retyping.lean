import LineCalculator.Proofs.Expression.Results

namespace LineCalculator

namespace Binary64

def abs : Binary64 → Binary64
  | .nan => .nan
  | .infinity _ => .infinity false
  | .finite _ rank => .finite false rank

/-- Adding zero takes the sign from a zero and changes nothing else. -/
theorem add_zero_eq (a : Binary64) : a + zero false = if a.isZero then zero false else a := by
  cases a with
  | nan => rfl
  | infinity negative => rfl
  | finite negative rank =>
    have hsum : signedUnits negative rank + signedUnits false 0 = signedUnits negative rank := by
      simp [signedUnits]
    change ofUnits (negative && false) (signedUnits negative rank + signedUnits false 0) = _
    rw [hsum, ofUnits_signedUnits, Bool.and_false]
    simp only [isZero, beq_iff_eq]

theorem abs_lt_iff (negative : Bool) (rank : Fin finiteCount) :
    (finite negative rank).abs < Decimal.toBinary64 ⟨1, -4⟩ ↔ rank.val < smallLimit := by
  have hlimit : smallLimit < finiteCount := by
    decide +kernel
  have hvalue : Decimal.toBinary64 ⟨1, -4⟩ = finite false ⟨smallLimit, hlimit⟩ := by
    rw [Decimal.toBinary64, ofRank]
    exact dif_pos hlimit
  rw [hvalue]
  change decide ((rank.val : Int) < (smallLimit : Int)) = true ↔ rank.val < smallLimit
  rw [decide_eq_true_eq, Int.ofNat_lt]

theorem exists_foreign_mem_resultText {a : Binary64}
    (h : ¬ (a.isFinite = true ∧ (a.isZero = true ∨ ¬ a.abs < Decimal.toBinary64 ⟨1, -4⟩))) :
    ∃ c, IsForeign c ∧ c ∈ a.resultText.toList := by
  cases a with
  | nan => exact ⟨'N', by decide, by simp [resultText, isZero, render]⟩
  | infinity negative => exact ⟨'n', by decide, by simp [resultText, isZero, render]⟩
  | finite negative rank =>
    rw [abs_lt_iff] at h
    simp only [isFinite, isZero, beq_iff_eq, true_and, not_or, not_not] at h
    -- What is left are the results with an exponent.
    refine ⟨'e', by decide, ?_⟩
    rw [toList_resultText_finite, resultMagnitude_eq_scientific h.1 h.2]
    simp

end Binary64

/-- A result in plain notation is a literal, and its value is the result without the sign of a
zero. -/
theorem Literal.exists_text_eq_resultText (negative : Bool) (rank : Fin Binary64.finiteCount)
    (h : rank.val = 0 ∨ Binary64.smallLimit ≤ rank) :
    ∃ l : Literal, l.text = (Binary64.finite negative rank).resultText.toList ∧
      l.value = if rank.val = 0 then .zero false else .finite negative rank := by
  obtain ⟨d, htext, hrank⟩ := Binary64.exists_resultMagnitude_eq_positional h
  refine ⟨⟨negative && rank.val != 0, d.numeral, d.numeral_valid⟩, ?_, ?_⟩
  · rw [text_eq_append, Binary64.toList_resultText_finite, htext, Decimal.numeral_text]
  · rw [value_numeral, hrank, Binary64.ofRank_resultSign]

/-- Adding zero to the text of a result in plain notation gives the result. -/
theorem outcome_of_plain (negative : Bool) (rank : Fin Binary64.finiteCount)
    (h : rank.val = 0 ∨ Binary64.smallLimit ≤ rank) :
    outcome ((Binary64.finite negative rank).resultText ++ " + 0") =
      .ok (if rank.val = 0 then .zero false else .finite negative rank) := by
  obtain ⟨l, hl, hvalue⟩ := Literal.exists_text_eq_resultText negative rank h
  -- The zero that is added is itself the text of a result.
  obtain ⟨r, hr, hzero⟩ := Literal.exists_text_eq_resultText false ⟨0, by decide⟩ (.inl rfl)
  rw [Binary64.resultText_of_isZero rfl] at hr
  rw [if_pos rfl] at hzero
  have hdenotes : Denotes ((Binary64.finite negative rank).resultText ++ " + 0")
      ⟨l.value, .add, r.value⟩ := by
    have hspaced := @Sentence.denotes_spaced l r .add _ _ hl hr
    rwa [String.append_assoc, String.append_assoc, String.append_assoc] at hspaced
  have hsum : l.value + r.value = l.value := by
    rw [hzero, Binary64.add_zero_eq, hvalue]
    by_cases hrank : rank.val = 0
    · simp [hrank, Binary64.isZero, Binary64.zero]
    · simp [hrank, Binary64.isZero]
  calc outcome ((Binary64.finite negative rank).resultText ++ " + 0")
      = .ok (l.value + r.value) := outcome_of_denotes hdenotes
    _ = .ok (if rank.val = 0 then .zero false else .finite negative rank) := by rw [hsum, hvalue]

/-- A result can be typed in again where it is written without an exponent. Then adding zero gives
the result itself, but for the sign of a zero; every other result is malformed as an operand. -/
theorem outcome_resultText_add_zero (a : Binary64) :
    outcome (a.resultText ++ " + 0") =
      if a.isFinite = true ∧ (a.isZero = true ∨ ¬ a.abs < Decimal.toBinary64 ⟨1, -4⟩) then
        .ok (if a.isZero then .zero false else a)
      else .error .malformedExpression := by
  split
  · rename_i h
    cases a with
    | nan | infinity negative => simp [Binary64.isFinite] at h
    | finite negative rank =>
      rw [Binary64.abs_lt_iff, not_lt] at h
      have hplain : rank.val = 0 ∨ Binary64.smallLimit ≤ rank := by
        simpa [Binary64.isZero] using h.2
      rw [outcome_of_plain negative rank hplain]
      simp only [Binary64.isZero, beq_iff_eq]
  · rename_i h
    obtain ⟨c, hc, hmem⟩ := Binary64.exists_foreign_mem_resultText h
    exact outcome_of_foreign hc (by simp [hmem])

end LineCalculator
