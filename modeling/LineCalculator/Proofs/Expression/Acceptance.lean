import LineCalculator.Proofs.Binary64.SignedRounding
import LineCalculator.Proofs.Expression.WholeNumbers
import LineCalculator.Proofs.Token.NumberValues

namespace LineCalculator

open Binary64 (RoundsSigned)

theorem Decimal.roundsSigned (negative : Bool) (d : Decimal) :
    RoundsSigned (d.signedRat negative) negative (.ofRank negative d.nearestRank) := by
  rw [← signedQuotient_eq_signedRat]
  exact Binary64.roundsSigned_ofRatio negative _ (Nat.pow_pos (by decide))

/-- A literal has the value nearest to the one number that its numeral writes, under its sign. -/
theorem Literal.roundsSigned_value (l : Literal) : ∃ x, (∀ y, l.numeral.Writes y ↔ y = x) ∧
    RoundsSigned (if l.negative then -x else x) l.negative l.value ∧
    (l.value.isZero = true ↔ x ≤ 1 / 2 ^ 1075) := by
  have hround := l.numeral.toDecimal.roundsSigned l.negative
  rw [← l.value_eq_ofRank rfl] at hround
  refine ⟨l.numeral.toDecimal.toRat, l.numeral.writes_iff l.valid, hround, ?_⟩
  rw [hround.roundsTo.isZero_iff, Decimal.abs_signedRat]

/-- Evaluation accepts exactly the sentences of the language, each read in one way. Its two
literals stand for the numbers they write, rounded under their signs. A sentence fails only by
dividing by a zero of either sign, and has the value of its operation otherwise. -/
theorem outcome_accepts_sentences (source : String) :
    (outcome source ≠ .error .malformedExpression ↔ ∃ s : Sentence, s.text = source.toList) ∧
    (∀ s t : Sentence, s.text = source.toList → t.text = source.toList → s = t) ∧
    (∀ s : Sentence, s.text = source.toList →
      (∀ l, l = s.left ∨ l = s.right → ∃ x, (∀ y, l.numeral.Writes y ↔ y = x) ∧
        RoundsSigned (if l.negative then -x else x) l.negative l.value ∧
        (l.value.isZero = true ↔ x ≤ 1 / 2 ^ 1075)) ∧
      (outcome source = .error .divisionByZero ↔
        (s.operator = .divide ∨ s.operator = .floorDivide ∨ s.operator = .modulo) ∧
          (s.right.value = .zero false ∨ s.right.value = .zero true)) ∧
      (outcome source ≠ .error .divisionByZero →
        outcome source = .ok (s.operator.apply s.left.value s.right.value))) ∧
    ∀ fault, outcome source ≠ .error (.stream fault) := by
  have hvalue (s : Sentence) (hs : s.text = source.toList) :
      outcome source = s.expression.value :=
    outcome_of_denotes (denotes_iff_sentence.mpr ⟨s, hs, rfl⟩)
  refine ⟨?_, ?_, ?_, outcome_ne_stream source⟩
  · rw [outcome_ne_malformed_iff]
    constructor
    · intro h
      obtain ⟨e, he⟩ := h
      obtain ⟨s, hs, -⟩ := denotes_iff_sentence.mp he
      exact ⟨s, hs⟩
    · intro h
      obtain ⟨s, hs⟩ := h
      exact ⟨s.expression, denotes_iff_sentence.mpr ⟨s, hs, rfl⟩⟩
  · intro s t hs ht
    exact Sentence.text_injective (hs.trans ht.symm)
  · intro s hs
    refine ⟨fun l _ => l.roundsSigned_value, ?_⟩
    rw [hvalue s hs, ← Binary64.isZero_iff, ← Operator.divides_iff]
    unfold Expression.value Sentence.expression
    dsimp only
    split <;> simp_all

def negativeSixHalved : Sentence :=
  .spaced (.ofInt (-6)) .divide (.ofInt 2)

theorem outcome_negativeSixHalved :
    negativeSixHalved.text = "-6 / 2".toList ∧
    negativeSixHalved.left.numeral.Writes 6 ∧
    RoundsSigned (-6) true negativeSixHalved.left.value ∧
    negativeSixHalved.right.numeral.Writes 2 ∧
    RoundsSigned 2 false negativeSixHalved.right.value ∧
    negativeSixHalved.right.value.isZero = false ∧
    outcome "-6 / 2" = .ok (.finite true ⟨0x4008000000000000, by decide⟩) := by
  have hline : toString (-6 : Int) ++ " " ++ Operator.divide.symbol ++ " " ++ toString (2 : Int) =
      "-6 / 2" := by
    decide
  have htext : negativeSixHalved.text = "-6 / 2".toList := by
    rw [negativeSixHalved, Sentence.text_spaced (Literal.text_ofInt (-6)) (Literal.text_ofInt 2),
      hline]
  have hsix : negativeSixHalved.left.numeral.Writes 6 :=
    ⟨[6], [], by decide, by decide, by norm_num [Nat.ofDigits]⟩
  have htwo : negativeSixHalved.right.numeral.Writes 2 :=
    ⟨[2], [], by decide, by decide, by norm_num [Nat.ofDigits]⟩
  obtain ⟨-, -, hsentence, -⟩ := outcome_accepts_sentences "-6 / 2"
  obtain ⟨hliteral, hdivision, hresult⟩ := hsentence _ htext
  obtain ⟨x, hx, hleft, -⟩ := hliteral _ (.inl rfl)
  obtain rfl := (hx 6).mp hsix
  obtain ⟨y, hy, hright, hzero⟩ := hliteral _ (.inr rfl)
  obtain rfl := (hy 2).mp htwo
  have hsmall : (1 : ℚ) / 2 ^ 1075 ≤ 1 :=
    div_le_one_of_le₀ (one_le_pow₀ one_le_two) (by positivity)
  have hnonzero : negativeSixHalved.right.value.isZero = false := by
    rw [Bool.eq_false_iff, Ne, hzero, not_le]
    exact hsmall.trans_lt one_lt_two
  refine ⟨htext, hsix, hleft, htwo, hright, hnonzero, ?_⟩
  rw [hresult]
  · decide +kernel
  · rw [Ne, hdivision, ← Binary64.isZero_iff, hnonzero]
    simp

end LineCalculator
