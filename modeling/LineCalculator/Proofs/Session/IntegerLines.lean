import LineCalculator.Proofs.Expression.WholeNumbers
import LineCalculator.Proofs.Session.SentenceLines

namespace LineCalculator

/-- The whole number `n` is the exact result of the operation on whole numbers. Quotients are
floored by `//`, and `/` has a whole result only without a remainder. -/
def Operator.Yields (operator : Operator) (a b n : Int) : Prop :=
  match operator with
  | .add => n = a + b
  | .subtract => n = a - b
  | .multiply => n = a * b
  | .divide => b ≠ 0 ∧ a = n * b
  | .floorDivide => b ≠ 0 ∧ n = a.fdiv b
  | .modulo => b ≠ 0 ∧ n = a.fmod b
  | .power => 0 ≤ b ∧ n = a ^ b.toNat

section Exact

variable {operator : Operator} {a b n : Int}

theorem Operator.Yields.apply_isInt {x y : Binary64} (h : operator.Yields a b n) (hx : x.IsInt a)
    (hy : y.IsInt b) (ha : a.natAbs ≤ 2 ^ 53) (hb : b.natAbs ≤ 2 ^ 53) (hn : n.natAbs ≤ 2 ^ 53) :
    (operator.apply x y).IsInt n := by
  cases operator with
  | add =>
    obtain rfl : n = a + b := h
    exact hx.add hy hn
  | subtract =>
    obtain rfl : n = a - b := h
    exact hx.sub hy hn
  | multiply =>
    obtain rfl : n = a * b := h
    exact hx.mul hy hn
  | divide =>
    obtain ⟨hne, rfl⟩ : b ≠ 0 ∧ a = n * b := h
    exact hx.div hy hne hn
  | floorDivide =>
    obtain ⟨hne, rfl⟩ : b ≠ 0 ∧ n = a.fdiv b := h
    exact (hx.floorDivMod hy hne ha hb).1
  | modulo =>
    obtain ⟨hne, rfl⟩ : b ≠ 0 ∧ n = a.fmod b := h
    exact (hx.floorDivMod hy hne ha hb).2
  | power =>
    obtain ⟨hnonneg, rfl⟩ : 0 ≤ b ∧ n = a ^ b.toNat := h
    have hexponent : y.IsInt b.toNat := by rwa [Int.toNat_of_nonneg hnonneg]
    exact hx.pow hexponent hn

theorem Operator.Yields.ne_zero (h : operator.Yields a b n) (hdivides : operator.divides = true) :
    b ≠ 0 := by
  cases operator with
  | add | subtract | multiply | power => simp [divides] at hdivides
  | divide | floorDivide | modulo => exact h.1

end Exact

def integerLine (a : Int) (operator : Operator) (b : Int) : String :=
  toString a ++ " " ++ operator.symbol ++ " " ++ toString b

section Lines

variable {operator : Operator} {a b : Int}

theorem reply_integerLine : reply (integerLine a operator b) = (.proceed,
    outcomeReply (Expression.value ⟨(Literal.ofInt a).value, operator, (Literal.ofInt b).value⟩)) :=
  Sentence.reply_eq (.spaced (.ofInt a) operator (.ofInt b))
    (Sentence.text_spaced (Literal.text_ofInt a) (Literal.text_ofInt b))

theorem outcome_integerLine : outcome (integerLine a operator b) =
    Expression.value ⟨(Literal.ofInt a).value, operator, (Literal.ofInt b).value⟩ :=
  outcome_of_denotes (Sentence.denotes_spaced (Literal.text_ofInt a) (Literal.text_ofInt b))

theorem value_of_yields {n : Int} (h : operator.Yields a b n) (ha : a.natAbs ≤ 2 ^ 53)
    (hb : b.natAbs ≤ 2 ^ 53) (hn : n.natAbs ≤ 2 ^ 53) : ∃ value : Binary64, value.IsInt n ∧
      Expression.value ⟨(Literal.ofInt a).value, operator, (Literal.ofInt b).value⟩ =
        .ok value := by
  have hright := Literal.value_ofInt hb
  refine ⟨_, h.apply_isInt (Literal.value_ofInt ha) hright ha hb hn, ?_⟩
  rw [Expression.value, if_neg]
  intro hzero
  obtain ⟨hdivides, hzero⟩ := Bool.and_eq_true_iff.mp hzero
  exact h.ne_zero hdivides (hright.isZero_iff.mp hzero)

theorem value_of_zero (hdivides : operator.divides = true) :
    Expression.value ⟨(Literal.ofInt a).value, operator, (Literal.ofInt 0).value⟩ =
      .error .divisionByZero := by
  have hzero := (Literal.value_ofInt (n := 0) (by decide)).isZero_iff.mpr rfl
  rw [Expression.value, if_pos]
  rw [hdivides, hzero]
  rfl

end Lines

/-- Lines of whole numbers up to `2 ^ 53` are answered by the exact result where it is a whole
number up to that bound. A division by zero is answered by its error, and a result that is one of
the two zeros by a zero without a sign. -/
theorem handleLine_integerLine (a : Int) (operator : Operator) (b : Int)
    (ha : a.natAbs ≤ 2 ^ 53) (hb : b.natAbs ≤ 2 ^ 53) :
    (∀ n : Int, operator.Yields a b n → n.natAbs ≤ 2 ^ 53 →
      (handleLine (integerLine a operator b)).Emits (.ok .proceed)
        ("= " ++ toString n ++ "\n").toUTF8.data) ∧
    (b = 0 → operator = .divide ∨ operator = .floorDivide ∨ operator = .modulo →
      (handleLine (integerLine a operator b)).Emits (.ok .proceed)
        "Error: Division by zero is not allowed\n".toUTF8.data) ∧
    ∀ value, outcome (integerLine a operator b) = .ok value → value.isZero = true →
      (handleLine (integerLine a operator b)).Emits (.ok .proceed) "= 0\n".toUTF8.data := by
  have hemits := handleLine_emits (integerLine a operator b)
  rw [reply_integerLine] at hemits
  refine ⟨?_, ?_, ?_⟩
  · intro n h hn
    obtain ⟨value, hvalue, heq⟩ := value_of_yields h ha hb hn
    rw [heq] at hemits
    rw [← hvalue.resultText_eq]
    exact hemits
  · rintro rfl hoperator
    rw [value_of_zero (Operator.divides_iff.mpr hoperator)] at hemits
    exact hemits
  · intro value houtcome hzero
    rw [← outcome_integerLine, houtcome, outcomeReply,
      Binary64.resultText_of_isZero hzero] at hemits
    exact hemits

theorem handleLine_floored_quotient : (-7 : Int).natAbs ≤ 2 ^ 53 ∧ (2 : Int).natAbs ≤ 2 ^ 53 ∧
    (handleLine "-7 // 2").Emits (.ok .proceed) "= -4\n".toUTF8.data := by
  have hleft : (-7 : Int).natAbs ≤ 2 ^ 53 := by decide
  have hright : (2 : Int).natAbs ≤ 2 ^ 53 := by decide
  have hline : integerLine (-7) .floorDivide 2 = "-7 // 2" := by decide
  have hanswer := (handleLine_integerLine (-7) .floorDivide 2 hleft hright).1 (-4)
    ⟨by decide, by decide⟩ (by decide)
  rw [hline] at hanswer
  exact ⟨hleft, hright, hanswer⟩

end LineCalculator
