import LineCalculator.Proofs.Token.Lexemes
import Mathlib.Tactic.IntervalCases

namespace LineCalculator

theorem toNat_of_isDigit {c : Char} (h : c.isDigit = true) : 48 ≤ c.toNat ∧ c.toNat ≤ 57 := by
  rwa [Char.isDigit_iff_toNat] at h

theorem isDecimalDigit_of_isDigit {c : Char} (h : c.isDigit = true) : isDecimalDigit c = true := by
  have hrange := toNat_of_isDigit h
  exact isDecimalDigit_iff.mpr ⟨0x30, by decide, by omega, by omega⟩

/-- The run of the ASCII digits starts at the first code point of them. -/
theorem digitValue_of_isDigit {c : Char} (h : c.isDigit = true) :
    digitValue c = c.toNat - '0'.toNat := by
  obtain ⟨hlow, hhigh⟩ := toNat_of_isDigit h
  unfold digitValue placeInRun
  generalize c.toNat = n at hlow hhigh ⊢
  interval_cases n <;> decide

/-- Digits read as decimal digits are digits read as ASCII ones. -/
theorem ofDigits_map_digitValue {chars : List Char} (places : Nat)
    (h : ∀ c ∈ chars, c.isDigit = true) : Decimal.ofDigits (chars.map digitValue) places =
      ⟨Nat.ofDigitChars 10 chars 0, -(places : Int)⟩ := by
  have hfold (value : Nat) : (chars.map digitValue).foldl (fun value digit => 10 * value + digit)
      value = Nat.ofDigitChars 10 chars value := by
    induction chars generalizing value with
    | nil => simp
    | cons c rest ih =>
      rw [List.map_cons, List.foldl_cons, Nat.ofDigitChars_cons,
        ih fun d hd => h d (List.mem_cons_of_mem c hd), digitValue_of_isDigit (h c (by simp))]
  rw [Decimal.ofDigits, hfold]

end LineCalculator
