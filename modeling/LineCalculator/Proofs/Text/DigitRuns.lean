import LineCalculator.Proofs.Text.Classes
import Mathlib.Data.List.Pairwise

/-!
The value of a digit, found by counting back over the digits before it. In every class that is made
of runs of ten code points this gives the digit's place in its own run, because the members directly
before a run are whole runs again.
-/
namespace LineCalculator

/-- A class of digits is made of the runs of ten characters that start at these code points. -/
structure DigitRuns (member : Char → Bool) (zeros : Nat → Prop) : Prop where
  member_iff : ∀ c, member c = true ↔ ∃ first, zeros first ∧ first ≤ c.toNat ∧ c.toNat < first + 10
  valid : ∀ first, zeros first → ∀ n, first ≤ n → n < first + 10 → n.isValidChar
  disjoint : ∀ first second, zeros first → zeros second → first < second → first + 10 ≤ second

section Runs

variable {member : Char → Bool} {zeros : Nat → Prop} {first : Nat}

theorem toNat_ofNatAux {n : Nat} (h : n.isValidChar) : (Char.ofNatAux n h).toNat = n :=
  rfl

theorem membersBefore_eq (member : Char → Bool) (n : Nat) : membersBefore member (n + 1) =
    if h : n.isValidChar then
      if member (Char.ofNatAux n h) then membersBefore member n + 1 else 0
    else 0 :=
  rfl

theorem membersBefore_succ (h : DigitRuns member zeros) (hfirst : zeros first) {n : Nat}
    (hle : first ≤ n) (hlt : n < first + 10) :
    membersBefore member (n + 1) = membersBefore member n + 1 := by
  have hvalid := h.valid first hfirst n hle hlt
  have hmember : member (Char.ofNatAux n hvalid) = true :=
    (h.member_iff _).mpr ⟨first, hfirst, hle, hlt⟩
  rw [membersBefore_eq, dif_pos hvalid, if_pos hmember]

/-- Inside a run the count goes up by one with each character. -/
theorem membersBefore_add (h : DigitRuns member zeros) (hfirst : zeros first) {place : Nat}
    (hplace : place ≤ 10) :
    membersBefore member (first + place) = membersBefore member first + place := by
  induction place with
  | zero => rfl
  | succ place ih =>
    rw [← Nat.add_assoc, membersBefore_succ h hfirst (by omega) (by omega), ih (by omega)]
    rfl

theorem membersBefore_eq_zero (h : DigitRuns member zeros) (hfirst : zeros first)
    (hbefore : ¬ ∃ second, zeros second ∧ second + 10 = first) :
    membersBefore member first = 0 := by
  cases first with
  | zero => rfl
  | succ n =>
    by_cases hvalid : n.isValidChar
    · rw [membersBefore_eq, dif_pos hvalid, if_neg]
      intro hmember
      -- The run of this member would end right before the given one.
      obtain ⟨second, hsecond, hle, hlt⟩ := (h.member_iff _).mp hmember
      rw [toNat_ofNatAux] at hle hlt
      have hapart := h.disjoint second (n + 1) hsecond hfirst (by omega)
      exact hbefore ⟨second, hsecond, by omega⟩
    · rw [membersBefore_eq, dif_neg hvalid]

/-- The members directly before a run are whole runs. -/
theorem membersBefore_mod (h : DigitRuns member zeros) (hfirst : zeros first) :
    membersBefore member first % 10 = 0 := by
  induction first using Nat.strongRecOn with
  | ind first ih =>
    by_cases hbefore : ∃ second, zeros second ∧ second + 10 = first
    · obtain ⟨second, hsecond, rfl⟩ := hbefore
      have hmod := ih second (by omega) hsecond
      rw [membersBefore_add h hsecond (le_refl 10)]
      omega
    · rw [membersBefore_eq_zero h hfirst hbefore]

/-- The place of a digit is that in its own run, however many runs come directly before it. -/
theorem placeInRun_eq (h : DigitRuns member zeros) (hfirst : zeros first) {c : Char} {place : Nat}
    (hplace : place < 10) (hc : c.toNat = first + place) : placeInRun member c = place := by
  have hmod := membersBefore_mod h hfirst
  rw [placeInRun, hc, membersBefore_add h hfirst (by omega)]
  omega

end Runs

def inRuns (zeros : List Nat) (c : Char) : Bool :=
  zeros.any fun first => decide (first ≤ c.toNat ∧ c.toNat < first + 10)

theorem inRuns_iff {zeros : List Nat} {c : Char} : inRuns zeros c = true ↔
    ∃ first, first ∈ zeros ∧ first ≤ c.toNat ∧ c.toNat < first + 10 := by
  simp only [inRuns, List.any_eq_true, decide_eq_true_eq]

/-- An increasing list of zeros, none of whose runs meets a surrogate, is a class of digits. -/
theorem digitRuns_inRuns {zeros : List Nat}
    (hvalid : ∀ first ∈ zeros, first + 10 ≤ 0xD800 ∨ 0xDFFF < first ∧ first + 10 ≤ 0x110000)
    (hsorted : zeros.Pairwise fun first second => first + 10 ≤ second) :
    DigitRuns (inRuns zeros) (· ∈ zeros) := by
  refine ⟨fun c => inRuns_iff, ?_, ?_⟩
  · intro first hfirst n hle hlt
    have hrange := hvalid first hfirst
    unfold Nat.isValidChar
    omega
  · intro first second hfirst hsecond hlt
    -- In an increasing list the order of two members decides which of them stands first.
    have hright : zeros.Pairwise fun a b => a < b → a + 10 ≤ b := by
      apply hsorted.imp
      intro a b h _
      exact h
    have hleft : zeros.Pairwise fun a b => b < a → b + 10 ≤ a := by
      apply hsorted.imp
      intro a b h hlt
      omega
    have hself : ∀ a ∈ zeros, a < a → a + 10 ≤ a := fun a _ h => absurd h (lt_irrefl a)
    exact hright.forall_of_forall_of_flip hself hleft hfirst hsecond hlt

/-- The decimal digits of Unicode are made of the runs of their zeros. -/
theorem digitRuns_isDecimalDigit : DigitRuns isDecimalDigit (· ∈ digitZeros) :=
  digitRuns_inRuns (by decide) (by decide)

/-- The character stands for this digit in one of the scripts. -/
def StandsFor (c : Char) (digit : Nat) : Prop :=
  digit < 10 ∧ ∃ first ∈ digitZeros, c.toNat = first + digit

instance (c : Char) (digit : Nat) : Decidable (StandsFor c digit) :=
  inferInstanceAs (Decidable (_ ∧ _))

theorem standsFor_iff {c : Char} {digit : Nat} :
    StandsFor c digit ↔ isDecimalDigit c = true ∧ digitValue c = digit := by
  constructor
  · rintro ⟨hlt, first, hfirst, hc⟩
    refine ⟨isDecimalDigit_iff.mpr ⟨first, hfirst, by omega, by omega⟩, ?_⟩
    exact placeInRun_eq digitRuns_isDecimalDigit hfirst hlt hc
  · rintro ⟨hc, rfl⟩
    obtain ⟨first, hfirst, hle, hlt⟩ := isDecimalDigit_iff.mp hc
    have hplace := placeInRun_eq digitRuns_isDecimalDigit hfirst (c := c)
      (show c.toNat - first < 10 by omega) (by omega)
    rw [digitValue, hplace]
    exact ⟨by omega, first, hfirst, by omega⟩

end LineCalculator
