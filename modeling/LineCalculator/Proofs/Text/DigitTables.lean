import LineCalculator.Proofs.Decimal.Digits
import LineCalculator.Proofs.Text.DigitRuns
import Mathlib.Data.List.Chain

/-!
Decoding digits by any table of runs. The decoder is not told where the runs start. It goes back
from a digit over the members directly before it, one code point at a time, and reduces the distance
modulo ten. The scan comes to its end before zero and before the surrogates, and what it finds is
the digit's place in its own run.
-/
namespace LineCalculator

/-- The code point directly before `n`, if it is that of a member. Nothing is before zero, and a
surrogate is no character. -/
def stepBack? (member : Char → Bool) : Nat → Option Nat
  | 0 => none
  | n + 1 =>
    if h : n.isValidChar then
      if member (Char.ofNatAux n h) then some n else none
    else none

/-- The scan goes back from a code point over the visited ones, until there is no further step, and
it is then at `last`. -/
inductive ScansBack (member : Char → Bool) : Nat → List Nat → Nat → Prop where
  | stop {n : Nat} (h : stepBack? member n = none) : ScansBack member n [] n
  | step {n before last : Nat} {visited : List Nat} (h : stepBack? member n = some before)
    (hrest : ScansBack member before visited last) : ScansBack member n (before :: visited) last

/-- The ASCII digit of the same value as a member. An ASCII digit is left as it is. -/
def asciiDigitIn? (member : Char → Bool) (c : Char) : Option Char :=
  if c.isDigit then some c else (digitValueIn? member c).map Nat.digitChar

section Scan

variable {member : Char → Bool} {n before last : Nat} {visited : List Nat}

theorem stepBack?_eq (member : Char → Bool) (n : Nat) : stepBack? member (n + 1) =
    if h : n.isValidChar then
      if member (Char.ofNatAux n h) then some n else none
    else none :=
  rfl

/-- A step goes to the next smaller code point, and only to that of a member. -/
theorem stepBack?_eq_some_iff : stepBack? member n = some before ↔
    n = before + 1 ∧ ∃ c : Char, c.toNat = before ∧ member c = true := by
  cases n with
  | zero => simp [stepBack?]
  | succ n =>
    rw [stepBack?_eq, Nat.add_right_cancel_iff]
    constructor
    · intro h
      by_cases hvalid : n.isValidChar
      · rw [dif_pos hvalid] at h
        by_cases hmember : member (Char.ofNatAux n hvalid) = true
        · rw [if_pos hmember] at h
          obtain rfl := Option.some.inj h
          exact ⟨rfl, _, toNat_ofNatAux hvalid, hmember⟩
        · rw [if_neg hmember] at h
          cases h
      · rw [dif_neg hvalid] at h
        cases h
    · intro h
      obtain ⟨rfl, c, rfl, hmember⟩ := h
      have hvalid : c.toNat.isValidChar := c.valid
      have hchar : Char.ofNatAux c.toNat hvalid = c := Char.toNat_inj.mp (toNat_ofNatAux hvalid)
      rw [dif_pos hvalid, hchar, if_pos hmember]

theorem membersBefore_of_stepBack? (h : stepBack? member n = some before) :
    membersBefore member n = membersBefore member before + 1 := by
  obtain ⟨rfl, c, rfl, hmember⟩ := stepBack?_eq_some_iff.mp h
  have hvalid : c.toNat.isValidChar := c.valid
  have hchar : Char.ofNatAux c.toNat hvalid = c := Char.toNat_inj.mp (toNat_ofNatAux hvalid)
  rw [membersBefore_eq, dif_pos hvalid, hchar, if_pos hmember]

theorem membersBefore_of_stepBack?_eq_none (h : stepBack? member n = none) :
    membersBefore member n = 0 := by
  cases n with
  | zero => rfl
  | succ n =>
    rw [membersBefore_eq]
    rw [stepBack?_eq] at h
    by_cases hvalid : n.isValidChar
    · rw [dif_pos hvalid] at h ⊢
      by_cases hmember : member (Char.ofNatAux n hvalid) = true
      · rw [if_pos hmember] at h
        cases h
      · rw [if_neg hmember]
    · rw [dif_neg hvalid]

/-- Every scan comes to an end, since each step makes the code point smaller. -/
theorem exists_scansBack (member : Char → Bool) (n : Nat) :
    ∃ visited last, ScansBack member n visited last := by
  induction n using Nat.strongRecOn with
  | ind n ih =>
    cases hstep : stepBack? member n with
    | none => exact ⟨[], n, .stop hstep⟩
    | some before =>
      have hbefore := (stepBack?_eq_some_iff.mp hstep).1
      obtain ⟨visited, last, hscan⟩ := ih before (by omega)
      exact ⟨before :: visited, last, .step hstep hscan⟩

theorem ScansBack.unique (h : ScansBack member n visited last) {visited' : List Nat} {last' : Nat}
    (h' : ScansBack member n visited' last') : visited' = visited ∧ last' = last := by
  -- There is at most one step from a code point, so the two scans never part.
  induction h generalizing visited' with
  | stop hstep =>
    cases h' with
    | stop _ => exact ⟨rfl, rfl⟩
    | step hstep' _ => simp [hstep] at hstep'
  | step hstep _ ih =>
    cases h' with
    | stop hstep' => simp [hstep] at hstep'
    | step hstep' hrest' =>
      obtain rfl := Option.some.inj (hstep.symm.trans hstep')
      obtain ⟨rfl, rfl⟩ := ih hrest'
      exact ⟨rfl, rfl⟩

/-- No step goes anywhere but one code point down. -/
theorem ScansBack.isChain (h : ScansBack member n visited last) :
    (n :: visited).IsChain fun a b => a = b + 1 := by
  induction h with
  | stop hstep => exact .singleton _
  | step hstep hrest ih => exact .cons_cons (stepBack?_eq_some_iff.mp hstep).1 ih

theorem ScansBack.member_of_mem (h : ScansBack member n visited last) :
    ∀ m ∈ visited, ∃ c : Char, c.toNat = m ∧ member c = true := by
  induction h with
  | stop hstep => simp
  | step hstep hrest ih => exact List.forall_mem_cons.mpr ⟨(stepBack?_eq_some_iff.mp hstep).2, ih⟩

/-- The scan goes back over as many code points as there are members directly before the first. -/
theorem ScansBack.add_membersBefore (h : ScansBack member n visited last) :
    last + membersBefore member n = n := by
  induction h with
  | stop hstep => rw [membersBefore_of_stepBack?_eq_none hstep, Nat.add_zero]
  | step hstep hrest ih =>
    have hbefore := (stepBack?_eq_some_iff.mp hstep).1
    rw [membersBefore_of_stepBack? hstep]
    omega

theorem ScansBack.placeInRun_eq {c : Char} (h : ScansBack member c.toNat visited last) :
    placeInRun member c = (c.toNat - last) % 10 := by
  have hadd := h.add_membersBefore
  rw [placeInRun]
  congr 1
  omega

end Scan

section Tables

variable {member : Char → Bool} {zeros : Nat → Prop} {first : Nat} {c : Char}

theorem digitValueIn?_of_mem_run (h : DigitRuns member zeros) (hfirst : zeros first)
    (hle : first ≤ c.toNat) (hlt : c.toNat < first + 10) :
    digitValueIn? member c = some (c.toNat - first) := by
  have hmember : member c = true := (h.member_iff c).mpr ⟨first, hfirst, hle, hlt⟩
  have hplace : placeInRun member c = c.toNat - first :=
    placeInRun_eq h hfirst (by omega) (by omega)
  rw [digitValueIn?, if_pos hmember, hplace]

theorem digitChar_of_isDigit (h : c.isDigit = true) : Nat.digitChar (c.toNat - 0x30) = c := by
  obtain ⟨hlow, hhigh⟩ := toNat_of_isDigit h
  apply Char.toNat_inj.mp
  rw [Nat.toNat_digitChar_of_lt_ten (by omega)]
  omega

/-- In a table with the ASCII digits the way past the scan gives no other digit. -/
theorem asciiDigitIn?_eq (h : DigitRuns member zeros) (hascii : zeros 0x30) (c : Char) :
    asciiDigitIn? member c = (digitValueIn? member c).map Nat.digitChar := by
  unfold asciiDigitIn?
  split
  · rename_i hdigit
    obtain ⟨hlow, hhigh⟩ := toNat_of_isDigit hdigit
    rw [digitValueIn?_of_mem_run h hascii hlow (by omega), Option.map_some,
      digitChar_of_isDigit hdigit]
  · rfl

end Tables

/-- Whatever runs of ten a table of digits is made of, as long as the ASCII digits are one of them,
each member is decoded as its place in its own run and nothing else is decoded. The scan behind it
ends, and on its way it goes down one code point at a time and meets members only. -/
theorem digitRuns_decode {member : Char → Bool} {zeros : Nat → Prop} (h : DigitRuns member zeros)
    (hascii : zeros 0x30) (c : Char) :
    (∀ first, zeros first → first ≤ c.toNat → c.toNat < first + 10 →
      digitValueIn? member c = some (c.toNat - first) ∧
      asciiDigitIn? member c = some (Nat.digitChar (c.toNat - first))) ∧
    (member c = false → digitValueIn? member c = none ∧ asciiDigitIn? member c = none) ∧
    ∃ visited last, ScansBack member c.toNat visited last ∧
      (∀ visited' last', ScansBack member c.toNat visited' last' →
        visited' = visited ∧ last' = last) ∧
      ((c.toNat :: visited).IsChain fun a b => a = b + 1) ∧
      (∀ n ∈ visited, ∃ d : Char, d.toNat = n ∧ member d = true) ∧
      placeInRun member c = (c.toNat - last) % 10 := by
  refine ⟨?member, ?other, ?scan⟩
  case member =>
    intro first hfirst hle hlt
    have hvalue := digitValueIn?_of_mem_run h hfirst hle hlt
    rw [asciiDigitIn?_eq h hascii, hvalue]
    exact ⟨rfl, rfl⟩
  case other =>
    intro hmember
    have hvalue : digitValueIn? member c = none := by simp [digitValueIn?, hmember]
    rw [asciiDigitIn?_eq h hascii, hvalue]
    exact ⟨rfl, rfl⟩
  case scan =>
    obtain ⟨visited, last, hscan⟩ := exists_scansBack member c.toNat
    exact ⟨visited, last, hscan, fun _ _ => hscan.unique, hscan.isChain, hscan.member_of_mem,
      hscan.placeInRun_eq⟩

def tableAfterSurrogates : List Nat :=
  [0x30, 0xE000, 0xE00A]

theorem digitRuns_decode_after_surrogates :
    DigitRuns (inRuns tableAfterSurrogates) (· ∈ tableAfterSurrogates) ∧
    asciiDigitIn? (inRuns tableAfterSurrogates) '\uE00D' = some '3' := by
  have hruns : DigitRuns (inRuns tableAfterSurrogates) (· ∈ tableAfterSurrogates) :=
    digitRuns_inRuns (by decide) (by decide)
  have hplace : Nat.digitChar ('\uE00D'.toNat - 0xE00A) = '3' := by decide +kernel
  have hdecode := (digitRuns_decode hruns (by decide) '\uE00D').1
  have hread := (hdecode 0xE00A (by decide) (by decide +kernel) (by decide +kernel)).2
  rw [hplace] at hread
  exact ⟨hruns, hread⟩

end LineCalculator
