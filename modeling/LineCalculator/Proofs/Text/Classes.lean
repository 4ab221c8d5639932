import LineCalculator.Text.Digit
import LineCalculator.Text.Separator
import Mathlib.Data.Bool.AllAny
import Mathlib.Data.List.TakeWhile

namespace LineCalculator

/-- Every run of digits lies in one of the four ranges that the separators leave free. -/
theorem digitZeros_avoid_separators : ∀ first ∈ digitZeros,
    (0x30 ≤ first ∧ first + 10 ≤ 0x85) ∨ (0xA1 ≤ first ∧ first + 10 ≤ 0x1680) ∨
      (0x1681 ≤ first ∧ first + 10 ≤ 0x2000) ∨ 0x3001 ≤ first := by
  decide

theorem isDecimalDigit_iff {c : Char} : isDecimalDigit c = true ↔
    ∃ first ∈ digitZeros, first ≤ c.toNat ∧ c.toNat < first + 10 := by
  simp only [isDecimalDigit, List.any_eq_true, decide_eq_true_eq]

theorem zero_le_of_isDecimalDigit {c : Char} (h : isDecimalDigit c = true) : 0x30 ≤ c.toNat := by
  obtain ⟨first, hmem, hle, -⟩ := isDecimalDigit_iff.mp h
  have hrange := digitZeros_avoid_separators first hmem
  omega

theorem not_isSeparator_of_isDecimalDigit {c : Char} (h : isDecimalDigit c = true) :
    isSeparator c = false := by
  obtain ⟨first, hmem, hle, hlt⟩ := isDecimalDigit_iff.mp h
  have hrange := digitZeros_avoid_separators first hmem
  simp only [isSeparator, Bool.or_eq_false_iff, decide_eq_false_iff_not, beq_eq_false_iff_ne, ne_eq]
  omega

theorem not_isDecimalDigit_of_isSeparator {c : Char} (h : isSeparator c = true) :
    isDecimalDigit c = false := by
  by_contra hdigit
  have hsep := not_isSeparator_of_isDecimalDigit (by simpa using hdigit)
  simp [hsep] at h

/-- A text of separators only. -/
def Gap (text : List Char) : Prop :=
  ∀ c ∈ text, isSeparator c = true

theorem gap_nil : Gap [] := by
  simp [Gap]

theorem gap_append_iff {a b : List Char} : Gap (a ++ b) ↔ Gap a ∧ Gap b :=
  List.forall_mem_append

theorem Gap.append {a b : List Char} (ha : Gap a) (hb : Gap b) : Gap (a ++ b) :=
  gap_append_iff.mpr ⟨ha, hb⟩

theorem Gap.reverse {a : List Char} (h : Gap a) : Gap a.reverse := by
  intro c hc
  exact h c (List.mem_reverse.mp hc)

theorem gap_takeWhile (text : List Char) : Gap (text.takeWhile isSeparator) :=
  List.all_eq_true.mp List.all_takeWhile

/-- The text does not begin with a character of the class. -/
def StartsOutside (p : Char → Bool) (text : List Char) : Prop :=
  ∀ c ∈ text.head?, p c = false

theorem startsOutside_nil (p : Char → Bool) : StartsOutside p [] := by
  simp [StartsOutside]

@[simp]
theorem startsOutside_cons {p : Char → Bool} {c : Char} {text : List Char} :
    StartsOutside p (c :: text) ↔ p c = false := by
  simp [StartsOutside]

theorem StartsOutside.shorten {p : Char → Bool} {a b : List Char} (h : StartsOutside p b)
    (hab : a <+: b) : StartsOutside p a := by
  obtain ⟨rest, rfl⟩ := hab
  cases a with
  | nil => exact startsOutside_nil p
  | cons c tail => exact startsOutside_cons.mpr (startsOutside_cons.mp h)

theorem startsOutside_dropWhile (p : Char → Bool) (text : List Char) :
    StartsOutside p (text.dropWhile p) := by
  intro c hc
  have hnot := List.head?_dropWhile_not p text
  rw [Option.mem_def.mp hc] at hnot
  simpa using hnot

/-- A gap before a text keeps every class off that holds no separator. -/
theorem startsOutside_gap_append {p : Char → Bool} {gap text : List Char} (hgap : Gap gap)
    (hp : ∀ c, isSeparator c = true → p c = false) (htext : StartsOutside p text) :
    StartsOutside p (gap ++ text) := by
  cases gap with
  | nil => exact htext
  | cons c rest => exact startsOutside_cons.mpr (hp c (hgap c (by simp)))

theorem StartsOutside.append {p : Char → Bool} {a b : List Char} (ha : StartsOutside p a)
    (hb : StartsOutside p b) : StartsOutside p (a ++ b) := by
  cases a with
  | nil => exact hb
  | cons c rest => exact startsOutside_cons.mpr (startsOutside_cons.mp ha)

theorem Gap.eq_nil_of_startsOutside {gap text : List Char} (h : Gap gap)
    (hout : StartsOutside isSeparator (gap ++ text)) : gap = [] := by
  cases gap with
  | nil => rfl
  | cons c rest =>
    have hseparator := h c (by simp)
    rw [startsOutside_cons.mp hout] at hseparator
    cases hseparator

def StartsSeparated (text : List Char) : Prop :=
  ∀ c ∈ text.head?, isSeparator c = true

theorem Gap.startsSeparated {gap : List Char} (h : Gap gap) : StartsSeparated gap := by
  intro c hc
  exact h c (List.mem_of_mem_head? hc)

theorem Gap.startsSeparated_append {gap : List Char} (h : Gap gap) (hne : gap ≠ [])
    (text : List Char) : StartsSeparated (gap ++ text) := by
  obtain ⟨c, tail, rfl⟩ := List.exists_cons_of_ne_nil hne
  intro d hd
  obtain rfl : c = d := by simpa using hd
  exact h c List.mem_cons_self

theorem StartsSeparated.startsOutside {p : Char → Bool} {text : List Char}
    (h : StartsSeparated text) (hp : ∀ c, isSeparator c = true → p c = false) :
    StartsOutside p text := by
  intro c hc
  exact hp c (h c hc)

theorem not_beq_of_isSeparator {d : Char} (hd : isSeparator d = false) :
    ∀ c, isSeparator c = true → (c == d) = false := by
  intro c hc
  rw [beq_eq_false_iff_ne]
  rintro rfl
  simp [hd] at hc

section TakeWhile

variable {p : Char → Bool} {a b : List Char}

theorem takeWhile_append_of_startsOutside (ha : ∀ c ∈ a, p c = true) (hb : StartsOutside p b) :
    (a ++ b).takeWhile p = a := by
  rw [List.takeWhile_append_of_pos ha]
  cases b with
  | nil => simp
  | cons c rest => simp [startsOutside_cons.mp hb]

theorem dropWhile_append_of_startsOutside (ha : ∀ c ∈ a, p c = true) (hb : StartsOutside p b) :
    (a ++ b).dropWhile p = b := by
  rw [List.dropWhile_append_of_pos ha]
  cases b with
  | nil => simp
  | cons c rest => simp [startsOutside_cons.mp hb]

/-- A text is cut in one way only into a run of the class and what follows it. -/
theorem run_append_inj {a' b' : List Char} (ha : ∀ c ∈ a, p c = true) (hb : StartsOutside p b)
    (ha' : ∀ c ∈ a', p c = true) (hb' : StartsOutside p b') (h : a ++ b = a' ++ b') :
    a = a' ∧ b = b' := by
  constructor
  · rw [← takeWhile_append_of_startsOutside ha hb, h, takeWhile_append_of_startsOutside ha' hb']
  · rw [← dropWhile_append_of_startsOutside ha hb, h, dropWhile_append_of_startsOutside ha' hb']

end TakeWhile

end LineCalculator
