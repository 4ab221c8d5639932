import LineCalculator.Session.Command
import LineCalculator.Proofs.Text.Classes

/-!
Lower-casing. Command words are compared after Unicode lower-casing, which sends characters from
beyond ASCII to longer or to ASCII texts, but none of them to the letters of a word. Digits are left
as they are.
-/
namespace LineCalculator

def commandLetters : List Char :=
  ['q', 'u', 'i', 't', 'e', 'x', 'h', 'l', 'p']

theorem lowerChar_of_ascii {c : Char} (h : c.toNat < 0x80) : lowerChar c = [c.toLower] := by
  have htable : ∀ n < 0x80, lowerChar (Char.ofNat n) = [(Char.ofNat n).toLower] := by
    decide +kernel
  simpa using htable c.toNat h

/-- Beyond ASCII only the Kelvin sign has a lower-case form inside it, and its `k` is in no word. -/
theorem caseRanges_images : ∀ range ∈ caseRanges, range.last < 0x80 ∨
    0x80 ≤ range.first + range.shift ∨
      (range.first = range.last ∧ range.first + range.shift = 0x6B) := by
  decide +kernel

theorem toNat_of_mem_commandLetters {c : Char} (h : c ∈ commandLetters) :
    c.toNat < 0x80 ∧ c.toNat ≠ 0x6B ∧ c.toNat ≠ 0 := by
  have hall : ∀ d ∈ commandLetters, d.toNat < 0x80 ∧ d.toNat ≠ 0x6B ∧ d.toNat ≠ 0 :=
    List.all_iff_forall_prop.mp (by decide +kernel)
  exact hall c h

theorem toNat_ofNat_cases (n : Nat) : (Char.ofNat n).toNat = n ∨ (Char.ofNat n).toNat = 0 := by
  by_cases hvalid : n.isValidChar
  · rw [show Char.ofNat n = Char.ofNatAux n hvalid from dif_pos hvalid]
    exact .inl rfl
  · rw [show Char.ofNat n = Char.ofNat 0 from dif_neg hvalid]
    exact .inr rfl

theorem ofNat_notMem_commandLetters {n : Nat} (h : 0x80 ≤ n ∨ n = 0x6B) :
    Char.ofNat n ∉ commandLetters := by
  intro hmem
  obtain ⟨hascii, hk, hzero⟩ := toNat_of_mem_commandLetters hmem
  have hcases := toNat_ofNat_cases n
  omega

/-- The lower-case form of a character beyond ASCII is not made of the letters of command words. -/
theorem exists_mem_lowerChar {c : Char} (h : 0x80 ≤ c.toNat) :
    ∃ d ∈ lowerChar c, d ∉ commandLetters := by
  unfold lowerChar
  split
  · exact ⟨Char.ofNat 0x307, by simp, ofNat_notMem_commandLetters (.inl (by decide))⟩
  · split
    case h_1 range hfind =>
      have hcovers := List.find?_some hfind
      have himages := caseRanges_images range (List.mem_of_find?_eq_some hfind)
      simp only [CaseRange.covers, Bool.and_eq_true, decide_eq_true_eq] at hcovers
      refine ⟨_, List.mem_singleton_self _, ofNat_notMem_commandLetters ?_⟩
      unfold CaseRange.image
      omega
    case h_2 =>
      refine ⟨c, List.mem_singleton_self c, ?_⟩
      simpa using ofNat_notMem_commandLetters (.inl h)

example : lowercase ['\u212A', '\u0130'] = ['k', 'i', '\u0307'] := by decide

theorem toLower_eq_self {c : Char} (h : c.toNat < 0x41 ∨ 0x5A < c.toNat) : c.toLower = c := by
  refine dif_neg ?_
  rintro ⟨hge, hle⟩
  have hlow : 0x41 ≤ c.toNat := UInt32.le_iff_toNat_le.mp hge
  have hhigh : c.toNat ≤ 0x5A := UInt32.le_iff_toNat_le.mp hle
  omega

theorem not_isSeparator_of_toLower {c : Char} (h : c.toLower ∈ commandLetters) :
    isSeparator c = false := by
  have hletters : ∀ d ∈ commandLetters, isSeparator d = false :=
    List.all_iff_forall_prop.mp (by decide +kernel)
  by_contra hseparator
  -- No separator is a capital.
  have hrange : c.toNat < 0x41 ∨ 0x5A < c.toNat := by
    by_contra hcapital
    apply hseparator
    simp only [isSeparator, Bool.or_eq_false_iff, decide_eq_false_iff_not, beq_eq_false_iff_ne,
      ne_eq]
    omega
  rw [toLower_eq_self hrange] at h
  exact hseparator (hletters c h)

/-- The text in lower case, where each capital sigma takes either of its two forms. Unicode gives it
the final form at the end of a word, and so chooses one of these texts. -/
inductive LowersTo : List Char → List Char → Prop
  | nil : LowersTo [] []
  | char (c : Char) {text lowered : List Char} : LowersTo text lowered →
    LowersTo (c :: text) (lowerChar c ++ lowered)
  | finalSigma {text lowered : List Char} : LowersTo text lowered →
    LowersTo ('\u03A3' :: text) ('\u03C2' :: lowered)

theorem lowersTo_lowercase (text : List Char) : LowersTo text (lowercase text) := by
  induction text with
  | nil => exact .nil
  | cons c text ih => exact .char c ih

section Words

variable {text word : List Char}

theorem lowercase_of_ascii (h : ∀ c ∈ text, c.toNat < 0x80) :
    lowercase text = text.map Char.toLower := by
  induction text with
  | nil => rfl
  | cons c rest ih =>
    rw [List.forall_mem_cons] at h
    rw [lowercase, List.flatMap_cons, lowerChar_of_ascii h.1, List.map_cons, ← ih h.2]
    rfl

theorem LowersTo.ascii (h : LowersTo text word) (hword : ∀ d ∈ word, d ∈ commandLetters) :
    ∀ c ∈ text, c.toNat < 0x80 := by
  induction h with
  | nil => simp
  | char c htext ih =>
    rw [List.forall_mem_append] at hword
    refine List.forall_mem_cons.mpr ⟨?_, ih hword.2⟩
    by_contra hlarge
    obtain ⟨d, hd, hletter⟩ := exists_mem_lowerChar (Nat.not_lt.mp hlarge)
    exact hletter (hword.1 d hd)
  | finalSigma htext ih => exact absurd (hword '\u03C2' List.mem_cons_self) (by decide)

theorem ascii_of_lowercase (h : ∀ d ∈ lowercase text, d ∈ commandLetters) :
    ∀ c ∈ text, c.toNat < 0x80 :=
  (lowersTo_lowercase text).ascii h

/-- A word of ASCII letters has one form in lower case. -/
theorem LowersTo.eq_lowercase (h : LowersTo text word) (hascii : ∀ c ∈ text, c.toNat < 0x80) :
    word = lowercase text := by
  induction h with
  | nil => rfl
  | char c htext ih =>
    rw [ih (List.forall_mem_cons.mp hascii).2]
    rfl
  | finalSigma htext ih => exact absurd (hascii '\u03A3' List.mem_cons_self) (by decide)

/-- No form of a capital sigma makes or hides a command word. -/
theorem LowersTo.eq_iff {lowered : List Char} (h : LowersTo text lowered)
    (hword : ∀ d ∈ word, d ∈ commandLetters) : lowered = word ↔ lowercase text = word := by
  constructor
  · rintro rfl
    exact (h.eq_lowercase (h.ascii hword)).symm
  · rintro rfl
    exact h.eq_lowercase (ascii_of_lowercase hword)

theorem ascii_of_map_toLower (h : ∀ d ∈ text.map Char.toLower, d ∈ commandLetters) :
    ∀ c ∈ text, c.toNat < 0x80 := by
  intro c hc
  by_contra hlarge
  have hletter := h c.toLower (List.mem_map_of_mem hc)
  rw [toLower_eq_self (by omega)] at hletter
  exact hlarge (toNat_of_mem_commandLetters hletter).1

/-- A text is a command word up to Unicode letter case exactly when it is one up to ASCII letter
case. -/
theorem lowercase_eq_iff (hword : ∀ d ∈ word, d ∈ commandLetters) :
    lowercase text = word ↔ text.map Char.toLower = word := by
  constructor
  · rintro rfl
    exact (lowercase_of_ascii (ascii_of_lowercase hword)).symm
  · rintro rfl
    exact lowercase_of_ascii (ascii_of_map_toLower hword)

end Words

section Digits

theorem digitZeros_avoid_capitals : ∀ first ∈ digitZeros,
    first + 10 ≤ 0x41 ∨ 0x5A < first := by
  decide

theorem not_isDecimalDigit_of_toLower {c : Char} (h : c.toLower ∈ commandLetters) :
    isDecimalDigit c = false := by
  have hletters : ∀ d ∈ commandLetters, isDecimalDigit d = false :=
    List.all_iff_forall_prop.mp (by decide +kernel)
  by_contra hdigit
  obtain ⟨first, hmem, hle, hlt⟩ := isDecimalDigit_iff.mp (by simpa using hdigit)
  have hcapital := digitZeros_avoid_capitals first hmem
  rw [toLower_eq_self (by omega)] at h
  exact hdigit (hletters c h)

/-- No run of digits meets a range of capitals. -/
theorem digitZeros_avoid_caseRanges : ∀ range ∈ caseRanges, ∀ first ∈ digitZeros,
    range.last < first ∨ first + 10 ≤ range.first := by
  decide +kernel

theorem digitZeros_avoid_dotted_capital : ∀ first ∈ digitZeros,
    0x130 < first ∨ first + 10 ≤ 0x130 := by
  decide

theorem lowerChar_of_isDecimalDigit {c : Char} (h : isDecimalDigit c = true) :
    lowerChar c = [c] := by
  obtain ⟨first, hmem, hle, hlt⟩ := isDecimalDigit_iff.mp h
  have hcapital := digitZeros_avoid_dotted_capital first hmem
  have hfind : caseRanges.find? (·.covers c.toNat) = none := by
    rw [List.find?_eq_none]
    intro range hrange hcovers
    have havoid := digitZeros_avoid_caseRanges range hrange first hmem
    simp only [CaseRange.covers, Bool.and_eq_true, decide_eq_true_eq] at hcovers
    omega
  rw [lowerChar, if_neg (by omega), hfind]

end Digits

end LineCalculator
