import LineCalculator.Proofs.Text.Classes
import LineCalculator.Token.Lexeme

namespace LineCalculator.Numeral

/-- At least one digit before the point and nothing but digits around it. -/
structure Valid (n : Numeral) : Prop where
  whole_ne_nil : n.whole ≠ []
  whole_digits : ∀ c ∈ n.whole, isDecimalDigit c = true
  fraction_digits : ∀ c ∈ n.fraction, isDecimalDigit c = true

/-- The text does not lengthen a numeral that it follows, neither by a digit nor by a fraction. -/
structure EndsBefore (n : Numeral) (rest : List Char) : Prop where
  digit : StartsOutside isDecimalDigit rest
  point : n.fraction = [] → ∀ tail, rest = '.' :: tail → StartsOutside isDecimalDigit tail

theorem not_isDecimalDigit_point : isDecimalDigit '.' = false := by
  decide

theorem endsBefore_of_startsOutside (n : Numeral) {rest : List Char}
    (hdigit : StartsOutside isDecimalDigit rest) (hpoint : StartsOutside (· == '.') rest) :
    n.EndsBefore rest := by
  refine ⟨hdigit, ?_⟩
  rintro - tail rfl
  simp at hpoint

/-- A numeral that ends before a text ends before each shorter part of it. -/
theorem EndsBefore.shorten {n : Numeral} {rest more : List Char} (h : n.EndsBefore rest)
    (hmore : more <+: rest) : n.EndsBefore more := by
  refine ⟨h.digit.shorten hmore, ?_⟩
  rintro hfraction tail rfl
  obtain ⟨after, rfl⟩ := hmore
  exact (h.point hfraction (tail ++ after) rfl).shorten (List.prefix_append tail after)

/-- A separator does not lengthen a numeral. -/
theorem EndsBefore.append {n : Numeral} {rest more : List Char} (h : n.EndsBefore rest)
    (hmore : StartsSeparated more) : n.EndsBefore (rest ++ more) := by
  have hdigit := hmore.startsOutside fun _ hc => not_isDecimalDigit_of_isSeparator hc
  refine ⟨h.digit.append hdigit, ?_⟩
  intro hfraction tail htail
  cases rest with
  | nil =>
    obtain rfl : more = '.' :: tail := htail
    exact absurd (hmore '.' rfl) (by decide)
  | cons c rest =>
    obtain ⟨rfl, rfl⟩ : c = '.' ∧ rest ++ more = tail := by simpa using htail
    exact (h.point hfraction rest rfl).append hdigit

theorem text_of_fraction_eq_nil {n : Numeral} (h : n.fraction = []) : n.text = n.whole := by
  simp [text, h]

theorem text_of_fraction_ne_nil {n : Numeral} (h : n.fraction ≠ []) :
    n.text = n.whole ++ '.' :: n.fraction := by
  simp [text, h]

theorem exists_text_eq_cons {n : Numeral} (hn : n.Valid) :
    ∃ c tail, n.text = c :: tail ∧ isDecimalDigit c = true := by
  obtain ⟨c, tail, hwhole⟩ := List.exists_cons_of_ne_nil hn.whole_ne_nil
  have hc := hn.whole_digits c (by simp [hwhole])
  by_cases hfraction : n.fraction = []
  · exact ⟨c, tail, by rw [text_of_fraction_eq_nil hfraction, hwhole], hc⟩
  · exact ⟨c, tail ++ '.' :: n.fraction,
      by rw [text_of_fraction_ne_nil hfraction, hwhole, List.cons_append], hc⟩

theorem of_mem_text {n : Numeral} (hn : n.Valid) {c : Char} (h : c ∈ n.text) :
    isDecimalDigit c = true ∨ c = '.' := by
  by_cases hfraction : n.fraction = []
  · rw [text_of_fraction_eq_nil hfraction] at h
    exact .inl (hn.whole_digits c h)
  · rw [text_of_fraction_ne_nil hfraction, List.mem_append, List.mem_cons] at h
    rcases h with h | rfl | h
    · exact .inl (hn.whole_digits c h)
    · exact .inr rfl
    · exact .inl (hn.fraction_digits c h)

theorem not_isSeparator_of_mem_text {n : Numeral} (hn : n.Valid) {c : Char} (h : c ∈ n.text) :
    isSeparator c = false := by
  rcases of_mem_text hn h with hdigit | rfl
  · exact not_isSeparator_of_isDecimalDigit hdigit
  · decide

theorem read?_whole {whole rest : List Char} (hne : whole ≠ [])
    (hdigits : ∀ c ∈ whole, isDecimalDigit c = true) (hrest : EndsBefore ⟨whole, []⟩ rest) :
    read? (whole ++ rest) = some (⟨whole, []⟩, rest) := by
  unfold read?
  rw [takeWhile_append_of_startsOutside hdigits hrest.digit,
    dropWhile_append_of_startsOutside hdigits hrest.digit]
  dsimp only
  rw [if_neg (by simpa using hne)]
  split
  · rename_i tail
    have htail := hrest.point rfl tail rfl
    have hfraction : tail.takeWhile isDecimalDigit = [] :=
      takeWhile_append_of_startsOutside (a := []) (by simp) htail
    rw [if_pos (by simp [hfraction])]
  · rfl

theorem read?_fraction {whole fraction rest : List Char} (hne : whole ≠ []) (hf : fraction ≠ [])
    (hdigits : ∀ c ∈ whole, isDecimalDigit c = true)
    (hfraction : ∀ c ∈ fraction, isDecimalDigit c = true)
    (hrest : StartsOutside isDecimalDigit rest) :
    read? (whole ++ '.' :: (fraction ++ rest)) = some (⟨whole, fraction⟩, rest) := by
  have hpoint : StartsOutside isDecimalDigit ('.' :: (fraction ++ rest)) :=
    startsOutside_cons.mpr not_isDecimalDigit_point
  unfold read?
  rw [takeWhile_append_of_startsOutside hdigits hpoint,
    dropWhile_append_of_startsOutside hdigits hpoint]
  dsimp only
  rw [if_neg (by simpa using hne)]
  split
  · rename_i tail htail
    obtain rfl : fraction ++ rest = tail := by simpa using htail
    rw [takeWhile_append_of_startsOutside hfraction hrest,
      dropWhile_append_of_startsOutside hfraction hrest, if_neg (by simpa using hf)]
  · rename_i hno
    exact absurd rfl (hno _)

/-- A numeral that the text after it does not lengthen is read whole. -/
theorem read?_text_append {n : Numeral} {rest : List Char} (hn : n.Valid)
    (hrest : n.EndsBefore rest) : read? (n.text ++ rest) = some (n, rest) := by
  obtain ⟨whole, fraction⟩ := n
  by_cases hfraction : fraction = []
  · subst hfraction
    simpa [text] using read?_whole hn.whole_ne_nil hn.whole_digits hrest
  · have h := read?_fraction hn.whole_ne_nil hfraction hn.whole_digits hn.fraction_digits
      hrest.digit
    simpa [text, hfraction] using h

/-- What is read is a numeral of the grammar, and the text after it does not lengthen it. -/
theorem of_read? {text rest : List Char} {n : Numeral} (h : read? text = some (n, rest)) :
    n.Valid ∧ n.EndsBefore rest ∧ text = n.text ++ rest := by
  have htext := text_append_rest_of_read? h
  have hdigits (chars : List Char) :
      ∀ c ∈ chars.takeWhile isDecimalDigit, isDecimalDigit c = true :=
    List.all_eq_true.mp List.all_takeWhile
  obtain ⟨hwhole, ⟨rfl, rfl, hpoint⟩ | ⟨tail, hrest, hfraction, rfl, rfl⟩⟩ := read?_cases h
  · refine ⟨⟨hwhole, hdigits text, by simp⟩, ⟨startsOutside_dropWhile _ _, ?_⟩, htext⟩
    -- A point in front of the rest is followed by no digit.
    intro _ tail htail
    have hdrop := List.takeWhile_append_dropWhile (p := isDecimalDigit) (l := tail)
    rw [hpoint tail htail, List.nil_append] at hdrop
    rw [← hdrop]
    exact startsOutside_dropWhile _ _
  · refine ⟨⟨hwhole, hdigits text, hdigits tail⟩, ⟨startsOutside_dropWhile _ _, ?_⟩, htext⟩
    intro hnil
    exact absurd hnil hfraction

/-- A text without a digit in front holds no numeral there. -/
theorem read?_eq_none_iff {text : List Char} :
    read? text = none ↔ StartsOutside isDecimalDigit text := by
  constructor
  · intro h
    cases text with
    | nil => exact startsOutside_nil _
    | cons c tail =>
      rw [startsOutside_cons, Bool.eq_false_iff]
      intro hc
      unfold read? at h
      dsimp only at h
      rw [if_neg (by simp [hc])] at h
      split at h
      · split at h <;> simp at h
      · simp at h
  · intro h
    have hempty : text.takeWhile isDecimalDigit = [] :=
      takeWhile_append_of_startsOutside (a := []) (by simp) h
    simp [read?, hempty]

end LineCalculator.Numeral
