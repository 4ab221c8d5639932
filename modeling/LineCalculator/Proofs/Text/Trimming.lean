import LineCalculator.Proofs.Text.Classes

namespace LineCalculator

variable {text before core after : List Char}

/-- A trimmed text lies between two gaps. -/
theorem exists_trimSeparators (text : List Char) : ∃ before after,
    text = before ++ (trimSeparators text ++ after) ∧ Gap before ∧ Gap after := by
  let inner := (text.dropWhile isSeparator).reverse
  refine ⟨text.takeWhile isSeparator, (inner.takeWhile isSeparator).reverse, ?_,
    gap_takeWhile text, ?_⟩
  · have hinner : trimSeparators text ++ (inner.takeWhile isSeparator).reverse =
        text.dropWhile isSeparator := by
      rw [trimSeparators, ← List.reverse_append, List.takeWhile_append_dropWhile,
        List.reverse_reverse]
    rw [hinner, List.takeWhile_append_dropWhile]
  · exact (gap_takeWhile inner).reverse

theorem trimSeparators_eq_nil_iff : trimSeparators text = [] ↔ Gap text := by
  constructor
  · intro h
    obtain ⟨before, after, htext, hbefore, hafter⟩ := exists_trimSeparators text
    rw [h] at htext
    rw [htext]
    exact hbefore.append hafter
  · intro h
    have hnil : text.dropWhile isSeparator = [] := List.dropWhile_eq_nil_iff.mpr h
    rw [trimSeparators, hnil]
    rfl

/-- Trimming takes off the gaps around a text that has no separator at its ends. -/
theorem trimSeparators_append (hbefore : Gap before)
    (hafter : Gap after) (hne : core ≠ []) (hfirst : StartsOutside isSeparator core)
    (hlast : StartsOutside isSeparator core.reverse) :
    trimSeparators (before ++ (core ++ after)) = core := by
  have hstart : StartsOutside isSeparator (core ++ after) := by
    obtain ⟨c, rest, rfl⟩ := List.exists_cons_of_ne_nil hne
    exact startsOutside_cons.mpr (startsOutside_cons.mp hfirst)
  rw [trimSeparators, dropWhile_append_of_startsOutside hbefore hstart, List.reverse_append,
    dropWhile_append_of_startsOutside hafter.reverse hlast, List.reverse_reverse]

end LineCalculator
