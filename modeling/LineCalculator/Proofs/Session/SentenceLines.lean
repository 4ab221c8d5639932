import LineCalculator.Proofs.Session.Replies
import LineCalculator.Proofs.Text.LetterCase
import LineCalculator.Proofs.Text.Trimming

namespace LineCalculator

/-- A text is no command when its lower-case form starts with no command's first letter. -/
theorem Command.ofText?_eq_none {text rest : List Char} {c : Char}
    (h : lowercase text = c :: rest) (hc : c ≠ 'q' ∧ c ≠ 'e' ∧ c ≠ 'h') : ofText? text = none := by
  have hne (word : String) (hword : ∀ d ∈ word.toList.head?, c ≠ d) :
      String.ofList (lowercase text) ≠ word := by
    rintro rfl
    exact hword c (by simp [h]) rfl
  obtain ⟨hq, he, hh⟩ := hc
  have hquit : String.ofList (lowercase text) ∉ quitWords := by
    simp only [quitWords, List.mem_cons, List.not_mem_nil, or_false, not_or]
    exact ⟨hne "q" (by simpa using hq), hne "quit" (by simpa using hq),
      hne "exit" (by simpa using he)⟩
  have hhelp := hne "help" (by simpa using hh)
  simp [ofText?, ofWord?, helpWord, hquit, hhelp]

theorem Numeral.exists_text_eq_append {n : Numeral} (hn : n.Valid) :
    ∃ front c, n.text = front ++ [c] ∧ isDecimalDigit c = true := by
  by_cases hfraction : n.fraction = []
  · refine ⟨n.whole.dropLast, n.whole.getLast hn.whole_ne_nil, ?_, ?_⟩
    · rw [text_of_fraction_eq_nil hfraction, List.dropLast_concat_getLast]
    · exact hn.whole_digits _ (List.getLast_mem _)
  · refine ⟨n.whole ++ '.' :: n.fraction.dropLast, n.fraction.getLast hfraction, ?_, ?_⟩
    · rw [text_of_fraction_ne_nil hfraction, List.append_assoc, List.cons_append,
        List.dropLast_concat_getLast]
    · exact hn.fraction_digits _ (List.getLast_mem _)

theorem Literal.exists_text_eq_append (l : Literal) :
    ∃ front c, l.text = front ++ [c] ∧ isDecimalDigit c = true := by
  obtain ⟨front, c, htext, hc⟩ := Numeral.exists_text_eq_append l.valid
  refine ⟨Binary64.signText l.negative ++ front, c, ?_, hc⟩
  rw [Literal.text_eq_append, htext, List.append_assoc]

namespace Sentence

def trimmed (s : Sentence) : Sentence :=
  { s with before := [], after := [], before_gap := gap_nil, after_gap := gap_nil }

theorem expression_trimmed (s : Sentence) : s.trimmed.expression = s.expression :=
  rfl

theorem text_eq (s : Sentence) : s.text = s.before ++ (s.trimmed.text ++ s.after) := by
  simp [text, trimmed]

/-- A sentence without outer gaps starts with a sign or a digit. -/
theorem exists_text_trimmed_eq_cons (s : Sentence) :
    ∃ c rest, s.trimmed.text = c :: rest ∧ (c = '-' ∨ isDecimalDigit c = true) := by
  obtain ⟨c, tail, htext, hc⟩ := Numeral.exists_text_eq_cons s.left.valid
  have htrimmed : s.trimmed.text = s.left.text ++ _ := rfl
  rw [htrimmed, Literal.text_eq_append, htext]
  cases s.left.negative with
  | false => exact ⟨c, _, rfl, .inr hc⟩
  | true => exact ⟨'-', _, rfl, .inl rfl⟩

theorem exists_text_trimmed_eq_append (s : Sentence) :
    ∃ front c, s.trimmed.text = front ++ [c] ∧ isDecimalDigit c = true := by
  obtain ⟨front, c, hright, hc⟩ := s.right.exists_text_eq_append
  refine ⟨s.left.text ++ (s.beforeOperator ++ (s.operator.symbol.toList ++
    (s.afterOperator ++ front))), c, ?_, hc⟩
  simp [text, trimmed, hright]

theorem trimSeparators_text (s : Sentence) : trimSeparators s.text = s.trimmed.text := by
  obtain ⟨c, rest, hcons, hc⟩ := s.exists_text_trimmed_eq_cons
  obtain ⟨front, d, happend, hd⟩ := s.exists_text_trimmed_eq_append
  have hfirst : isSeparator c = false := by
    rcases hc with rfl | hc
    · decide
    · exact not_isSeparator_of_isDecimalDigit hc
  rw [text_eq]
  apply trimSeparators_append s.before_gap s.after_gap
  · simp [hcons]
  · rw [hcons]
    exact startsOutside_cons.mpr hfirst
  · rw [happend, List.reverse_append]
    exact startsOutside_cons.mpr (not_isSeparator_of_isDecimalDigit hd)

/-- A sentence is no command. -/
theorem ofText?_trimmed (s : Sentence) : Command.ofText? s.trimmed.text = none := by
  obtain ⟨c, rest, htext, hc⟩ := s.exists_text_trimmed_eq_cons
  have hlower : lowerChar c = [c] := by
    rcases hc with rfl | hc
    · decide
    · exact lowerChar_of_isDecimalDigit hc
  have hword : lowercase s.trimmed.text = c :: lowercase rest := by
    rw [htext, lowercase, List.flatMap_cons, hlower]
    rfl
  apply Command.ofText?_eq_none hword
  -- None of the three letters is a sign or a digit.
  refine ⟨?_, ?_, ?_⟩ <;> rintro rfl <;> revert hc <;> decide

/-- A line that holds a sentence is answered by the outcome of the sentence. -/
theorem reply_eq {line : String} (s : Sentence) (hs : s.text = line.toList) :
    reply line = (.proceed, outcomeReply s.expression.value) := by
  have htrim : trimSeparators line.toList = s.trimmed.text := by
    rw [← hs, trimSeparators_text]
  have hne : s.trimmed.text ≠ [] := by
    obtain ⟨c, rest, hcons, -⟩ := s.exists_text_trimmed_eq_cons
    simp [hcons]
  have hdenotes : Denotes (String.ofList s.trimmed.text) s.expression := by
    rw [denotes_iff_sentence]
    exact ⟨s.trimmed, (String.toList_ofList).symm, s.expression_trimmed⟩
  rw [← htrim] at hne hdenotes
  rw [reply_of_expression hne (htrim ▸ s.ofText?_trimmed), outcome_of_denotes hdenotes]

end Sentence

/-- A text stands for what is left of it between the gaps at its ends. -/
theorem denotes_trimSeparators_iff {line : String} {e : Expression} :
    Denotes (String.ofList (trimSeparators line.toList)) e ↔ Denotes line e := by
  rw [denotes_iff_sentence, denotes_iff_sentence, String.toList_ofList]
  constructor
  -- The outer gaps of a sentence may be as wide as one likes.
  · rintro ⟨s, hs, rfl⟩
    obtain ⟨before, after, htext, hbefore, hafter⟩ := exists_trimSeparators line.toList
    refine ⟨{ s with
      before := before ++ s.before
      after := s.after ++ after
      before_gap := hbefore.append s.before_gap
      after_gap := s.after_gap.append hafter }, ?_, rfl⟩
    rw [htext, ← hs]
    simp [Sentence.text]
  · rintro ⟨s, hs, rfl⟩
    exact ⟨s.trimmed, by rw [← hs, s.trimSeparators_text], s.expression_trimmed⟩

/-- Evaluation does not see the separators at the ends of a text. -/
theorem outcome_trimSeparators (line : String) :
    outcome (String.ofList (trimSeparators line.toList)) = outcome line := by
  rcases denotes_or_malformed line with ⟨e, he⟩ | hmalformed
  · rw [outcome_of_denotes he, outcome_of_denotes (denotes_trimSeparators_iff.mpr he)]
  · rw [hmalformed]
    apply (denotes_or_malformed _).resolve_left
    rintro ⟨e, he⟩
    rw [outcome_of_denotes (denotes_trimSeparators_iff.mp he)] at hmalformed
    exact e.value_ne_malformed hmalformed

end LineCalculator
