import LineCalculator.Proofs.Text.DigitRuns
import Mathlib.Data.List.Forall2

namespace LineCalculator

/-- The characters are the same, or digits of one value. -/
def SameCharacter (c d : Char) : Prop :=
  c = d ∨ ∃ digit, StandsFor c digit ∧ StandsFor d digit

namespace SameCharacter

variable {c d : Char}

theorem refl (c : Char) : SameCharacter c c :=
  .inl rfl

theorem symm (h : SameCharacter c d) : SameCharacter d c := by
  rcases h with rfl | ⟨digit, hc, hd⟩
  · exact refl c
  · exact .inr ⟨digit, hd, hc⟩

theorem isDecimalDigit_eq (h : SameCharacter c d) : isDecimalDigit c = isDecimalDigit d := by
  rcases h with rfl | ⟨digit, hc, hd⟩
  · rfl
  · rw [(standsFor_iff.mp hc).1, (standsFor_iff.mp hd).1]

theorem digitValue_eq (h : SameCharacter c d) : digitValue c = digitValue d := by
  rcases h with rfl | ⟨digit, hc, hd⟩
  · rfl
  · rw [(standsFor_iff.mp hc).2, (standsFor_iff.mp hd).2]

theorem eq_of_not_isDecimalDigit (h : SameCharacter c d) (hc : isDecimalDigit c = false) :
    c = d := by
  rcases h with rfl | ⟨digit, hdigit, -⟩
  · rfl
  · rw [(standsFor_iff.mp hdigit).1] at hc
    cases hc

/-- A class without digits holds both characters or neither of them. -/
theorem class_eq (h : SameCharacter c d) {p : Char → Bool}
    (hp : ∀ c, isDecimalDigit c = true → p c = false) : p c = p d := by
  rcases h with rfl | ⟨digit, hc, hd⟩
  · rfl
  · rw [hp c (standsFor_iff.mp hc).1, hp d (standsFor_iff.mp hd).1]

theorem isSeparator_eq (h : SameCharacter c d) : isSeparator c = isSeparator d :=
  h.class_eq fun _ hc => not_isSeparator_of_isDecimalDigit hc

/-- Characters that are no digits are kept. -/
theorem forall₂_eq {text text' : List Char} (h : List.Forall₂ SameCharacter text text')
    (htext : ∀ c ∈ text, isDecimalDigit c = false) : text = text' := by
  induction h with
  | nil => rfl
  | cons hchar hrest ih =>
    obtain ⟨hc, hlater⟩ := List.forall_mem_cons.mp htext
    rw [hchar.eq_of_not_isDecimalDigit hc, ih hlater]

theorem forall₂_digits {text text' : List Char} (h : List.Forall₂ SameCharacter text text')
    (htext : ∀ c ∈ text, isDecimalDigit c = true) :
    (∀ c ∈ text', isDecimalDigit c = true) ∧ text.map digitValue = text'.map digitValue := by
  induction h with
  | nil => simp
  | cons hchar hrest ih =>
    obtain ⟨hc, hlater⟩ := List.forall_mem_cons.mp htext
    obtain ⟨hdigits, hvalues⟩ := ih hlater
    rw [hchar.isDecimalDigit_eq] at hc
    refine ⟨List.forall_mem_cons.mpr ⟨hc, hdigits⟩, ?_⟩
    rw [List.map_cons, List.map_cons, hchar.digitValue_eq, hvalues]

end SameCharacter

/-- The second text is the first one with other digits of the same values and with other separators
where there are some. -/
inductive Respelled : List Char → List Char → Prop where
  | nil : Respelled [] []
  | char {c d : Char} {a b : List Char} (hchar : SameCharacter c d) (hrest : Respelled a b) :
    Respelled (c :: a) (d :: b)
  -- Runs next to each other are one run, so a run may also be replaced piece by piece.
  | gap {gap gap' a b : List Char} (hgap : Gap gap) (hgap' : Gap gap') (hne : gap ≠ [])
    (hne' : gap' ≠ []) (hrest : Respelled a b) : Respelled (gap ++ a) (gap' ++ b)

namespace Respelled

variable {a b front rest gap : List Char} {c : Char}

theorem symm (h : Respelled a b) : Respelled b a := by
  induction h with
  | nil => exact .nil
  | char hchar hrest ih => exact .char hchar.symm ih
  | gap hgap hgap' hne hne' hrest ih => exact .gap hgap' hgap hne' hne ih

theorem cons_inv (h : Respelled (c :: a) b) (hc : isSeparator c = false) :
    ∃ d b', b = d :: b' ∧ SameCharacter c d ∧ Respelled a b' := by
  generalize hwhole : c :: a = whole at h
  cases h with
  | nil => cases hwhole
  | @char _ d a' b' hchar hrest =>
    obtain ⟨rfl, rfl⟩ := List.cons.inj hwhole
    exact ⟨d, b', rfl, hchar, hrest⟩
  -- A replaced run would begin with a separator.
  | @gap gap _ _ _ hgap hgap' hne hne' hrest =>
    obtain ⟨e, tail, rfl⟩ := List.exists_cons_of_ne_nil hne
    obtain ⟨rfl, -⟩ := List.cons.inj hwhole
    rw [hgap c List.mem_cons_self] at hc
    cases hc

/-- A part without separators is replaced character by character. -/
theorem append_inv (h : Respelled (front ++ rest) b) (hfront : ∀ c ∈ front, isSeparator c = false) :
    ∃ front' rest', b = front' ++ rest' ∧ List.Forall₂ SameCharacter front front' ∧
      Respelled rest rest' := by
  induction front generalizing b with
  | nil => exact ⟨[], b, rfl, .nil, h⟩
  | cons c front ih =>
    obtain ⟨hc, hlater⟩ := List.forall_mem_cons.mp hfront
    obtain ⟨d, b', rfl, hchar, hmore⟩ := h.cons_inv hc
    obtain ⟨front', rest', rfl, hsame, hrest⟩ := ih hmore hlater
    exact ⟨d :: front', rest', rfl, .cons hchar hsame, hrest⟩

/-- A gap is replaced by a gap, which is empty only where the first one is. -/
theorem gap_append_inv (h : Respelled (gap ++ a) b) (hgap : Gap gap)
    (hout : StartsOutside isSeparator a) :
    ∃ gap' b', b = gap' ++ b' ∧ Gap gap' ∧ (gap = [] ↔ gap' = []) ∧ Respelled a b' := by
  generalize hwhole : gap ++ a = whole at h
  -- The replacement need not stop where the gap does, so the gap shrinks with each of its steps.
  induction h generalizing gap with
  | nil =>
    obtain ⟨rfl, rfl⟩ := List.append_eq_nil_iff.mp hwhole
    exact ⟨[], [], rfl, gap_nil, Iff.rfl, .nil⟩
  | @char c d a' b' hchar hrest ih =>
    cases gap with
    | nil =>
      obtain rfl : a = c :: a' := hwhole
      exact ⟨[], d :: b', rfl, gap_nil, Iff.rfl, .char hchar hrest⟩
    | cons e gap =>
      obtain ⟨rfl, htail⟩ := List.cons.inj hwhole
      obtain ⟨he, hlater⟩ := List.forall_mem_cons.mp hgap
      obtain ⟨gap', b'', rfl, hgap', -, hmore⟩ := ih hlater htail
      rw [hchar.isSeparator_eq] at he
      exact ⟨d :: gap', b'', rfl, List.forall_mem_cons.mpr ⟨he, hgap'⟩, by simp, hmore⟩
  | @gap gap₀ gap₀' a' b' hgap₀ hgap₀' hne hne' hrest ih =>
    -- The replaced run lies inside the gap, since the text after the gap starts with no separator.
    obtain ⟨inner, rfl, rfl⟩ : ∃ inner, gap = gap₀ ++ inner ∧ a' = inner ++ a := by
      rcases List.append_eq_append_iff.mp hwhole with ⟨inner, rfl, rfl⟩ | ⟨inner, rfl, rfl⟩
      · obtain rfl : inner = [] := (gap_append_iff.mp hgap₀).2.eq_nil_of_startsOutside hout
        exact ⟨[], by simp, rfl⟩
      · exact ⟨inner, rfl, rfl⟩
    obtain ⟨gap', b'', rfl, hgap', -, hmore⟩ := ih (gap_append_iff.mp hgap).2 rfl
    exact ⟨gap₀' ++ gap', b'', by simp, hgap₀'.append hgap', by simp [hne, hne'], hmore⟩

theorem nil_inv (h : Respelled [] b) : b = [] := by
  generalize hwhole : [] = whole at h
  cases h with
  | nil => rfl
  | char hchar hrest => cases hwhole
  | gap hgap hgap' hne hne' hrest => exact absurd (List.append_eq_nil_iff.mp hwhole.symm).1 hne

theorem gap_inv (h : Respelled a b) (ha : Gap a) : Gap b ∧ (a = [] ↔ b = []) := by
  rw [← List.append_nil a] at h
  obtain ⟨gap', b', rfl, hgap', hnil, hrest⟩ := h.gap_append_inv ha (startsOutside_nil _)
  obtain rfl := hrest.nil_inv
  rw [List.append_nil]
  exact ⟨hgap', hnil⟩

/-- Both texts begin in the same class of characters, if it holds no separators. -/
theorem startsOutside (h : Respelled a b) {p : Char → Bool}
    (hp : ∀ c d, SameCharacter c d → p c = p d)
    (hseparator : ∀ c, isSeparator c = true → p c = false) (ha : StartsOutside p a) : StartsOutside p b := by
  cases h with
  | nil => exact ha
  | char hchar hrest =>
    rw [startsOutside_cons] at ha ⊢
    rw [← hp _ _ hchar]
    exact ha
  | @gap _ gap' _ _ _ hgap' _ hne' _ =>
    obtain ⟨d, tail, rfl⟩ := List.exists_cons_of_ne_nil hne'
    exact startsOutside_cons.mpr (hseparator d (hgap' d List.mem_cons_self))

end Respelled

end LineCalculator
