import LineCalculator.Proofs.Token.Lexemes
import LineCalculator.Token.Scan

namespace LineCalculator.TokenStream

def tokenAt (start : Nat) (lexeme : Lexeme) : Token :=
  ⟨lexeme.kind, ⟨start, start + byteLength lexeme.text⟩⟩

section Steps

variable {gap text : List Char} (offset : Nat)

/-- Separators alone give no token, and the stream ends after them. -/
theorem scanFrom_gap (hgap : Gap gap) : scanFrom offset gap =
    .ok ⟨[], ⟨offset + byteLength gap, offset + byteLength gap⟩⟩ := by
  have htake : gap.takeWhile isSeparator = gap := by
    simpa using takeWhile_append_of_startsOutside hgap (startsOutside_nil isSeparator)
  have hdrop : gap.dropWhile isSeparator = [] := by
    simpa using dropWhile_append_of_startsOutside hgap (startsOutside_nil isSeparator)
  unfold scanFrom
  split
  · rw [htake]
  · rename_i c rest hcons
    simp [hdrop] at hcons

/-- A lexeme after a gap gives a token, and scanning goes on where the lexeme ends. -/
theorem scanFrom_gap_append {lexeme : Lexeme} (hgap : Gap gap)
    (hread : Lexeme.read? text = some lexeme) : scanFrom offset (gap ++ text) =
    (scanFrom (offset + byteLength gap + byteLength lexeme.text) lexeme.rest).map
      (cons (tokenAt (offset + byteLength gap) lexeme)) := by
  have hout := Lexeme.startsOutside_isSeparator_of_read? hread
  have htake := takeWhile_append_of_startsOutside hgap hout
  have hdrop := dropWhile_append_of_startsOutside hgap hout
  rw [scanFrom]
  split
  -- No lexeme is read from an empty text.
  · rename_i hnil
    rw [hdrop] at hnil
    subst hnil
    simp [Lexeme.read?, Lexeme.readOperator?, Lexeme.readNumber?, Numeral.read?] at hread
  · rename_i c rest hcons
    rw [hdrop] at hcons
    subst hcons
    split
    · rename_i hnone
      simp [hread] at hnone
    · rename_i lexeme' hsome
      obtain rfl : lexeme = lexeme' := by simpa [hread] using hsome
      simp only [htake, tokenAt]

/-- Where no lexeme starts after a gap, scanning fails before the gap. -/
theorem scanFrom_unreadable {c : Char} {tail : List Char} (hgap : Gap gap)
    (hc : isSeparator c = false) (hread : Lexeme.read? (c :: tail) = none) :
    scanFrom offset (gap ++ c :: tail) = .error offset := by
  have hdrop := dropWhile_append_of_startsOutside hgap (startsOutside_cons.mpr hc) (b := c :: tail)
  rw [scanFrom]
  split
  · rename_i hnil
    simp [hdrop] at hnil
  · rename_i c' rest hcons
    obtain ⟨rfl, rfl⟩ : c = c' ∧ tail = rest := by simpa [hdrop] using hcons
    split
    · rfl
    · rename_i hsome
      simp [hread] at hsome

end Steps

/-- Every text is in one of the three forms that the scanner tells apart. -/
theorem gap_cases (text : List Char) : Gap text ∨
    (∃ gap rest lexeme, text = gap ++ rest ∧ Gap gap ∧ Lexeme.read? rest = some lexeme) ∨
    ∃ gap c tail, text = gap ++ c :: tail ∧ Gap gap ∧ isSeparator c = false ∧
      Lexeme.read? (c :: tail) = none := by
  have hgap := gap_takeWhile text
  have hsplit : text = text.takeWhile isSeparator ++ text.dropWhile isSeparator :=
    List.takeWhile_append_dropWhile.symm
  have hout := startsOutside_dropWhile isSeparator text
  cases hrest : text.dropWhile isSeparator with
  | nil =>
    rw [hrest, List.append_nil] at hsplit
    exact .inl (hsplit ▸ hgap)
  | cons c tail =>
    rw [hrest] at hsplit hout
    cases hread : Lexeme.read? (c :: tail) with
    | none => exact .inr (.inr ⟨_, c, tail, hsplit, hgap, startsOutside_cons.mp hout, hread⟩)
    | some lexeme => exact .inr (.inl ⟨_, _, lexeme, hsplit, hgap, hread⟩)

theorem scanFrom_eq_nil_iff {offset : Nat} {text : List Char} {endSpan : Span} :
    scanFrom offset text = .ok ⟨[], endSpan⟩ ↔
      Gap text ∧ endSpan = ⟨offset + byteLength text, offset + byteLength text⟩ := by
  rcases gap_cases text with hgap | ⟨gap, rest, lexeme, rfl, hgap, hread⟩ |
    ⟨gap, c, tail, rfl, hgap, hc, hread⟩
  · rw [scanFrom_gap offset hgap]
    simp [hgap, eq_comm]
  -- A lexeme starts with no separator, so a text that holds one is no gap.
  · have hnot : ¬ Gap (gap ++ rest) := by
      intro hall
      obtain ⟨hlongest, rfl⟩ := Lexeme.read?_eq_some_iff.mp hread
      have hout := Lexeme.startsOutside_isSeparator_of_read? hread
      obtain ⟨c, tail, htext⟩ := List.exists_cons_of_ne_nil (Lexeme.text_ne_nil hread)
      rw [htext, List.cons_append, startsOutside_cons] at hout
      simp [hall c (by simp [htext])] at hout
    rw [scanFrom_gap_append offset hgap hread]
    cases scanFrom (offset + byteLength gap + byteLength lexeme.text) lexeme.rest <;>
      simp [Except.map, cons, hnot]
  · have hnot : ¬ Gap (gap ++ c :: tail) := by
      intro hall
      simp [hall c (by simp)] at hc
    rw [scanFrom_unreadable offset hgap hc hread]
    simp [hnot]

/-- The first token stands for a lexeme after a gap, and the others for the text after it. -/
theorem scanFrom_eq_cons_iff {offset : Nat} {text : List Char} {token : Token} {body : List Token}
    {endSpan : Span} : scanFrom offset text = .ok ⟨token :: body, endSpan⟩ ↔
      ∃ gap lexeme, text = gap ++ (lexeme.text ++ lexeme.rest) ∧ Gap gap ∧ lexeme.Longest ∧
        token = tokenAt (offset + byteLength gap) lexeme ∧
        scanFrom (offset + byteLength gap + byteLength lexeme.text) lexeme.rest =
          .ok ⟨body, endSpan⟩ := by
  constructor
  · intro h
    rcases gap_cases text with hgap | ⟨gap, rest, lexeme, rfl, hgap, hread⟩ |
      ⟨gap, c, tail, rfl, hgap, hc, hread⟩
    · rw [scanFrom_gap offset hgap] at h
      simp at h
    · obtain ⟨hlongest, rfl⟩ := Lexeme.read?_eq_some_iff.mp hread
      rw [scanFrom_gap_append offset hgap hread] at h
      refine ⟨gap, lexeme, rfl, hgap, hlongest, ?_⟩
      cases hrest : scanFrom (offset + byteLength gap + byteLength lexeme.text) lexeme.rest with
      | error _ => simp [hrest, Except.map] at h
      | ok stream =>
        obtain ⟨tokens, span⟩ := stream
        simp only [hrest, Except.map, cons, Except.ok.injEq, mk.injEq, List.cons.injEq] at h
        obtain ⟨⟨rfl, rfl⟩, rfl⟩ := h
        exact ⟨rfl, rfl⟩
    · rw [scanFrom_unreadable offset hgap hc hread] at h
      simp at h
  · intro h
    obtain ⟨gap, lexeme, rfl, hgap, hlongest, rfl, hrest⟩ := h
    rw [scanFrom_gap_append offset hgap (Lexeme.read?_append hlongest), hrest]
    rfl

end LineCalculator.TokenStream
