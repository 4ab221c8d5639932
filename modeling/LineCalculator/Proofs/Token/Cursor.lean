import LineCalculator.Proofs.Token.Scanning

/-!
The scanner with a cursor. It holds nothing but a byte position in the source, cuts the source there
for every token, and checks at the end that it has reached the last byte. No cut falls inside a
character or beyond the source, the check never fails, and the tokens are those of the scanner that
takes characters off a text.
-/
namespace LineCalculator.TokenStream

/-- What stands at the start of a text: the end of input or a lexeme after some bytes of separators,
or a character that no lexeme starts with. -/
inductive Finding where
  | endOfInput (skipped : Nat)
  | lexeme (skipped size : Nat) (kind : TokenKind)
  | unreadable
  deriving DecidableEq, Repr

/-- The finding at the start of a text. There is none where the text would be cut wrongly or its
first character looked up behind its end. -/
def find? (text : List Char) : Option Finding :=
  let skipped := byteLength (text.takeWhile isSeparator)
  if skipped = byteLength text then some (.endOfInput skipped)
  else match dropBytes? text skipped with
  | none | some [] => none
  | some (c :: rest) =>
    match Lexeme.read? (c :: rest) with
    | none => some .unreadable
    | some lexeme => some (.lexeme skipped (byteLength lexeme.text) lexeme.kind)

theorem pos_of_find? {text : List Char} {skipped size : Nat} {kind : TokenKind}
    (h : find? text = some (.lexeme skipped size kind)) : 0 < size ∧ skipped < byteLength text := by
  unfold find? at h
  dsimp only at h
  split at h
  · simp at h
  split at h
  · simp at h
  · simp at h
  · rename_i c rest hrest
    split at h
    · simp at h
    · rename_i lexeme hread
      obtain ⟨rfl, rfl, -⟩ : _ = skipped ∧ _ = size ∧ lexeme.kind = kind := by simpa using h
      have hsize := byteLength_of_dropBytes? hrest
      have hpos := c.utf8Size_pos
      obtain ⟨d, tail, htext⟩ := List.exists_cons_of_ne_nil (Lexeme.text_ne_nil hread)
      have hpos' := d.utf8Size_pos
      rw [byteLength_cons] at hsize
      rw [htext, byteLength_cons]
      omega

/-- The tokens of the source from the cursor on. There is no result where the source is cut wrongly
or the cursor misses its end. -/
def scanAt? (source : List Char) (cursor : Nat) : Option (Except Nat TokenStream) :=
  match _ : (dropBytes? source cursor).bind find? with
  | none => none
  | some (.endOfInput skipped) =>
    let stop := cursor + skipped
    if stop = byteLength source then some (.ok ⟨[], ⟨stop, stop⟩⟩) else none
  | some .unreadable => some (.error cursor)
  | some (.lexeme skipped size kind) =>
    let start := cursor + skipped
    let stop := start + size
    (scanAt? source stop).map fun result => result.map (cons ⟨kind, ⟨start, stop⟩⟩)
termination_by byteLength source - cursor
decreasing_by
  obtain ⟨text, htext, hfind⟩ := Option.bind_eq_some_iff.mp ‹_ = some (Finding.lexeme _ _ _)›
  have hsize := byteLength_of_dropBytes? htext
  have hpos := pos_of_find? hfind
  omega

section Findings

variable {gap text : List Char}

theorem find?_gap (hgap : Gap gap) : find? gap = some (.endOfInput (byteLength gap)) := by
  have htake : gap.takeWhile isSeparator = gap := by
    simpa using takeWhile_append_of_startsOutside hgap (startsOutside_nil isSeparator)
  simp [find?, htake]

theorem find?_gap_append {c : Char} {tail : List Char} (hgap : Gap gap)
    (hc : isSeparator c = false) : find? (gap ++ c :: tail) =
      match Lexeme.read? (c :: tail) with
      | none => some .unreadable
      | some lexeme => some (.lexeme (byteLength gap) (byteLength lexeme.text) lexeme.kind) := by
  have htake := takeWhile_append_of_startsOutside hgap (startsOutside_cons.mpr hc) (b := c :: tail)
  have hpos := c.utf8Size_pos
  have hne : byteLength gap ≠ byteLength (gap ++ c :: tail) := by
    rw [byteLength_append, byteLength_cons]
    omega
  unfold find?
  simp only [htake, if_neg hne, dropBytes?_byteLength]

theorem find?_of_read? {lexeme : Lexeme} (hgap : Gap gap)
    (hread : Lexeme.read? text = some lexeme) : find? (gap ++ text) =
      some (.lexeme (byteLength gap) (byteLength lexeme.text) lexeme.kind) := by
  have hout := Lexeme.startsOutside_isSeparator_of_read? hread
  obtain ⟨c, tail, rfl⟩ : ∃ c tail, text = c :: tail := by
    obtain ⟨c, tail, hlexeme⟩ := List.exists_cons_of_ne_nil (Lexeme.text_ne_nil hread)
    exact ⟨c, tail ++ lexeme.rest, by rw [Lexeme.text_append_rest hread, hlexeme]; rfl⟩
  rw [find?_gap_append hgap (startsOutside_cons.mp hout), hread]

end Findings

section Cursor

variable {source text : List Char} {cursor : Nat}

theorem scanAt?_of_endOfInput {skipped : Nat} (htext : dropBytes? source cursor = some text)
    (hfind : find? text = some (.endOfInput skipped))
    (hend : cursor + skipped = byteLength source) :
    scanAt? source cursor = some (.ok ⟨[], ⟨cursor + skipped, cursor + skipped⟩⟩) := by
  have hbind : (dropBytes? source cursor).bind find? = some (.endOfInput skipped) := by
    rw [htext, Option.bind_some, hfind]
  rw [scanAt?]
  split <;> simp_all

theorem scanAt?_of_unreadable (htext : dropBytes? source cursor = some text)
    (hfind : find? text = some .unreadable) : scanAt? source cursor = some (.error cursor) := by
  have hbind : (dropBytes? source cursor).bind find? = some .unreadable := by
    rw [htext, Option.bind_some, hfind]
  rw [scanAt?]
  split <;> simp_all

theorem scanAt?_of_lexeme {skipped size : Nat} {kind : TokenKind}
    (htext : dropBytes? source cursor = some text)
    (hfind : find? text = some (.lexeme skipped size kind)) : scanAt? source cursor =
      (scanAt? source (cursor + skipped + size)).map fun result =>
        result.map (cons ⟨kind, ⟨cursor + skipped, cursor + skipped + size⟩⟩) := by
  have hbind : (dropBytes? source cursor).bind find? = some (.lexeme skipped size kind) := by
    rw [htext, Option.bind_some, hfind]
  rw [scanAt?]
  split <;> simp_all

end Cursor

/-- A cursor at the end of some front part scans the text after it, and every cut on the way is
between two characters. -/
theorem scanAt?_byteLength (front text : List Char) :
    scanAt? (front ++ text) (byteLength front) = some (scanFrom (byteLength front) text) := by
  -- The induction is on the length of the text, which each lexeme shortens.
  induction hlength : text.length using Nat.strongRecOn generalizing front text with
  | ind length ih =>
    have hdrop := dropBytes?_byteLength front text
    rcases gap_cases text with hgap | ⟨gap, tail, lexeme, rfl, hgap, hread⟩ |
      ⟨gap, c, tail, rfl, hgap, hc, hread⟩
    · have hend : byteLength front + byteLength text = byteLength (front ++ text) :=
        (byteLength_append front text).symm
      rw [scanAt?_of_endOfInput hdrop (find?_gap hgap) hend, scanFrom_gap _ hgap]
    · have hlt := Lexeme.length_rest_lt hread
      have hrest := ih lexeme.rest.length (by rw [← hlength, List.length_append]; omega)
        (front ++ gap ++ lexeme.text) lexeme.rest rfl
      have hsource : front ++ (gap ++ tail) = front ++ gap ++ lexeme.text ++ lexeme.rest := by
        rw [Lexeme.text_append_rest hread]
        simp only [List.append_assoc]
      rw [byteLength_append, byteLength_append, ← hsource] at hrest
      rw [scanAt?_of_lexeme hdrop (find?_of_read? hgap hread), scanFrom_gap_append _ hgap hread,
        hrest]
      rfl
    · have hfind : find? (gap ++ c :: tail) = some .unreadable := by
        rw [find?_gap_append hgap hc, hread]
      rw [scanAt?_of_unreadable hdrop hfind, scanFrom_unreadable _ hgap hc hread]

/-- The scan of a source with a cursor always has a result, and it is that of the scanner. -/
theorem scanAt?_zero (source : List Char) : scanAt? source 0 = some (scan source) :=
  scanAt?_byteLength [] source

end LineCalculator.TokenStream
