import LineCalculator.Proofs.Token.Scanning

/-!
The progress of a scan, token by token. What has been read at some moment is read in the same way
from the text cut off there, so every scan is made of scans that succeed on a shorter text.
-/
namespace LineCalculator.TokenStream

/-- These tokens are taken one after the other off a text that starts at byte `offset`. The scan is
then at byte `stop`, before the rest of the text. -/
inductive Reads : Nat → List Char → List Token → Nat → List Char → Prop where
  | done (offset : Nat) (text : List Char) : Reads offset text [] offset text
  | token {offset stop : Nat} {gap rest : List Char} {lexeme : Lexeme} {tokens : List Token}
    (hgap : Gap gap) (hlexeme : lexeme.Longest)
    (hrest :
      Reads (offset + byteLength gap + byteLength lexeme.text) lexeme.rest tokens stop rest) :
    Reads offset (gap ++ (lexeme.text ++ lexeme.rest))
      (tokenAt (offset + byteLength gap) lexeme :: tokens) stop rest

/-- Behind its separators the text goes on, but not with a lexeme. -/
def Unreadable (text : List Char) : Prop :=
  text.dropWhile isSeparator ≠ [] ∧ ¬ Lexeme.Begins (text.dropWhile isSeparator)

theorem scanFrom_of_unreadable {text : List Char} (offset : Nat) (h : Unreadable text) :
    scanFrom offset text = .error offset := by
  obtain ⟨hne, hbegins⟩ := h
  have hgap := gap_takeWhile text
  have hsplit : text.takeWhile isSeparator ++ text.dropWhile isSeparator = text :=
    List.takeWhile_append_dropWhile
  have hout := startsOutside_dropWhile isSeparator text
  obtain ⟨c, tail, hrest⟩ := List.exists_cons_of_ne_nil hne
  rw [hrest] at hsplit hout hbegins
  rw [← hsplit]
  exact scanFrom_unreadable offset hgap (startsOutside_cons.mp hout)
    (Lexeme.read?_eq_none_iff.mpr hbegins)

section Progress

variable {offset stop : Nat} {text rest : List Char} {tokens : List Token} {endSpan : Span}

/-- After some tokens the scan goes on as a scan of the rest. -/
theorem Reads.scanFrom_eq (h : Reads offset text tokens stop rest) : scanFrom offset text =
    (scanFrom stop rest).map fun stream => ⟨tokens ++ stream.body, stream.endSpan⟩ := by
  induction h with
  | done offset text => cases scanFrom offset text <;> rfl
  | token hgap hlexeme hrest ih =>
    rw [scanFrom_gap_append _ hgap (Lexeme.read?_append hlexeme), ih]
    cases scanFrom _ _ <;> rfl

/-- Every scan takes tokens off until only separators or no lexeme is left. -/
theorem exists_reads (offset : Nat) (text : List Char) : ∃ tokens stop rest,
    Reads offset text tokens stop rest ∧ (Gap rest ∨ Unreadable rest) := by
  -- The induction is on the length of the text, which each lexeme shortens.
  induction hlength : text.length using Nat.strongRecOn generalizing offset text with
  | ind length ih =>
    rcases gap_cases text with hgap | ⟨gap, tail, lexeme, rfl, hgap, hread⟩ |
      ⟨gap, c, tail, rfl, hgap, hc, hread⟩
    · exact ⟨[], offset, text, .done offset text, .inl hgap⟩
    · have hlt := Lexeme.length_rest_lt hread
      obtain ⟨hlongest, rfl⟩ := Lexeme.read?_eq_some_iff.mp hread
      obtain ⟨tokens, stop, rest, hreads, hend⟩ := ih lexeme.rest.length
        (by rw [← hlength, List.length_append]; omega)
        (offset + byteLength gap + byteLength lexeme.text) lexeme.rest rfl
      exact ⟨_, stop, rest, .token hgap hlongest hreads, hend⟩
    · have hdrop :=
        dropWhile_append_of_startsOutside hgap (startsOutside_cons.mpr hc) (b := c :: tail)
      refine ⟨[], offset, _, .done offset _, .inr ?_⟩
      rw [Unreadable, hdrop]
      exact ⟨by simp, Lexeme.read?_eq_none_iff.mp hread⟩

/-- A scan succeeds when its tokens leave separators only. -/
theorem scanFrom_eq_ok_iff : scanFrom offset text = .ok ⟨tokens, endSpan⟩ ↔
    ∃ stop rest, Reads offset text tokens stop rest ∧ Gap rest ∧
      endSpan = ⟨stop + byteLength rest, stop + byteLength rest⟩ := by
  constructor
  · intro h
    obtain ⟨tokens', stop, rest, hreads, hend⟩ := exists_reads offset text
    rw [hreads.scanFrom_eq] at h
    rcases hend with hgap | hunreadable
    · rw [scanFrom_gap stop hgap] at h
      obtain ⟨rfl, rfl⟩ : tokens' = tokens ∧ _ = endSpan := by simpa [Except.map] using h
      exact ⟨stop, rest, hreads, hgap, rfl⟩
    · rw [scanFrom_of_unreadable stop hunreadable] at h
      simp [Except.map] at h
  · intro h
    obtain ⟨stop, rest, hreads, hgap, rfl⟩ := h
    rw [hreads.scanFrom_eq, scanFrom_gap stop hgap]
    simp [Except.map]

/-- A scan fails at the byte where its tokens leave a text that goes on with no lexeme. -/
theorem scanFrom_eq_error_iff : scanFrom offset text = .error stop ↔
    ∃ tokens rest, Reads offset text tokens stop rest ∧ Unreadable rest := by
  constructor
  · intro h
    obtain ⟨tokens, stop', rest, hreads, hend⟩ := exists_reads offset text
    rw [hreads.scanFrom_eq] at h
    rcases hend with hgap | hunreadable
    · rw [scanFrom_gap stop' hgap] at h
      simp [Except.map] at h
    · rw [scanFrom_of_unreadable stop' hunreadable] at h
      obtain rfl : stop' = stop := by simpa [Except.map] using h
      exact ⟨tokens, rest, hreads, hunreadable⟩
  · intro h
    obtain ⟨tokens, rest, hreads, hunreadable⟩ := h
    rw [hreads.scanFrom_eq, scanFrom_of_unreadable stop hunreadable]
    rfl

/-- The characters that some tokens were read from give the same tokens whatever part of the rest
is still there. -/
theorem Reads.exists_front (h : Reads offset text tokens stop rest) : ∃ front,
    text = front ++ rest ∧ stop = offset + byteLength front ∧
      ∀ more, more <+: rest → Reads offset (front ++ more) tokens stop more := by
  induction h with
  | done offset text => exact ⟨[], rfl, rfl, fun more _ => .done offset more⟩
  | @token offset stop gap rest lexeme tokens hgap hlexeme hrest ih =>
    obtain ⟨front, htext, rfl, hfront⟩ := ih
    refine ⟨gap ++ (lexeme.text ++ front), by simp [htext], ?_, ?_⟩
    · simp only [byteLength_append]
      omega
    · intro more hmore
      have hcut : front ++ more <+: lexeme.rest := by
        rw [htext]
        exact (List.prefix_append_right_inj front).mpr hmore
      -- The lexeme is read again, since the text after it has only become shorter.
      have hreads := Reads.token hgap (hlexeme.shorten hcut) (hfront more hmore)
      simpa [tokenAt] using hreads

/-- Tokens are read by reading the first of them and then the others. -/
theorem Reads.exists_middle {first second : List Token}
    (h : Reads offset text (first ++ second) stop rest) : ∃ middle inner,
      Reads offset text first middle inner ∧ Reads middle inner second stop rest := by
  induction first generalizing offset text with
  | nil => exact ⟨offset, text, .done offset text, h⟩
  | cons token first ih =>
    rw [List.cons_append] at h
    cases h with
    | token hgap hlexeme hrest =>
      obtain ⟨middle, inner, hfirst, hsecond⟩ := ih hrest
      exact ⟨middle, inner, .token hgap hlexeme hfirst, hsecond⟩

/-- The text in front of a token is scanned into the tokens before it. -/
theorem exists_scanFrom_front {stream : TokenStream} {before after : List Token} {token : Token}
    (hscan : scanFrom offset text = .ok stream)
    (htokens : stream.toList = before ++ token :: after) :
    ∃ front rest, text = front ++ rest ∧ token.span.start = offset + byteLength front ∧
      scanFrom offset front = .ok ⟨before, ⟨token.span.start, token.span.start⟩⟩ := by
  obtain ⟨body, endSpan⟩ := stream
  obtain ⟨stop, rest, hreads, hgap, rfl⟩ := scanFrom_eq_ok_iff.mp hscan
  rw [toList] at htokens
  rcases List.eq_nil_or_concat after with rfl | ⟨after, last, rfl⟩
  -- The token is the end of input, and the whole text is in front of it.
  · obtain ⟨rfl, hlast⟩ := List.append_inj' htokens rfl
    obtain rfl : _ = token := by simpa using hlast
    obtain ⟨front, rfl, rfl, -⟩ := hreads.exists_front
    refine ⟨front ++ rest, [], by simp, ?_, hscan⟩
    rw [byteLength_append]
    exact Nat.add_assoc _ _ _
  · have hbody : body = before ++ token :: after := by
      have hlist : before ++ token :: after.concat last = (before ++ token :: after) ++ [last] := by
        simp
      exact (List.append_inj' (htokens.trans hlist) rfl).1
    rw [hbody] at hreads
    obtain ⟨middle, inner, hbefore, hafter⟩ := hreads.exists_middle
    obtain ⟨front, rfl, rfl, hfront⟩ := hbefore.exists_front
    cases hafter with
    | @token _ _ gap _ lexeme _ hgap' hlexeme hrest =>
      refine ⟨front ++ gap, lexeme.text ++ lexeme.rest, by simp, ?_, ?_⟩
      · rw [byteLength_append]
        exact Nat.add_assoc _ _ _
      · exact scanFrom_eq_ok_iff.mpr
          ⟨_, gap, hfront gap (List.prefix_append _ _), hgap', rfl⟩

end Progress

end LineCalculator.TokenStream
