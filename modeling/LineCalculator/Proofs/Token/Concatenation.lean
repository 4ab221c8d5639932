import LineCalculator.Proofs.Expression.Evaluation
import LineCalculator.Proofs.Token.Progress

namespace LineCalculator

def Span.shift (count : Nat) (span : Span) : Span :=
  ⟨span.start + count, span.stop + count⟩

def Token.shift (count : Nat) (token : Token) : Token :=
  ⟨token.kind, token.span.shift count⟩

def Operator.single : Operator → Operator
  | .power => .multiply
  | .floorDivide => .divide
  | operator => operator

theorem Operator.exists_symbol_eq_cons (operator : Operator) : ∃ c rest,
    operator.symbol.toList = c :: rest ∧ operator.single.symbol.toList = [c] := by
  cases operator <;> simp [symbol, single]

/-- The first character alone tells whether a text begins with a lexeme. -/
theorem Lexeme.begins_cons_iff {c : Char} {tail : List Char} : Begins (c :: tail) ↔
    isDecimalDigit c = true ∨ ∃ operator : Operator, operator.symbol.toList = [c] := by
  constructor
  · rintro (⟨operator, hstarts⟩ | ⟨n, hn, hstarts⟩)
    · right
      obtain ⟨d, rest, hsymbol, hsingle⟩ := operator.exists_symbol_eq_cons
      rw [hsymbol, List.cons_prefix_cons] at hstarts
      exact ⟨operator.single, by rw [hsingle, hstarts.1]⟩
    · left
      obtain ⟨d, rest, htext, hd⟩ := n.exists_text_eq_cons hn
      rw [htext, List.cons_prefix_cons] at hstarts
      rw [← hstarts.1]
      exact hd
  · rintro (hdigit | ⟨operator, hsymbol⟩)
    · right
      exact ⟨⟨[c], []⟩, ⟨by simp, by simpa using hdigit, by simp⟩, tail, rfl⟩
    · left
      exact ⟨operator, tail, by rw [hsymbol]; rfl⟩

namespace TokenStream

/-- The byte where the last token before the end of input stops. -/
def lastStop (stream : TokenStream) : Nat :=
  (stream.body.getLast?.map fun token => token.span.stop).getD 0

section Reads

variable {offset stop stop' : Nat} {text rest rest' gap more : List Char}
  {tokens tokens' : List Token}

theorem Reads.trans (h : Reads offset text tokens stop rest)
    (h' : Reads stop rest tokens' stop' rest') :
    Reads offset text (tokens ++ tokens') stop' rest' := by
  induction h with
  | done offset text => exact h'
  | token hgap hlexeme hrest ih => exact .token hgap hlexeme (ih h')

/-- Bytes in front of a text move all its tokens. -/
theorem Reads.shift (h : Reads offset text tokens stop rest) (count : Nat) :
    Reads (offset + count) text (tokens.map (Token.shift count)) (stop + count) rest := by
  induction h with
  | done offset text => exact .done (offset + count) text
  | @token offset stop gap rest lexeme tokens hgap hlexeme hrest ih =>
    -- The bytes in front are counted first in the one text and last in the other.
    have hstart : offset + byteLength gap + count = offset + count + byteLength gap := by omega
    have hstop : offset + byteLength gap + byteLength lexeme.text + count =
        offset + count + byteLength gap + byteLength lexeme.text := by omega
    rw [hstop] at ih
    have hreads := Reads.token hgap hlexeme ih
    simpa [tokenAt, Token.shift, Span.shift, hstart, hstop] using hreads

/-- The same tokens are read where the text goes on after a separator. -/
theorem Reads.append (h : Reads offset text tokens stop rest) (hmore : StartsSeparated more) :
    Reads offset (text ++ more) tokens stop (rest ++ more) := by
  induction h with
  | done offset text => exact .done offset (text ++ more)
  | token hgap hlexeme hrest ih =>
    have hreads := Reads.token hgap (hlexeme.append hmore) ih
    simpa [tokenAt] using hreads

/-- Separators in front of a text belong to the gap before its first token. -/
theorem Reads.gap_append (h : Reads (offset + byteLength gap) text tokens stop rest)
    (hgap : Gap gap) (hne : tokens ≠ []) : Reads offset (gap ++ text) tokens stop rest := by
  cases h with
  | done _ _ => exact absurd rfl hne
  | @token _ _ gap' _ lexeme _ hgap' hlexeme hrest =>
    have hlength : offset + byteLength gap + byteLength gap' = offset + byteLength (gap ++ gap') := by
      rw [byteLength_append, Nat.add_assoc]
    rw [hlength] at hrest ⊢
    rw [← List.append_assoc]
    exact .token (hgap.append hgap') hlexeme hrest

theorem Reads.stop_eq (h : Reads offset text tokens stop rest) :
    stop = (tokens.getLast?.map fun token => token.span.stop).getD offset := by
  induction h with
  | done offset text => rfl
  | @token offset stop gap rest lexeme tokens hgap hlexeme hrest ih =>
    rw [ih, List.getLast?_cons]
    cases tokens.getLast? <;> rfl

theorem Reads.stop_pos (h : Reads offset text tokens stop rest) (hne : tokens ≠ []) :
    0 < stop := by
  cases h with
  | done _ _ => exact absurd rfl hne
  | token hgap hlexeme hrest =>
    obtain ⟨front, -, rfl, -⟩ := hrest.exists_front
    have hpos := byteLength_pos hlexeme.text_ne_nil
    omega

theorem Unreadable.append (h : Unreadable text) (more : List Char) :
    Unreadable (text ++ more) := by
  obtain ⟨hne, hbegins⟩ := h
  -- What follows cannot make a lexeme of a text whose first character starts none.
  obtain ⟨c, tail, hdrop⟩ := List.exists_cons_of_ne_nil hne
  have hmore : (text ++ more).dropWhile isSeparator = c :: (tail ++ more) := by
    simp [List.dropWhile_append, hdrop]
  rw [hdrop, Lexeme.begins_cons_iff] at hbegins
  rw [Unreadable, hmore, Lexeme.begins_cons_iff]
  exact ⟨by simp, hbegins⟩

theorem Unreadable.gap_append (h : Unreadable text) (hgap : Gap gap) :
    Unreadable (gap ++ text) := by
  obtain ⟨hne, hbegins⟩ := h
  have hdrop : (gap ++ text).dropWhile isSeparator = text.dropWhile isSeparator :=
    List.dropWhile_append_of_pos hgap
  rw [Unreadable, hdrop]
  exact ⟨hne, hbegins⟩

end Reads

section Scan

variable {a b gap : List Char} {left : TokenStream} {offset : Nat}

/-- A text that fails goes on failing at the same byte, whatever follows a separator after it. -/
theorem scan_append_of_error (h : scan a = .error offset) {more : List Char}
    (hmore : StartsSeparated more) : scan (a ++ more) = .error offset := by
  obtain ⟨tokens, rest, hreads, hunreadable⟩ := scanFrom_eq_error_iff.mp h
  exact scanFrom_eq_error_iff.mpr ⟨tokens, _, hreads.append hmore, hunreadable.append more⟩

/-- Behind a readable text and some separators a second text is read as if it stood alone, but
further on. If it fails before its first token, the last good token is in the first text. -/
theorem scan_append_gap_append (h : scan a = .ok left) (hgap : Gap gap) (hne : gap ≠ []) :
    scan (a ++ (gap ++ b)) = match scan b with
      | .ok right => .ok ⟨left.body ++ right.body.map (Token.shift (byteLength (a ++ gap))),
          right.endSpan.shift (byteLength (a ++ gap))⟩
      | .error offset =>
        .error (if offset = 0 then left.lastStop else offset + byteLength (a ++ gap)) := by
  obtain ⟨first, endSpan⟩ := left
  obtain ⟨stop, rest, hfirst, hrest, -⟩ := scanFrom_eq_ok_iff.mp h
  obtain ⟨tokens, stop', rest', hsecond, hend⟩ := exists_reads 0 b
  have hmore := hgap.startsSeparated_append hne b
  have hbetween : Gap (rest ++ gap) := hrest.append hgap
  have hfront : Reads 0 (a ++ (gap ++ b)) first stop (rest ++ gap ++ b) := by
    rw [List.append_assoc rest]
    exact hfirst.append hmore
  have hlength : byteLength (a ++ gap) = stop + byteLength (rest ++ gap) := by
    obtain ⟨front, rfl, rfl, -⟩ := hfirst.exists_front
    simp only [byteLength_append]
    omega
  by_cases hnil : tokens = []
  -- No token of the second text is read, so the scan ends where it ends on the first one.
  · subst hnil
    cases hsecond
    rcases hend with hgap' | hunreadable
    · rw [scan, scan, scanFrom_gap 0 hgap']
      apply scanFrom_eq_ok_iff.mpr
      refine ⟨stop, _, by simpa using hfront, hbetween.append hgap', ?_⟩
      rw [hlength, byteLength_append (rest ++ gap)]
      simp only [Span.shift, Span.mk.injEq]
      omega
    · rw [scan, scan, scanFrom_of_unreadable 0 hunreadable]
      dsimp only
      rw [if_pos rfl]
      have hstop : stop = lastStop ⟨first, endSpan⟩ := hfirst.stop_eq
      rw [← hstop]
      exact scanFrom_eq_error_iff.mpr ⟨first, _, hfront, hunreadable.gap_append hbetween⟩
  -- The first token of the second text takes the gaps before it along.
  · have hmoved := hsecond.shift (byteLength (a ++ gap))
    rw [Nat.zero_add] at hmoved
    rw [hlength] at hmoved
    have hboth := hfront.trans (hmoved.gap_append hbetween (by simpa using hnil))
    have hpos := hsecond.stop_pos hnil
    rw [← hlength] at hboth
    rcases hend with hgap' | hunreadable
    · have hscan : scan b = .ok _ := scanFrom_eq_ok_iff.mpr ⟨stop', rest', hsecond, hgap', rfl⟩
      rw [hscan]
      apply scanFrom_eq_ok_iff.mpr
      refine ⟨_, rest', hboth, hgap', ?_⟩
      simp only [Span.shift, Span.mk.injEq]
      omega
    · have hscan : scan b = .error stop' :=
        scanFrom_eq_error_iff.mpr ⟨tokens, rest', hsecond, hunreadable⟩
      rw [hscan]
      dsimp only
      rw [if_neg (by omega)]
      exact scanFrom_eq_error_iff.mpr ⟨_, rest', hboth, hunreadable⟩

end Scan

end TokenStream

/-- What becomes of a text's tokens, and the records afterwards. -/
def tokenized (source : String) (records : List LogRecord) :
    Except Error TokenStream × List LogRecord :=
  (tokenize source).run.run records

section Tokenized

open TokenStream

variable {source : String} {records : List LogRecord}

theorem tokenized_eq (source : String) (records : List LogRecord) :
    tokenized source records = match scan source.toList with
      | .ok stream => (.ok stream, records)
      | .error offset => (.error .malformedExpression, records ++ [.unreadable offset]) :=
  tokenize_run source records

theorem tokenized_ok_iff {stream : TokenStream} :
    (tokenized source records).1 = .ok stream ↔ scan source.toList = .ok stream :=
  tokenize_eq_ok_iff

/-- A failure leaves one record, which tells the offset. -/
theorem tokenized_error_iff {error : Error} {log : List LogRecord} :
    tokenized source records = (.error error, log) ↔ error = .malformedExpression ∧
      ∃ offset, scan source.toList = .error offset ∧ log = records ++ [.unreadable offset] := by
  rw [tokenized_eq]
  cases scan source.toList with
  | ok stream => simp
  | error offset => simp [eq_comm]

end Tokenized

open TokenStream

/-- Separators between two texts part their tokens. The whole can be read exactly when both parts
can, and then it has the tokens of both, the second ones further on. A failure in the first part is
that of the whole. A failure in the second part is found further on, once a token of this part has
been read. -/
theorem tokenize_append_gap_append (a b : String) {gap : String} (hgap : Gap gap.toList)
    (hne : gap ≠ "") (records : List LogRecord) :
    let whole := tokenized (a ++ gap ++ b) records
    ((∃ stream, whole.1 = .ok stream) ↔
      (∃ left, (tokenized a records).1 = .ok left) ∧
        ∃ right, (tokenized b records).1 = .ok right) ∧
    (∀ left right, (tokenized a records).1 = .ok left → (tokenized b records).1 = .ok right →
      ∃ stream, whole.1 = .ok stream ∧ stream.toList = left.toList.dropLast ++
        right.toList.map (Token.shift (byteLength (a ++ gap).toList))) ∧
    (∀ error log, tokenized a records = (.error error, log) → whole = (.error error, log)) ∧
    ∀ left error offset, (tokenized a records).1 = .ok left →
      tokenized b records = (.error error, records ++ [.unreadable offset]) →
      (∃ tokens rest, tokens ≠ [] ∧ Reads 0 b.toList tokens offset rest) →
      whole = (.error error,
        records ++ [.unreadable (offset + byteLength (a ++ gap).toList)]) := by
  intro whole
  have hgap' : gap.toList ≠ [] := by simpa using hne
  have htext : (a ++ gap ++ b).toList = a.toList ++ (gap.toList ++ b.toList) := by simp
  have hsize : (a ++ gap).toList = a.toList ++ gap.toList := by simp
  simp only [whole, tokenized_ok_iff, tokenized_error_iff, htext, hsize]
  refine ⟨⟨?parts, ?together⟩, ?tokens, ?first, ?second⟩
  case parts =>
    rintro ⟨stream, hwhole⟩
    cases hleft : scan a.toList with
    | error offset =>
      rw [scan_append_of_error hleft (hgap.startsSeparated_append hgap' _)] at hwhole
      cases hwhole
    | ok left =>
      rw [scan_append_gap_append hleft hgap hgap'] at hwhole
      cases hright : scan b.toList with
      | error offset => simp [hright] at hwhole
      | ok right => exact ⟨⟨left, rfl⟩, right, rfl⟩
  case together =>
    rintro ⟨⟨left, hleft⟩, right, hright⟩
    rw [scan_append_gap_append hleft hgap hgap', hright]
    exact ⟨_, rfl⟩
  case tokens =>
    intro left right hleft hright
    rw [scan_append_gap_append hleft hgap hgap', hright]
    refine ⟨_, rfl, ?_⟩
    simp [toList, Token.shift]
  case first =>
    rintro error log ⟨rfl, offset, hleft, rfl⟩
    exact ⟨rfl, offset, scan_append_of_error hleft (hgap.startsSeparated_append hgap' _), rfl⟩
  case second =>
    rintro left error offset hleft ⟨rfl, offset', hright, hlog⟩ ⟨tokens, rest, htokens, hreads⟩
    obtain rfl : offset = offset' := by simpa using hlog
    have hpos := hreads.stop_pos htokens
    rw [scan_append_gap_append hleft hgap hgap', hright]
    dsimp only
    rw [if_neg (by omega)]
    exact ⟨rfl, _, rfl, rfl⟩

/-- A point that ends the first part is not joined with the digit behind the separator, and one
that ends the second part is found seven bytes further on. -/
theorem tokenize_append_ideographic_space :
    Gap "\u3000".toList ∧ "\u3000" ≠ "" ∧
    tokenized ("1." ++ "\u3000" ++ "5") [] = (.error .malformedExpression, [.unreadable 1]) ∧
    tokenized ("2*" ++ "\u3000" ++ "*3.") [] = (.error .malformedExpression, [.unreadable 7]) := by
  have hgap : Gap "\u3000".toList := List.all_eq_true.mp (by decide)
  have hne : "\u3000" ≠ "" := by decide
  obtain ⟨-, -, hfirst, -⟩ := tokenize_append_gap_append "1." "5" hgap hne []
  obtain ⟨-, -, -, hsecond⟩ := tokenize_append_gap_append "2*" "*3." hgap hne []
  refine ⟨hgap, hne, ?_, ?_⟩
  · apply hfirst
    exact tokenized_error_iff.mpr ⟨rfl, 1, by decide +kernel, rfl⟩
  · have hleft : scan "2*".toList = .ok ⟨[⟨.number (Numeral.value ⟨['2'], []⟩), ⟨0, 1⟩⟩,
        ⟨.operator .multiply, ⟨1, 2⟩⟩], ⟨2, 2⟩⟩ := by
      decide +kernel
    have hright : scan "*3.".toList = .error 2 := by decide +kernel
    obtain ⟨tokens, rest, hreads, -⟩ := scanFrom_eq_error_iff.mp hright
    have htokens : tokens ≠ [] := by
      rintro rfl
      cases hreads.stop_eq
    exact hsecond _ _ 2 (tokenized_ok_iff.mpr hleft)
      (tokenized_error_iff.mpr ⟨rfl, 2, hright, rfl⟩) ⟨tokens, rest, htokens, hreads⟩

end LineCalculator
