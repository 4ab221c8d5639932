import LineCalculator.Text.Bytes
import LineCalculator.Text.Separator
import LineCalculator.Token.Lexeme

namespace LineCalculator.TokenStream

/-- The tokens of a text that starts at byte `offset`. A failure is told by the byte where the last
good token ends, not counting the separators after it. -/
def scanFrom (offset : Nat) (text : List Char) : Except Nat TokenStream :=
  let start := offset + byteLength (text.takeWhile isSeparator)
  match _ : text.dropWhile isSeparator with
  | [] => .ok ⟨[], ⟨start, start⟩⟩
  | c :: rest =>
    match _ : Lexeme.read? (c :: rest) with
    -- The separators just skipped do not count.
    | none => .error offset
    | some lexeme =>
      let stop := start + byteLength lexeme.text
      (scanFrom stop lexeme.rest).map (cons ⟨lexeme.kind, ⟨start, stop⟩⟩)
termination_by text.length
decreasing_by
  have hlt := Lexeme.length_rest_lt ‹Lexeme.read? _ = some _›
  have hsub : (text.dropWhile isSeparator).Sublist text := List.dropWhile_sublist isSeparator
  have hle := hsub.length_le
  rw [‹text.dropWhile isSeparator = _›] at hle
  omega

def scan (text : List Char) : Except Nat TokenStream :=
  scanFrom 0 text

end LineCalculator.TokenStream
