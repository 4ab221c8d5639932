import LineCalculator.Highlight
import LineCalculator.Proofs.Token.Layout

namespace LineCalculator

theorem Role.colour_injective : Function.Injective Role.colour := by
  intro a b h
  cases a <;> cases b <;> simp [Role.colour] at h ⊢

theorem Role.colour_gap_iff (role : Role) : role.colour = "White" ↔ role = .gap :=
  Role.colour_injective.eq_iff (b := .gap)

def gapPart (gap : List Char) : List Part :=
  if gap = [] then [] else [⟨.gap, String.ofList gap⟩]

def Piece.parts (piece : Piece) : List Part :=
  gapPart piece.gap ++ [⟨Highlight.roleOf piece.kind, String.ofList piece.text⟩]

namespace Highlight

theorem part?_append (a b c : List Char) (role : Role) :
    part? (a ++ b ++ c) role ⟨byteLength a, byteLength a + byteLength b⟩ =
      some ⟨role, String.ofList b⟩ := by
  rw [part?, sliceBytes?_append]
  rfl

theorem map_gap (a b c : List Char) :
    (gap (byteLength a) (byteLength a + byteLength b)).map
      (fun entry => part? (a ++ b ++ c) entry.1 entry.2) = (gapPart b).map some := by
  unfold gap gapPart
  by_cases h : b = []
  · simp [h]
  · have hpos := byteLength_pos h
    rw [if_pos (by omega), if_neg h]
    simp only [List.map_cons, List.map_nil, part?_append]

/-- Every span cuts a part out of a text, and together these are the parts of its layout, wherever
in the line it stands. -/
theorem map_spans {text last : List Char} {pieces : List Piece}
    (h : Layout text pieces last) (front : List Char) :
    (spans (byteLength (front ++ text)) (byteLength front)
      (TokenStream.tokensFrom (byteLength front) pieces)).map
        (fun entry => part? (front ++ text) entry.1 entry.2) =
      (pieces.flatMap Piece.parts ++ gapPart last).map some := by
  -- Each step moves its gap and its lexeme to the front, so spans keep their place in the line.
  induction h generalizing front with
  | @done text hgap =>
    have hparts := map_gap front text []
    rw [List.append_nil, ← byteLength_append] at hparts
    exact hparts
  | @piece gap' last lexeme pieces hgap hlexeme hrest ih =>
    have hgap := map_gap front gap' (lexeme.text ++ lexeme.rest)
    have hlexeme := part?_append (front ++ gap') lexeme.text lexeme.rest (roleOf lexeme.kind)
    have hrest := ih (front ++ gap' ++ lexeme.text)
    rw [List.map_append] at hrest
    simp only [byteLength_append, List.append_assoc, Nat.add_assoc] at hgap hlexeme hrest
    simp only [TokenStream.tokensFrom, spans, List.map_append, List.flatMap_cons, Piece.parts,
      byteLength_append, List.append_assoc, Nat.add_assoc, List.map_cons, hgap, hlexeme, hrest,
      List.cons_append, List.nil_append]

section Parts

variable {line : String}

theorem parts_of_command {command : Command}
    (h : Command.ofText? (trimSeparators line.toList) = some command) :
    parts line = [⟨.command, line⟩] := by
  simp [parts, h]

theorem parts_of_unreadable {offset : Nat}
    (h : Command.ofText? (trimSeparators line.toList) = none)
    (hscan : TokenStream.scan line.toList = .error offset) : parts line = [⟨.invalid, line⟩] := by
  simp [parts, h, hscan]

theorem parts_of_layout {last : List Char} {pieces : List Piece}
    (h : Command.ofText? (trimSeparators line.toList) = none)
    (hlayout : Layout line.toList pieces last) :
    parts line = pieces.flatMap Piece.parts ++ gapPart last := by
  have hscan : TokenStream.scan line.toList = _ := TokenStream.scanFrom_of_layout hlayout 0
  have hmap := congrArg (List.filterMap id) (map_spans hlayout [])
  simp only [List.filterMap_map] at hmap
  simp only [parts, h, Option.isSome_none, Bool.false_eq_true, if_false, hscan]
  exact hmap.trans List.filterMap_some

end Parts

section Roles

variable {text last : List Char} {pieces : List Piece} {role : Role}

section Filter

variable (shown : Role → Bool)

theorem filter_gapPart (h : shown .gap = false) (gap : List Char) :
    (gapPart gap).filter (fun part => shown part.role) = [] := by
  unfold gapPart
  split <;> simp [h]

/-- The parts of some roles, none of which is that of gaps, are the lexemes of these roles. -/
theorem filter_parts (h : shown .gap = false) (pieces : List Piece) (last : List Char) :
    (pieces.flatMap Piece.parts ++ gapPart last).filter (fun part => shown part.role) =
      (pieces.filter fun piece => shown (roleOf piece.kind)).map
        fun piece => ⟨roleOf piece.kind, String.ofList piece.text⟩ := by
  rw [List.filter_append, filter_gapPart shown h, List.append_nil]
  induction pieces with
  | nil => rfl
  | cons piece rest ih =>
    rw [List.flatMap_cons, List.filter_append, ih, Piece.parts, List.filter_append,
      filter_gapPart shown h, List.nil_append]
    by_cases hrole : shown (roleOf piece.kind) = true
    · simp [hrole]
    · simp [hrole]

end Filter

theorem roleOf_longest {lexeme : Lexeme} (h : lexeme.Longest) :
    roleOf lexeme.kind = .number ∨ roleOf lexeme.kind = .operator := by
  cases h with
  | operator operator rest hrest => exact .inr rfl
  | number n rest hn hrest => exact .inl rfl

theorem roleOf_layout (h : Layout text pieces last) :
    ∀ piece ∈ pieces, roleOf piece.kind = .number ∨ roleOf piece.kind = .operator := by
  induction h with
  | done hgap => simp
  | piece hgap hlexeme hrest ih => exact List.forall_mem_cons.mpr ⟨roleOf_longest hlexeme, ih⟩

theorem filter_parts_eq_nil (h : Layout text pieces last)
    (hrole : role = .command ∨ role = .invalid) :
    (pieces.flatMap Piece.parts ++ gapPart last).filter (fun part => part.role == role) = [] := by
  have hgap : (Role.gap == role) = false := by rcases hrole with rfl | rfl <;> rfl
  rw [filter_parts (· == role) hgap, List.map_eq_nil_iff, List.filter_eq_nil_iff]
  intro piece hpiece
  rcases roleOf_layout h piece hpiece with hkind | hkind <;> rcases hrole with rfl | rfl <;>
    simp [hkind]

theorem forall_gap_iff (h : Layout text pieces last) :
    (∀ part ∈ pieces.flatMap Piece.parts ++ gapPart last, part.role = .gap) ↔ pieces = [] := by
  constructor
  · intro hall
    -- Every lexeme has a part of its own, which is no gap.
    by_contra hne
    obtain ⟨piece, rest, rfl⟩ := List.exists_cons_of_ne_nil hne
    have hgap := hall ⟨roleOf piece.kind, String.ofList piece.text⟩ (by simp [Piece.parts])
    rcases roleOf_layout h piece (by simp) with hkind | hkind <;> simp [hkind] at hgap
  · rintro rfl part hpart
    unfold gapPart at hpart
    split at hpart <;> simp at hpart
    rw [hpart]

end Roles

end Highlight

/-- A line is a command, cannot be read, or is shown as it is laid out. -/
theorem parts_cases (line : String) :
    (Command.ofText? (trimSeparators line.toList) ≠ none ∧
      Highlight.parts line = [⟨.command, line⟩]) ∨
    (Command.ofText? (trimSeparators line.toList) = none ∧
      (∃ offset, TokenStream.scan line.toList = .error offset) ∧
      Highlight.parts line = [⟨.invalid, line⟩]) ∨
    (Command.ofText? (trimSeparators line.toList) = none ∧
      ∃ pieces last, Layout line.toList pieces last ∧
        Highlight.parts line = pieces.flatMap Piece.parts ++ gapPart last) := by
  cases hcommand : Command.ofText? (trimSeparators line.toList) with
  | some command => exact .inl ⟨by simp, Highlight.parts_of_command hcommand⟩
  | none =>
    cases hscan : TokenStream.scan line.toList with
    | error offset =>
      exact .inr (.inl ⟨rfl, ⟨offset, rfl⟩, Highlight.parts_of_unreadable hcommand hscan⟩)
    | ok stream =>
      obtain ⟨pieces, last, hlayout⟩ := TokenStream.exists_layout hscan
      exact .inr (.inr ⟨rfl, pieces, last, hlayout, Highlight.parts_of_layout hcommand hlayout⟩)

end LineCalculator
