import LineCalculator.Proofs.Highlight.Parts
import Mathlib.Data.List.Chain
import Mathlib.Data.List.Forall2

namespace LineCalculator

/-- The part shows the token: it has the text under its span and the colour of its kind, and this
text alone is read as one token of that kind. -/
structure Part.Shows (line : List Char) (token : Token) (part : Part) : Prop where
  slice : sliceBytes? line token.span.start token.span.stop = some part.text.toList
  colour : (∃ value, token.kind = .number value) ∧ part.role.colour = "Yellow" ∨
    (∃ operator, token.kind = .operator operator) ∧ part.role.colour = "DarkGray"
  alone : TokenStream.scan part.text.toList =
    .ok ⟨[⟨token.kind, ⟨0, byteLength part.text.toList⟩⟩],
      ⟨byteLength part.text.toList, byteLength part.text.toList⟩⟩

section Gaps

variable {gap : List Char} {part : Part}

theorem flatMap_gapPart (gap : List Char) :
    (gapPart gap).flatMap (fun part => part.text.toList) = gap := by
  unfold gapPart
  split
  · rename_i h
    simp [h]
  · simp

theorem of_mem_gapPart (hpart : part ∈ gapPart gap) :
    part.role = .gap ∧ part.text.toList = gap ∧ gap ≠ [] := by
  unfold gapPart at hpart
  split at hpart
  · simp at hpart
  · rename_i h
    obtain rfl := List.mem_singleton.mp hpart
    exact ⟨rfl, String.toList_ofList, h⟩

end Gaps

namespace Layout

variable {text last : List Char} {pieces : List Piece}

/-- Nothing of the text is lost or repeated. -/
theorem flatMap_parts (h : Layout text pieces last) :
    (pieces.flatMap Piece.parts ++ gapPart last).flatMap (fun part => part.text.toList) = text := by
  induction h with
  | done hgap => exact flatMap_gapPart _
  | piece hgap hlexeme hrest ih =>
    rw [List.flatMap_cons, List.append_assoc, List.flatMap_append, ih, Piece.parts,
      List.flatMap_append, flatMap_gapPart]
    simp

/-- A part is a gap with something in it or a lexeme. -/
theorem of_mem_parts (h : Layout text pieces last) {part : Part}
    (hpart : part ∈ pieces.flatMap Piece.parts ++ gapPart last) :
    (part.role = .gap ∧ Gap part.text.toList ∧ part.text.toList ≠ []) ∨
      ∃ lexeme : Lexeme, lexeme.Longest ∧ part.role = Highlight.roleOf lexeme.kind ∧
        part.text.toList = lexeme.text := by
  induction h with
  | done hgap =>
    obtain ⟨hrole, rfl, hne⟩ := of_mem_gapPart hpart
    exact .inl ⟨hrole, hgap, hne⟩
  | @piece gap last lexeme pieces hgap hlexeme hrest ih =>
    rw [List.flatMap_cons, List.append_assoc, Piece.parts, List.append_assoc] at hpart
    rcases List.mem_append.mp hpart with hpart | hpart
    · obtain ⟨hrole, rfl, hne⟩ := of_mem_gapPart hpart
      exact .inl ⟨hrole, hgap, hne⟩
    · rcases List.mem_cons.mp hpart with rfl | hpart
      · exact .inr ⟨lexeme, hlexeme, rfl, String.toList_ofList⟩
      · exact ih hpart

/-- Between two gaps there is a lexeme. -/
theorem isChain_parts (h : Layout text pieces last) :
    (pieces.flatMap Piece.parts ++ gapPart last).IsChain
      fun a b => ¬ (a.role = .gap ∧ b.role = .gap) := by
  induction h with
  | done hgap =>
    unfold gapPart
    split
    · exact .nil
    · exact .singleton _
  | @piece gap last lexeme pieces hgap hlexeme hrest ih =>
    have hrole : Highlight.roleOf lexeme.kind ≠ .gap := by
      rcases Highlight.roleOf_longest hlexeme with hrole | hrole <;> simp [hrole]
    rw [List.flatMap_cons, List.append_assoc, Piece.parts, List.append_assoc, List.singleton_append]
    generalize pieces.flatMap Piece.parts ++ gapPart last = rest at ih
    have htail : List.IsChain (fun a b : Part => ¬ (a.role = .gap ∧ b.role = .gap))
        (⟨Highlight.roleOf lexeme.kind, String.ofList lexeme.text⟩ :: rest) :=
      List.isChain_cons.mpr ⟨fun next _ hboth => hrole hboth.1, ih⟩
    unfold gapPart
    split
    · exact htail
    · exact .cons_cons (fun hboth => hrole hboth.2) htail

theorem forall₂_shows (h : Layout text pieces last) (front : List Char) :
    List.Forall₂ (Part.Shows (front ++ text)) (TokenStream.tokensFrom (byteLength front) pieces)
      (pieces.map fun piece => ⟨Highlight.roleOf piece.kind, String.ofList piece.text⟩) := by
  induction h generalizing front with
  | done hgap => exact .nil
  | @piece gap last lexeme pieces hgap hlexeme hrest ih =>
    have halone := (Layout.piece hgap hlexeme hrest).scan_alone List.mem_cons_self
    have hslice := sliceBytes?_append (front ++ gap) lexeme.text lexeme.rest
    have hrest := ih (front ++ gap ++ lexeme.text)
    simp only [byteLength_append, List.append_assoc, ← Nat.add_assoc] at hslice hrest
    refine .cons ⟨?_, ?_, ?_⟩ hrest
    · rw [String.toList_ofList]
      exact hslice
    · cases hlexeme with
      | operator operator rest hends => exact .inr ⟨⟨operator, rfl⟩, rfl⟩
      | number n rest hn hends => exact .inl ⟨⟨n.value, rfl⟩, rfl⟩
    · rw [String.toList_ofList]
      exact halone

/-- Every lexeme has the colour of a number or of an operator, and no gap has. -/
theorem filter_tokens (h : Layout text pieces last) :
    (pieces.flatMap Piece.parts ++ gapPart last).filter (fun part =>
        part.role.colour == "Yellow" || part.role.colour == "DarkGray") =
      pieces.map fun piece => ⟨Highlight.roleOf piece.kind, String.ofList piece.text⟩ := by
  rw [Highlight.filter_parts (fun role => role.colour == "Yellow" || role.colour == "DarkGray") rfl]
  congr 1
  apply List.filter_eq_self.mpr
  intro piece hpiece
  rcases Highlight.roleOf_layout h piece hpiece with hrole | hrole <;> rw [hrole] <;> rfl

/-- The separators of the text are what the gaps consist of. -/
theorem isSeparator_iff_of_mem_parts (h : Layout text pieces last) {part : Part}
    (hpart : part ∈ pieces.flatMap Piece.parts ++ gapPart last) {c : Char}
    (hc : c ∈ part.text.toList) : isSeparator c = true ↔ part.role = .gap := by
  rcases h.of_mem_parts hpart with ⟨hrole, hgap, -⟩ | ⟨lexeme, hlexeme, hrole, htext⟩
  · exact iff_of_true (hgap c hc) hrole
  · rw [htext] at hc
    rw [hrole, hlexeme.not_isSeparator c hc]
    rcases Highlight.roleOf_longest hlexeme with hkind | hkind <;> simp [hkind]

theorem text_ne_empty_of_mem_parts (h : Layout text pieces last) {part : Part}
    (hpart : part ∈ pieces.flatMap Piece.parts ++ gapPart last) : part.text ≠ "" := by
  rintro hempty
  have hnil : part.text.toList = [] := by rw [hempty]; rfl
  rcases h.of_mem_parts hpart with ⟨-, -, hne⟩ | ⟨lexeme, hlexeme, -, htext⟩
  · exact hne hnil
  · exact hlexeme.text_ne_nil (htext.symm.trans hnil)

end Layout

theorem parts_empty : Highlight.parts "" = [] := by
  have hlayout : Layout "".toList [] [] := .done gap_nil
  exact Highlight.parts_of_layout (by decide) hlayout

/-- The parts of a line make it up, and none of them is empty. -/
theorem join_parts (line : String) :
    String.join ((Highlight.parts line).map Part.text) = line ∧
      ∀ part ∈ Highlight.parts line, part.text ≠ "" := by
  have hwhole {role : Role} (hparts : Highlight.parts line = [⟨role, line⟩]) :
      String.join ((Highlight.parts line).map Part.text) = line ∧
        ∀ part ∈ Highlight.parts line, part.text ≠ "" := by
    have hne : line ≠ "" := by
      rintro rfl
      rw [parts_empty] at hparts
      cases hparts
    rw [hparts]
    exact ⟨by simp, by simpa using hne⟩
  rcases parts_cases line with ⟨-, hparts⟩ | ⟨-, -, hparts⟩ | ⟨-, pieces, last, hlayout, hparts⟩
  · exact hwhole hparts
  · exact hwhole hparts
  · rw [hparts]
    refine ⟨?_, fun part hpart => hlayout.text_ne_empty_of_mem_parts hpart⟩
    rw [← String.toList_inj, String.toList_join, List.flatMap_map]
    exact hlayout.flatMap_parts

/-- Highlighting never cuts a line wrongly, and its parts make up the line. A command and a line
that cannot be read are one part. Any other line is shown by its tokens in order, one part each,
between which the separators are shown and nothing else. -/
theorem parts_cover_line (line : String) :
    String.join ((Highlight.parts line).map Part.text) = line ∧
    (∀ part ∈ Highlight.parts line, part.text ≠ "") ∧
    (Command.ofText? (trimSeparators line.toList) ≠ none →
      (Highlight.parts line).map (fun part => (part.role.colour, part.text)) =
        [("LightBlue", line)]) ∧
    (Command.ofText? (trimSeparators line.toList) = none →
      (∀ offset, TokenStream.scan line.toList = .error offset →
        (Highlight.parts line).map (fun part => (part.role.colour, part.text)) =
          [("Red", line)]) ∧
      ∀ stream, TokenStream.scan line.toList = .ok stream →
        (Highlight.spans (byteLength line.toList) 0 stream.body).map
            (fun entry => Highlight.part? line.toList entry.1 entry.2) =
          (Highlight.parts line).map some ∧
        List.Forall₂ (Part.Shows line.toList) stream.body
          ((Highlight.parts line).filter fun part =>
            part.role.colour == "Yellow" || part.role.colour == "DarkGray") ∧
        (∀ part ∈ Highlight.parts line, ∀ c ∈ part.text.toList,
          isSeparator c = true ↔ part.role.colour = "White") ∧
        (Highlight.parts line).IsChain fun a b =>
          ¬ (a.role.colour = "White" ∧ b.role.colour = "White")) := by
  obtain ⟨hjoin, hne⟩ := join_parts line
  refine ⟨hjoin, hne, ?command, ?other⟩
  case command =>
    intro hcommand
    obtain ⟨command, hcommand⟩ := Option.ne_none_iff_exists'.mp hcommand
    rw [Highlight.parts_of_command hcommand]
    rfl
  case other =>
    intro hcommand
    refine ⟨?invalid, ?readable⟩
    case invalid =>
      intro offset hscan
      rw [Highlight.parts_of_unreadable hcommand hscan]
      rfl
    case readable =>
      intro stream hscan
      obtain ⟨pieces, last, hlayout, rfl⟩ := TokenStream.exists_layout_of_scan hscan
      rw [Highlight.parts_of_layout hcommand hlayout]
      simp only [Role.colour_gap_iff]
      refine ⟨Highlight.map_spans hlayout [], ?_, ?_, hlayout.isChain_parts⟩
      · rw [hlayout.filter_tokens]
        exact hlayout.forall₂_shows []
      · intro part hpart c hc
        exact hlayout.isSeparator_iff_of_mem_parts hpart hc

end LineCalculator
