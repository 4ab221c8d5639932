import LineCalculator.Proofs.Decimal.Shortest
import LineCalculator.Proofs.Expression.Sentences

namespace LineCalculator

def Literal.ofFinite (negative : Bool) (rank : Nat) : Literal :=
  ⟨negative, (Decimal.shortest rank).numeral, Decimal.numeral_valid _⟩

theorem Binary64.toList_render_finite (magnitude : Nat → List Char) (negative : Bool)
    (rank : Fin finiteCount) :
    (render magnitude (.finite negative rank)).toList = signText negative ++ magnitude rank := by
  simp [render]

theorem Literal.text_ofFinite (negative : Bool) (rank : Fin Binary64.finiteCount) :
    (ofFinite negative rank).text = (Binary64.finite negative rank).plainText.toList := by
  rw [text_eq_append, Binary64.plainText, Binary64.toList_render_finite, ← Decimal.numeral_text]
  rfl

/-- The numeral of a decimal, with or without a sign, has the value nearest to the decimal. -/
theorem Literal.value_numeral (negative : Bool) (d : Decimal) :
    value ⟨negative, d.numeral, d.numeral_valid⟩ = .ofRank negative d.nearestRank :=
  value_eq_ofRank _ d.numeral_value

/-- A printed value is read back with its sign and all its bits. -/
theorem Literal.value_ofFinite (negative : Bool) (rank : Fin Binary64.finiteCount) :
    (ofFinite negative rank).value = .finite negative rank := by
  rw [ofFinite, value_numeral, Decimal.nearestRank_shortest, Binary64.ofRank, dif_pos rank.isLt]

namespace Sentence

def spaced (left : Literal) (operator : Operator) (right : Literal) : Sentence where
  before := []
  left := left
  beforeOperator := [' ']
  operator := operator
  afterOperator := [' ']
  right := right
  after := []
  before_gap := gap_nil
  beforeOperator_gap := by simp [Gap, isSeparator]
  afterOperator_gap := by simp [Gap, isSeparator]
  after_gap := gap_nil

theorem text_spaced {left right : Literal} {operator : Operator} {l r : String}
    (hl : left.text = l.toList) (hr : right.text = r.toList) :
    (spaced left operator right).text = (l ++ " " ++ operator.symbol ++ " " ++ r).toList := by
  simp [text, spaced, hl, hr]

/-- Two literals around an operator stand for the operation on their values. -/
theorem denotes_spaced {left right : Literal} {operator : Operator} {l r : String}
    (hl : left.text = l.toList) (hr : right.text = r.toList) :
    Denotes (l ++ " " ++ operator.symbol ++ " " ++ r) ⟨left.value, operator, right.value⟩ := by
  rw [denotes_iff_sentence]
  exact ⟨.spaced left operator right, text_spaced hl hr, rfl⟩

/-- A sentence is made of separators, digits and symbols that stand before the digits. -/
theorem of_mem_text (s : Sentence) {c : Char} (h : c ∈ s.text) :
    isSeparator c = true ∨ isDecimalDigit c = true ∨ c.toNat < 0x30 := by
  have hnumeral (n : Numeral) (hn : n.Valid) (hc : c ∈ n.text) :
      isDecimalDigit c = true ∨ c.toNat < 0x30 := by
    rcases Numeral.of_mem_text hn hc with hdigit | rfl
    · exact .inl hdigit
    · exact .inr (by decide)
  have hliteral (l : Literal) (hc : c ∈ l.text) : isDecimalDigit c = true ∨ c.toNat < 0x30 := by
    obtain ⟨negative, n, hn⟩ := l
    cases negative with
    | false => exact hnumeral n hn (by simpa using hc)
    | true =>
      rw [Literal.text_signed, List.mem_cons] at hc
      rcases hc with rfl | hc
      · exact .inr (by decide)
      · exact hnumeral n hn hc
  have hsymbol (operator : Operator) (hc : c ∈ operator.symbol.toList) : c.toNat < 0x30 := by
    cases operator <;> simp [Operator.symbol] at hc <;> simp [hc]
  simp only [text, List.mem_append] at h
  rcases h with h | h | h | h | h | h | h
  · exact .inl (s.before_gap c h)
  · exact .inr (hliteral s.left h)
  · exact .inl (s.beforeOperator_gap c h)
  · exact .inr (.inr (hsymbol s.operator h))
  · exact .inl (s.afterOperator_gap c h)
  · exact .inr (hliteral s.right h)
  · exact .inl (s.after_gap c h)

end Sentence

/-- A character that no sentence has, such as a letter. -/
def IsForeign (c : Char) : Prop :=
  isSeparator c = false ∧ isDecimalDigit c = false ∧ 0x30 ≤ c.toNat

instance (c : Char) : Decidable (IsForeign c) :=
  inferInstanceAs (Decidable (_ ∧ _))

/-- A text with a foreign character stands for nothing. -/
theorem not_denotes_of_foreign {source : String} {c : Char} (hc : IsForeign c)
    (hmem : c ∈ source.toList) (e : Expression) : ¬ Denotes source e := by
  intro hdenotes
  obtain ⟨s, hs, -⟩ := denotes_iff_sentence.mp hdenotes
  rw [← hs] at hmem
  obtain ⟨hseparator, hdigit, hplace⟩ := hc
  rcases s.of_mem_text hmem with h | h | h
  · exact absurd h (by simp [hseparator])
  · exact absurd h (by simp [hdigit])
  · omega

theorem outcome_of_foreign {source : String} {c : Char} (hc : IsForeign c)
    (hmem : c ∈ source.toList) : outcome source = .error .malformedExpression := by
  apply (denotes_or_malformed source).resolve_left
  intro h
  obtain ⟨e, he⟩ := h
  exact not_denotes_of_foreign hc hmem e he

/-- Infinities and NaN are printed with a letter. -/
theorem Binary64.letter_mem_plainText {a : Binary64} (h : a.isFinite = false) :
    'n' ∈ a.plainText.toList ∨ 'N' ∈ a.plainText.toList := by
  cases a with
  | nan => exact .inr (by simp [plainText, render])
  | infinity negative => exact .inl (by simp [plainText, render])
  | finite negative rank => simp [isFinite] at h

/-- The text of an expression with finite operands stands for this expression. -/
theorem Expression.denotes_text {e : Expression} (hleft : e.left.isFinite = true)
    (hright : e.right.isFinite = true) : Denotes e.text e := by
  obtain ⟨left, operator, right⟩ := e
  cases left with
  | nan | infinity negative => simp [Binary64.isFinite] at hleft
  | finite s a =>
    cases right with
    | nan | infinity negative => simp [Binary64.isFinite] at hright
    | finite t b =>
      have hspaced : Denotes (text ⟨.finite s a, operator, .finite t b⟩)
          ⟨(Literal.ofFinite s a).value, operator, (Literal.ofFinite t b).value⟩ :=
        Sentence.denotes_spaced (Literal.text_ofFinite s a) (Literal.text_ofFinite t b)
      rwa [Literal.value_ofFinite, Literal.value_ofFinite] at hspaced

/-- The text of an expression with another operand stands for nothing. -/
theorem Expression.not_denotes_text {e : Expression}
    (h : e.left.isFinite = false ∨ e.right.isFinite = false) (e' : Expression) :
    ¬ Denotes e.text e' := by
  -- The letter of the printed operand is a character of the whole text.
  have hletter {a : Binary64} (ha : a.isFinite = false)
      (hsub : ∀ c ∈ a.plainText.toList, c ∈ e.text.toList) : ¬ Denotes e.text e' := by
    rcases Binary64.letter_mem_plainText ha with hc | hc
    · exact not_denotes_of_foreign (by decide) (hsub _ hc) e'
    · exact not_denotes_of_foreign (by decide) (hsub _ hc) e'
  rcases h with h | h
  · exact hletter h fun c hc => by simp [text, hc]
  · exact hletter h fun c hc => by simp [text, hc]

/-- A printed expression is read back as it was, and so evaluates with the outcome and the record
of every text that stands for it. With an infinite or NaN operand it is malformed. -/
theorem evaluate_text (e : Expression) :
    (e.left.isFinite = true ∧ e.right.isFinite = true →
      Denotes e.text e ∧
      (∃ stream, ∀ records, (tokenize e.text).run.run records = (.ok stream, records) ∧
        (parse stream).run.run records = (.ok e, records)) ∧
      outcome e.text = e.value ∧
      (∀ records, (evaluate e.text).run.run records =
        (e.value, records ++ [.evaluated e e.value])) ∧
      ∀ source, Denotes source e → ∀ records,
        (evaluate e.text).run.run records = (evaluate source).run.run records) ∧
    (e.left.isFinite = false ∨ e.right.isFinite = false →
      outcome e.text = .error .malformedExpression) := by
  -- The run of a text depends on the expression that it stands for and on nothing else.
  have hrun {source : String} (hsource : Denotes source e) (records : List LogRecord) :
      (evaluate source).run.run records = (e.value, records ++ [.evaluated e e.value]) := by
    obtain ⟨stream, hscan, hparse⟩ := hsource
    rw [evaluate_run, verdict_of_expression hscan hparse]
  constructor
  · intro h
    obtain ⟨hleft, hright⟩ := h
    have hprinted := Expression.denotes_text hleft hright
    refine ⟨hprinted, ?_, outcome_of_denotes hprinted, hrun hprinted, ?_⟩
    · obtain ⟨stream, hscan, hparse⟩ := hprinted
      refine ⟨stream, ?_⟩
      intro records
      exact ⟨tokenize_run_eq_ok_iff.mpr hscan, parse_run_eq_ok_iff.mpr hparse⟩
    · intro source hsource records
      rw [hrun hprinted, hrun hsource]
  · intro h
    apply (denotes_or_malformed e.text).resolve_left
    intro h
    obtain ⟨e', he'⟩ := h
    exact Expression.not_denotes_text h e' he'

end LineCalculator
