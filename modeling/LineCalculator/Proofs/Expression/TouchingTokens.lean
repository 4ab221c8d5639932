import LineCalculator.Proofs.Expression.Faults

namespace LineCalculator

/-- For each token but the last one, whether the next one begins where it stops. -/
def touches : List Token → List Bool
  | first :: second :: rest =>
    decide (first.span.stop = second.span.start) :: touches (second :: rest)
  | _ => []

theorem tail_touches (token : Token) (tokens : List Token) :
    (touches (token :: tokens)).tail = touches tokens := by
  cases tokens with
  | nil => rfl
  | cons next rest => rfl

/-- Tokens of the same kinds, where neighbours of the ones touch when those of the others do. -/
structure SameTokens (tokens tokens' : List Token) : Prop where
  kinds : tokens.map Token.kind = tokens'.map Token.kind
  touches : touches tokens = touches tokens'

namespace SameTokens

variable {token token' : Token} {tokens tokens' : List Token}

theorem symm (h : SameTokens tokens tokens') : SameTokens tokens' tokens :=
  ⟨h.kinds.symm, h.touches.symm⟩

theorem tail (h : SameTokens (token :: tokens) (token' :: tokens')) : SameTokens tokens tokens' := by
  obtain ⟨-, hkinds⟩ := List.cons.inj h.kinds
  refine ⟨hkinds, ?_⟩
  rw [← tail_touches token tokens, h.touches, tail_touches]

theorem cons_inv (h : SameTokens (token :: tokens) tokens') : ∃ token' rest',
    tokens' = token' :: rest' ∧ token'.kind = token.kind ∧ SameTokens tokens rest' := by
  obtain ⟨token', rest', rfl, hkind, -⟩ := List.map_eq_cons_iff.mp h.kinds.symm
  exact ⟨token', rest', rfl, hkind, h.tail⟩

theorem nil_inv (h : SameTokens [] tokens') : tokens' = [] :=
  List.map_eq_nil_iff.mp h.kinds.symm

theorem touch_iff {next next' : Token}
    (h : SameTokens (token :: next :: tokens) (token' :: next' :: tokens')) :
    token.span.stop = next.span.start ↔ token'.span.stop = next'.span.start := by
  obtain ⟨htouch, -⟩ := List.cons.inj h.touches
  exact decide_eq_decide.mp htouch

end SameTokens

theorem SyntaxFault.expected_at (expected : Expected) (tokens : List Token) :
    (SyntaxFault.at expected tokens).expected = expected := by
  cases tokens <;> rfl

namespace Expression

/-- Both steps succeed with related results, or both fail for want of the same. -/
inductive SameResult {α : Type} (R : α → α → Prop) :
    Except SyntaxFault α → Except SyntaxFault α → Prop where
  | ok {a a' : α} (h : R a a') : SameResult R (.ok a) (.ok a')
  | error {fault fault' : SyntaxFault} (h : fault.expected = fault'.expected) :
    SameResult R (.error fault) (.error fault')

section Steps

variable {α β : Type} {R : α → α → Prop} {S : β → β → Prop}

theorem SameResult.bind {first first' : Except SyntaxFault α}
    {second second' : α → Except SyntaxFault β} (h : SameResult R first first')
    (hthen : ∀ a a', R a a' → SameResult S (second a) (second' a')) :
    SameResult S (first >>= second) (first' >>= second') := by
  cases h with
  | ok h => exact hthen _ _ h
  | error h => exact .error h

/-- A step whose success carries over to the same tokens and whose faults are all of one kind. -/
theorem SameResult.of_transfer {step : List Token → Except SyntaxFault α} (expected : Expected)
    (hfail : ∀ tokens fault, step tokens = .error fault → fault.expected = expected)
    (hok : ∀ tokens tokens' a, SameTokens tokens tokens' → step tokens = .ok a →
      ∃ a', step tokens' = .ok a' ∧ R a a')
    {tokens tokens' : List Token} (h : SameTokens tokens tokens') :
    SameResult R (step tokens) (step tokens') := by
  cases hstep : step tokens with
  | ok a =>
    obtain ⟨a', hstep', hrel⟩ := hok tokens tokens' a h hstep
    rw [hstep']
    exact .ok hrel
  | error fault =>
    cases hstep' : step tokens' with
    | ok a' =>
      -- The second list would then be parsed in the first one's place.
      obtain ⟨a, hstep'', -⟩ := hok tokens' tokens a' h.symm hstep'
      rw [hstep] at hstep''
      cases hstep''
    | error fault' =>
      exact .error ((hfail tokens fault hstep).trans (hfail tokens' fault' hstep').symm)

end Steps

def SameRest {α : Type} (found found' : α × List Token) : Prop :=
  found.1 = found'.1 ∧ SameTokens found.2 found'.2

section Parsers

variable {tokens tokens' : List Token}

theorem sameResult_parseOperand (h : SameTokens tokens tokens') :
    SameResult SameRest (parseOperand tokens) (parseOperand tokens') := by
  apply SameResult.of_transfer .number _ _ h
  · intro tokens fault hfault
    rw [(of_parseOperand_eq_error hfault).2, SyntaxFault.expected_at]
  · rintro tokens tokens' ⟨value, rest⟩ h hparse
    obtain ⟨front, hfront, rfl⟩ := parseOperand_eq_ok_iff.mp hparse
    cases hfront with
    | number value digits =>
      obtain ⟨⟨kind, digits'⟩, rest', rfl, hkind, hrest⟩ := h.cons_inv
      obtain rfl : kind = .number value := hkind
      exact ⟨_, parseOperand_append (.number value digits') rest', rfl, hrest⟩
    | signed value sign digits htouch =>
      obtain ⟨⟨kind, sign'⟩, more', rfl, hkind, hmore⟩ := h.cons_inv
      obtain ⟨⟨kind', digits'⟩, rest', rfl, hkind', hrest⟩ := hmore.cons_inv
      obtain rfl : kind = .operator .subtract := hkind
      obtain rfl : kind' = .number value := hkind'
      -- The sign touches its number in both lists.
      have htouch' : sign'.stop = digits'.start := h.touch_iff.mp htouch
      exact ⟨_, parseOperand_append (.signed value sign' digits' htouch') rest', rfl, hrest⟩

theorem sameResult_parseOperator (h : SameTokens tokens tokens') :
    SameResult SameRest (parseOperator tokens) (parseOperator tokens') := by
  apply SameResult.of_transfer .operator _ _ h
  · intro tokens fault hfault
    rw [(of_parseOperator_eq_error hfault).2, SyntaxFault.expected_at]
  · rintro tokens tokens' ⟨operator, rest⟩ h hparse
    obtain ⟨span, rfl⟩ := parseOperator_eq_ok_iff.mp hparse
    obtain ⟨⟨kind, span'⟩, rest', rfl, hkind, hrest⟩ := h.cons_inv
    obtain rfl : kind = .operator operator := hkind
    exact ⟨(operator, rest'), rfl, rfl, hrest⟩

theorem sameResult_parseEnd (h : SameTokens tokens tokens') :
    SameResult Eq (parseEnd tokens) (parseEnd tokens') := by
  apply SameResult.of_transfer .endOfInput _ _ h
  · intro tokens fault hfault
    rw [(of_parseEnd_eq_error hfault).2, SyntaxFault.expected_at]
  · rintro tokens tokens' ⟨⟩ h hparse
    obtain ⟨span, rfl⟩ := parseEnd_eq_ok_iff.mp hparse
    obtain ⟨⟨kind, span'⟩, rest', rfl, hkind, hrest⟩ := h.cons_inv
    obtain rfl : kind = .endOfInput := hkind
    obtain rfl := hrest.nil_inv
    exact ⟨(), rfl, rfl⟩

/-- Streams of the same tokens are the same expression, or lack the same where they are none. -/
theorem sameResult_parse {left right : TokenStream} (h : SameTokens left.toList right.toList) :
    SameResult Eq (parse left) (parse right) := by
  -- The stages are gone through in both streams at once, each from the rest that the last one left.
  apply (sameResult_parseOperand h).bind
  rintro ⟨a, rest⟩ ⟨a', rest'⟩ ⟨ha, hrest⟩
  obtain rfl : a = a' := ha
  apply (sameResult_parseOperator hrest).bind
  rintro ⟨operator, more⟩ ⟨operator', more'⟩ ⟨hoperator, hmore⟩
  obtain rfl : operator = operator' := hoperator
  apply (sameResult_parseOperand hmore).bind
  rintro ⟨b, last⟩ ⟨b', last'⟩ ⟨hb, hlast⟩
  obtain rfl : b = b' := hb
  apply (sameResult_parseEnd hlast).bind
  rintro _ _ -
  exact .ok rfl

end Parsers

end Expression

end LineCalculator
