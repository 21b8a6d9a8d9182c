import Reckon.Proofs.Balance
import Reckon.Proofs.Scalars
import Reckon.Proofs.Unrestricted

/-! # Which texts have a value

    With its names bound to single doubles, a text has a value exactly if its postfix sequence is
    complete, and every other text is refused.

    A complete sequence does not mean that the text is one infix expression: a join and a gap
    cancel. A text with a value breaks the grammar exactly if some operand begins directly after
    another one.

        5 3 *        is worth what 5 * 3 is
        ( ) 1        is worth what 1 is -/

namespace Reckon.Expression

open Infix

variable {allow : Bool} {settings : Settings} {bindings : Bindings} {text : String}

/-! ### Names -/

/-- The names in a text, constants apart, are bound to single doubles. -/
def ScalarNames (bindings : Bindings) (text : String) : Prop :=
  ∀ placed ∈ Lexeme.lexemes text.toList, ∀ letters, placed.lexeme = .name letters →
    constant? letters = none → ∃ x, bindings.value (String.ofList letters) = .ok (.scalar x)

/-- The variables of a converted text are names in the text. -/
theorem scalarVariables_of_convert {tokens : List Token} (hb : ScalarNames bindings text)
    (h : Infix.convert allow text = .ok tokens) : Postfix.ScalarVariables bindings tokens := by
  intro name hname
  obtain ⟨-, position, letters, hp, hc, rfl⟩ := exists_name_of_var_mem h hname
  exact hb _ hp letters rfl hc

/-! ### Values and refusals -/

/-- A text has a value, which is a single double, exactly if its postfix sequence is complete, and
    is refused otherwise. -/
theorem evaluate_scalar_or_refused (hs : settings.Unrestricted)
    (hb : ScalarNames bindings text) :
    (∃ x tokens, (evaluate settings true bindings (.text text)).outcome = .ok (.scalar x)
        ∧ Infix.convert true text = .ok tokens ∧ Postfix.isComplete tokens = true)
      ∨ (∃ r, (evaluate settings true bindings (.text text)).outcome = .error (.refused r)
        ∧ ∀ tokens, Infix.convert true text = .ok tokens → Postfix.isComplete tokens = false) := by
  rw [outcome_evaluate hs]
  cases hconvert : Infix.convert true text with
  | error r => exact .inr ⟨r, rfl, by rintro tokens ⟨⟩⟩
  | ok tokens =>
    have hv := scalarVariables_of_convert hb hconvert
    cases hc : Postfix.isComplete tokens with
    | true =>
      obtain ⟨x, hx⟩ := Postfix.evaluate_of_isComplete hv hc
      exact .inl ⟨x, tokens, hx, rfl, hc⟩
    | false =>
      obtain ⟨r, hr⟩ := Postfix.evaluate_of_not_isComplete hv hc
      exact .inr ⟨r, hr, by rintro tokens ⟨⟩; exact hc⟩

/-- A text with a value is one infix expression exactly if no operand begins directly after another
    one. If one does, as many operands are missing elsewhere. A text without a value is no
    expression, and refused. -/
theorem isExpression_iff_value_and_no_join (hs : settings.Unrestricted)
    (hb : ScalarNames bindings text) :
    (IsExpression text
        ↔ (∃ v, (evaluate settings true bindings (.text text)).outcome = .ok v)
          ∧ joinsIn text = 0)
      ∧ ((∃ v, (evaluate settings true bindings (.text text)).outcome = .ok v) →
          joinsIn text = gapsIn text)
      ∧ ∀ f, (evaluate settings true bindings (.text text)).outcome = .error f →
          ∃ r, f = .refused r := by
  rcases evaluate_scalar_or_refused hs hb with ⟨x, tokens, hvalue, hconvert, hc⟩ | ⟨r, hr, hnone⟩
  · rw [isExpression_iff, hvalue]
    refine ⟨and_congr_left' ⟨?_, ?_⟩, ?_, ?_⟩
    · intro _
      exact ⟨_, rfl⟩
    · intro _
      exact ⟨tokens, hconvert, hc⟩
    · intro _
      exact joinsIn_eq_of_isComplete hconvert hc
    · rintro f ⟨⟩
  · rw [isExpression_iff, hr]
    refine ⟨and_congr_left' ⟨?_, ?_⟩, ?_, ?_⟩
    · rintro ⟨tokens, hconvert, hc⟩
      rw [hnone tokens hconvert] at hc
      cases hc
    · rintro ⟨v, ⟨⟩⟩
    · rintro ⟨v, ⟨⟩⟩
    · rintro f ⟨⟩
      exact ⟨r, rfl⟩

/-- The text `() x` is worth what `x` is, though the brackets are empty and `x` stands next to
    them. -/
theorem not_isExpression_empty_brackets_before_name :
    ScalarNames (.register [("x", .single (.real 2))]) "() x"
      ∧ (evaluate .standard true (.register [("x", .single (.real 2))]) (.text "() x")).outcome
        = .ok (.scalar 2)
      ∧ ¬ IsExpression "() x" := by
  have hcut : Lexeme.lexemes "() x".toList
      = [⟨0, .opening .round⟩, ⟨1, .closing .round⟩, ⟨3, .name ['x']⟩] := by decide +kernel
  have hnames : ScalarNames (.register [("x", .single (.real 2))]) "() x" := by
    intro placed hplaced letters hl _
    rw [hcut] at hplaced
    obtain rfl | rfl | rfl : _ ∨ _ ∨ _ := by simpa using hplaced
    · cases hl
    · cases hl
    · cases hl
      exact ⟨2, rfl⟩
  refine ⟨hnames, ?_, ?_⟩
  · rw [outcome_evaluate Settings.unrestricted_standard, Infix.convert, hcut]
    rfl
  · intro h
    have hj := ((isExpression_iff_value_and_no_join Settings.unrestricted_standard hnames).1.mp h).2
    rw [joinsIn, hcut] at hj
    cases hj

/-- A text with a value need not be an infix expression: in `5 3*` an operand is missing after the
    sign, and the one that stands next to another takes its place. -/
theorem value_of_juxtaposed_operands :
    ScalarNames (.register []) "5 3*"
      ∧ (evaluate .standard true (.register []) (.text "5 3*")).outcome
        = .ok (.scalar (Scalar.binary .mul (Lexeme.value ['5'] none) (Lexeme.value ['3'] none)))
      ∧ ¬ IsExpression "5 3*" := by
  have hcut : Lexeme.lexemes "5 3*".toList
      = [⟨0, .number ['5'] none⟩, ⟨2, .number ['3'] none⟩, ⟨3, .sign .mul⟩] := by decide +kernel
  refine ⟨?_, ?_, ?_⟩
  · intro placed hplaced letters hl _
    rw [hcut] at hplaced
    obtain rfl | rfl | rfl : _ ∨ _ ∨ _ := by simpa using hplaced
    all_goals cases hl
  · rw [outcome_evaluate Settings.unrestricted_standard, Infix.convert, hcut]
    rfl
  · intro h
    have hj := (isExpression_iff.mp h).2
    rw [joinsIn, hcut] at hj
    cases hj

end Reckon.Expression
