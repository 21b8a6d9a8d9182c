import Reckon.Proofs.Columns
import Reckon.Proofs.Numerals
import Reckon.Proofs.Offence
import Reckon.Proofs.Scalars
import Reckon.Proofs.Unrestricted
import Reckon.Proofs.Variables

/-! # What a text can come to

    Few things can come of a text. It is worth a double, or it is refused: at one of its characters
    while it is read, or as a whole because operands and operators do not fit, or for a name that
    is not bound. Nothing else happens, whatever the characters are (`evaluate_outcomes`): numerals
    of the text are read as doubles, the operators on the stack are found in the table, and every
    token has its place on the value stack.

        text:   2 * ( x      refused at 4
        text:   2 *          refused as a whole
        text:   2 * x        a double, if `x` is bound to one -/

namespace Reckon

/-! ### Refusals while a text is read -/

/-- A refusal of one of the given kinds, at a character of the text. -/
def RefusedAt (text : String) (kinds : List Kind) (r : Refusal) : Prop :=
  r.kind ∈ kinds ∧ ∃ i < text.length, r.position = some (i : Int)

theorem lt_of_mem_bracketWord {text : List Char} {a : Nat × Mark}
    (h : a ∈ bracketWord 0 text) : a.1 < text.length := by
  obtain ⟨⟨c, i⟩, hentry, ha⟩ := List.mem_filterMap.mp h
  obtain ⟨m, -, rfl⟩ := Option.map_eq_some_iff.mp ha
  have hi := List.snd_lt_of_mem_zipIdx hentry
  simpa using hi

namespace Infix

variable {allow : Bool} {text : String} {r : Refusal}

/-- What is wrong with one lexeme is of one of four kinds. -/
theorem Stops.kind_mem {s : State} {p : Placed} (h : Stops allow s p r) :
    r.kind ∈ [.unknownSymbol, .unknownFunction, .unknownConstant, .unbalancedParens] := by
  cases h <;> simp [Refusal.kind, Refusal.report]

/-- A text that is refused while it is read is refused at one of its characters. -/
theorem refusedAt_of_convert (h : convert allow text = .error r) :
    RefusedAt text [.unknownSymbol, .unknownFunction, .unknownConstant, .unbalancedParens] r := by
  rcases stops_of_run h with ⟨first, p, last, out, s, hcut, -, hstop⟩ | ⟨out, s, hreach, hfinish⟩
  · have hp : p ∈ Lexeme.lexemes text.toList := hcut ▸ by simp
    have hlt := (cut_lexemes text.toList).position_lt p hp
    refine ⟨hstop.kind_mem, p.position, ?_, hstop.position_eq⟩
    rwa [Nat.zero_add, String.length_toList] at hlt
  · obtain ⟨i, bracket, hr, hi, -⟩ := leftOpenAt_of_finish hreach hfinish
    refine ⟨?_, i, ?_, hr⟩
    · obtain ⟨above, bracket, i, below, -, -, rfl⟩ := finish_eq_error_iff.mp hfinish
      simp [Refusal.kind, Refusal.report]
    · rw [← String.length_toList]
      exact lt_of_mem_bracketWord hi

/-- Where variables are allowed, no constant is unknown. -/
theorem refusedAt_of_convert_true (h : convert true text = .error r) :
    RefusedAt text [.unknownSymbol, .unknownFunction, .unbalancedParens] r := by
  obtain ⟨hk, hat⟩ := refusedAt_of_convert h
  have hne := kind_of_run_error h
  refine ⟨?_, hat⟩
  simp only [List.mem_cons, List.not_mem_nil, or_false] at hk ⊢
  rcases hk with hk | hk | hk | hk
  · exact .inl hk
  · exact .inr (.inl hk)
  · exact absurd hk hne
  · exact .inr (.inr hk)

/-- The variables of a converted text stand in it as names. -/
theorem nameAt_of_var_mem {tokens : List Token} {name : String}
    (h : convert allow text = .ok tokens) (hname : .var name ∈ tokens) :
    ∃ position letters, NameAt text.toList position letters ∧ constant? letters = none
      ∧ name = String.ofList letters := by
  obtain ⟨-, position, letters, hp, hc, rfl⟩ := exists_name_of_var_mem h hname
  exact ⟨position, letters, mem_lexemes_name_iff.mp hp, hc, rfl⟩

end Infix

/-! ### Evaluation where only doubles are bound -/

/-- All that is bound is a single double. -/
def Bindings.OnlyScalars (bindings : Bindings) : Prop :=
  ∀ name v, bindings.value name = .ok v → ∃ x, v = .scalar x

/-- A refusal for the number of values. -/
def RefusedByCount (r : Refusal) : Prop :=
  (r.kind = .factorExpected ∨ r.kind = .operatorExpected) ∧ r.position = none

namespace Postfix

variable {bindings : Bindings} {stack : List Value} {tokens : List Token}

/-- The ways in which a run over tokens can end where all that is bound are doubles. -/
inductive Orderly (bindings : Bindings) (tokens : List Token) : Except Failure (List Value) → Prop
  | doubles {stack : List Value} (hs : AllScalars stack) : Orderly bindings tokens (.ok stack)
  | short (op : Operator) : Orderly bindings tokens (.error (.refused (.missingOperand op.type op)))
  | failed {name : String} {f : Failure} (hname : .var name ∈ tokens)
      (hf : bindings.value name = .error f) : Orderly bindings tokens (.error f)

theorem Orderly.mono {more : List Token} {result : Except Failure (List Value)}
    (h : Orderly bindings tokens result) (hsub : tokens ⊆ more) : Orderly bindings more result := by
  cases h with
  | doubles hs => exact .doubles hs
  | short op => exact .short op
  | failed hname hf => exact .failed (hsub hname) hf

/-- One token takes doubles to doubles, or it lacks an operand or is a variable that fails. -/
theorem orderly_step (hb : bindings.OnlyScalars) (hs : AllScalars stack) (t : Token) :
    Orderly bindings [t] (step bindings stack (.token t)) := by
  cases t with
  | number x => exact .doubles (allScalars_cons.mpr ⟨⟨x, rfl⟩, hs⟩)
  | var name =>
    rw [step]
    cases hv : bindings.value name with
    | error f => exact .failed List.mem_cons_self hv
    | ok v => exact .doubles (allScalars_cons.mpr ⟨hb name v hv, hs⟩)
  | operator op =>
    rw [step]
    rcases Nat.lt_or_ge stack.length op.arity with hlt | hge
    · rw [operate_short op hlt]
      exact .short op
    · obtain ⟨next, hnext, hs, -⟩ := operate_scalars op hs hge
      rw [hnext]
      exact .doubles hs

theorem orderly_run (hb : bindings.OnlyScalars) (hs : AllScalars stack) :
    Orderly bindings tokens (run bindings stack (tokens.map .token)) := by
  induction tokens generalizing stack with
  | nil => exact .doubles hs
  | cons t rest ih =>
    have hstep := orderly_step hb hs t
    rw [List.map_cons, run]
    cases hresult : step bindings stack (.token t) with
    | error f =>
      -- the run ends here, whatever comes after the token
      rw [hresult] at hstep
      exact hstep.mono (by simp)
    | ok next =>
      rw [hresult] at hstep
      cases hstep with
      | doubles hnext => exact (ih hnext).mono (List.subset_cons_self t rest)

/-- A sequence is worth a double, or the values are too few or too many, or a variable fails. -/
theorem evaluate_cases (hb : bindings.OnlyScalars) (tokens : List Token) :
    (∃ x, evaluate bindings tokens = .ok (.scalar x))
      ∨ (∃ r, evaluate bindings tokens = .error (.refused r) ∧ RefusedByCount r)
      ∨ ∃ name f, .var name ∈ tokens ∧ bindings.value name = .error f
          ∧ evaluate bindings tokens = .error f := by
  have hrun : Orderly bindings tokens (run bindings [] (tokens.map .token)) :=
    orderly_run hb (List.forall_mem_nil _)
  rw [evaluate, evaluateItems]
  cases hresult : run bindings [] (tokens.map .token) with
  | error f =>
    rw [hresult] at hrun
    cases hrun with
    | short op => exact .inr (.inl ⟨_, rfl, .inl rfl, rfl⟩)
    | failed hname hf => exact .inr (.inr ⟨_, _, hname, hf, rfl⟩)
  | ok final =>
    rw [hresult] at hrun
    cases hrun with
    | doubles hs =>
      rcases final with _ | ⟨v, _ | ⟨w, rest⟩⟩
      · exact .inr (.inl ⟨.empty, rfl, .inl rfl, rfl⟩)
      · obtain ⟨x, rfl⟩ := hs v List.mem_cons_self
        exact .inl ⟨x, rfl⟩
      · refine .inr (.inl ⟨.leftOver (v :: w :: rest).length, ?_, .inr rfl, rfl⟩)
        exact congrArg Except.error (surplus_map_token tokens _)

end Postfix

/-! ### The outcomes of a text -/

namespace Expression

open Infix

variable {settings : Settings}

/-- A refusal for a name of the text that is no constant and not bound. -/
def RefusedForName (text : String) (entries : Register Raw) (r : Refusal) : Prop :=
  ∃ position letters, NameAt text.toList position letters ∧ constant? letters = none
    ∧ entries.find? (String.ofList letters) = none ∧ r = .unbound (String.ofList letters)

/-- Doubles under names are all that a register of them binds. -/
theorem onlyScalars_register {entries : Register Raw}
    (h : ∀ entry ∈ entries, ∃ x, entry.2.value = .ok (.scalar x)) :
    (Bindings.register entries).OnlyScalars := by
  intro name v hv
  rw [Bindings.value] at hv
  split at hv
  · next raw hraw =>
    obtain ⟨x, hx⟩ := h _ (Register.mem_of_find? hraw)
    rw [hx] at hv
    exact ⟨x, (Except.ok.inj hv).symm⟩
  · cases hv

theorem value_register_eq_error {entries : Register Raw}
    (h : ∀ entry ∈ entries, ∃ x, entry.2.value = .ok (.scalar x)) {name : String} {f : Failure}
    (hf : (Bindings.register entries).value name = .error f) :
    entries.find? name = none ∧ f = .refused (.unbound name) := by
  rw [Bindings.value] at hf
  split at hf
  · next raw hraw =>
    obtain ⟨x, hx⟩ := h _ (Register.mem_of_find? hraw)
    rw [hx] at hf
    cases hf
  · next hnone => exact ⟨hnone, (Except.error.inj hf).symm⟩

/-- A text is worth a double, or refused while it is read or for the number of values, or one of its
    variables fails. -/
theorem outcome_cases (hs : settings.Unrestricted) (allow : Bool) {bindings : Bindings}
    (hb : bindings.OnlyScalars) (text : String) :
    (∃ x, (evaluate settings allow bindings (.text text)).outcome = .ok (.scalar x))
      ∨ (∃ r, (evaluate settings allow bindings (.text text)).outcome = .error (.refused r)
          ∧ (Infix.convert allow text = .error r ∨ RefusedByCount r))
      ∨ ∃ tokens name f, Infix.convert allow text = .ok tokens ∧ .var name ∈ tokens
          ∧ bindings.value name = .error f
          ∧ (evaluate settings allow bindings (.text text)).outcome = .error f := by
  rw [outcome_evaluate hs]
  cases hconvert : Infix.convert allow text with
  | error r => exact .inr (.inl ⟨r, rfl, .inl rfl⟩)
  | ok tokens =>
    rcases Postfix.evaluate_cases hb tokens with hvalue | ⟨r, hr, hcount⟩ | ⟨name, f, hname, hf, h⟩
    · exact .inl hvalue
    · exact .inr (.inl ⟨r, hr, .inr hcount⟩)
    · exact .inr (.inr ⟨tokens, name, f, rfl, hname, hf, h⟩)

/-- A text without bindings is worth a double, or refused at one of its characters while it is read,
    or refused because operands and operators do not fit. With doubles under some names it comes to
    the same, but that no constant is unknown and it may be refused for a name that is not bound.
    Every numeral in it is read as a double. -/
theorem evaluate_outcomes (hs : settings.Unrestricted) (text : String) :
    ((∃ x, (evaluate settings false .nothing (.text text)).outcome = .ok (.scalar x))
        ∨ ∃ r, (evaluate settings false .nothing (.text text)).outcome = .error (.refused r)
          ∧ (RefusedAt text
              [.unknownSymbol, .unknownFunction, .unknownConstant, .unbalancedParens] r
            ∨ RefusedByCount r))
      ∧ (∀ entries : Register Raw, (∀ entry ∈ entries, ∃ x, entry.2.value = .ok (.scalar x)) →
          (∃ x, (evaluate settings true (.register entries) (.text text)).outcome
              = .ok (.scalar x))
            ∨ ∃ r, (evaluate settings true (.register entries) (.text text)).outcome
                = .error (.refused r)
              ∧ (RefusedAt text [.unknownSymbol, .unknownFunction, .unbalancedParens] r
                ∨ RefusedByCount r
                ∨ RefusedForName text entries r ∧ r.kind = .unknownVariable ∧ r.position = none))
      ∧ ∀ p ∈ Lexeme.lexemes text.toList, ∀ whole fraction, p.lexeme = .number whole fraction →
          Number.ofText? p.lexeme.chars = some (Lexeme.value whole fraction) := by
  refine ⟨?_, ?_, ?_⟩
  · have hb : Bindings.nothing.OnlyScalars := by
      rintro name v ⟨⟩
    rcases outcome_cases hs false hb text with
      hvalue | ⟨r, hr, hread | hcount⟩ | ⟨tokens, name, f, hconvert, hname, -⟩
    · exact .inl hvalue
    · exact .inr ⟨r, hr, .inl (refusedAt_of_convert hread)⟩
    · exact .inr ⟨r, hr, .inr hcount⟩
    · -- no variable is sent out, so none can fail
      exact absurd hname (var_not_mem_of_run hconvert name)
  · intro entries hentries
    rcases outcome_cases hs true (onlyScalars_register hentries) text with
      hvalue | ⟨r, hr, hread | hcount⟩ | ⟨tokens, name, f, hconvert, hname, hf, h⟩
    · exact .inl hvalue
    · exact .inr ⟨r, hr, .inl (refusedAt_of_convert_true hread)⟩
    · exact .inr ⟨r, hr, .inr (.inl hcount)⟩
    · obtain ⟨hnone, rfl⟩ := value_register_eq_error hentries hf
      obtain ⟨position, letters, hat, hc, rfl⟩ := nameAt_of_var_mem hconvert hname
      refine .inr ⟨_, h, .inr (.inr ⟨?_, rfl, rfl⟩)⟩
      exact ⟨position, letters, hat, hc, hnone, rfl⟩
  · intro p hp whole fraction hl
    have hformed := (cut_lexemes text.toList).formed p hp
    rw [hl] at hformed ⊢
    exact Number.ofText?_chars hformed

/-- In `x*y` the name `y` is missing if only `x` is bound. -/
theorem name_missing_in_product :
    (∀ entry ∈ [("x", Raw.single (.real 2))], ∃ x, entry.2.value = .ok (.scalar x))
      ∧ (evaluate .standard true (.register [("x", .single (.real 2))]) (.text "x*y")).outcome
        = .error (.refused (.unbound "y"))
      ∧ RefusedForName "x*y" [("x", .single (.real 2))] (.unbound "y") := by
  have hentries : ∀ entry ∈ [("x", Raw.single (.real 2))],
      ∃ x, entry.2.value = .ok (.scalar x) := by
    intro entry hentry
    obtain rfl := List.mem_singleton.mp hentry
    exact ⟨2, rfl⟩
  have hcut : Lexeme.lexemes "x*y".toList
      = [⟨0, .name ['x']⟩, ⟨1, .sign .mul⟩, ⟨2, .name ['y']⟩] := by decide +kernel
  have houtcome : (evaluate .standard true (.register [("x", .single (.real 2))])
      (.text "x*y")).outcome = .error (.refused (.unbound "y")) := by
    rw [outcome_evaluate Settings.unrestricted_standard, Infix.convert, hcut]
    rfl
  refine ⟨hentries, houtcome, ?_⟩
  rcases (evaluate_outcomes Settings.unrestricted_standard "x*y").2.1 _ hentries with
    ⟨x, hx⟩ | ⟨r, hr, hcases⟩
  · cases houtcome.symm.trans hx
  · cases houtcome.symm.trans hr
    rcases hcases with ⟨hk, -⟩ | ⟨hk | hk, -⟩ | ⟨hname, -⟩
    · simp [Refusal.kind, Refusal.report] at hk
    · cases hk
    · cases hk
    · exact hname

end Expression

end Reckon
