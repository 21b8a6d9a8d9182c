import Reckon.Expression

/-! # Expressions without restrictions

    Settings restrict expressions by a greatest length and by the operators that they define. Where
    they do neither, as the standard settings, a text is only converted, and it is worth what its
    postfix sequence is worth. Where they only limit the length, a text that is too long is refused,
    and nothing else is different. -/

namespace Reckon

/-- No greatest length, and every operator. -/
structure Settings.Unrestricted (settings : Settings) : Prop where
  lengthLimit : settings.lengthLimit = .null
  defines : ∀ op, settings.defines op = true

/-- At most an integer as the greatest length, and every operator. -/
structure Settings.LimitsLength (settings : Settings) : Prop where
  lengthLimit : settings.lengthLimit = .null ∨ ∃ n, settings.lengthLimit = .int n
  defines : ∀ op, settings.defines op = true

theorem Settings.Unrestricted.limitsLength {settings : Settings} (h : settings.Unrestricted) :
    settings.LimitsLength :=
  ⟨.inl h.lengthLimit, h.defines⟩

theorem Settings.unrestricted_standard : Settings.standard.Unrestricted where
  lengthLimit := rfl
  defines op := by
    cases op with
    | binary op => cases op <;> decide
    | negate => decide
    | function f => cases f <;> decide

namespace Expression

variable {settings : Settings}

theorem known_token (h : ∀ op, settings.defines op = true) (t : Token) :
    known settings (.token t) = .token t := by
  cases t with
  | number | var => rfl
  | operator op => exact if_pos (h op)

/-- Tokens stay what they are. -/
theorem map_known (h : ∀ op, settings.defines op = true) (tokens : List Token) :
    (tokens.map .token).map (known settings) = tokens.map .token := by
  rw [List.map_map]
  exact List.map_congr_left fun t _ => known_token h t

/-- No precedence is missing while a text is read. -/
theorem convert_eq (h : ∀ op, settings.defines op = true) (allow : Bool) (text : String) :
    convert settings allow text = (Infix.convert allow text).mapError .refused :=
  if_pos (List.all_eq_true.mpr fun op _ => h op)

/-- A text is only converted. -/
theorem tokens_text (h : settings.Unrestricted) (allow : Bool) (text : String) :
    tokens settings allow (.text text) = (Infix.convert allow text).mapError .refused := by
  rw [tokens, h.lengthLimit]
  exact convert_eq h.defines allow text

/-- Under a limit, a text is too long or only converted. -/
theorem tokens_text_cases (h : settings.LimitsLength) (allow : Bool) (text : String) :
    (∃ r, tokens settings allow (.text text) = .error (.refused r))
      ∨ ∃ ts, tokens settings allow (.text text) = .ok ts := by
  have hconvert : (∃ r, convert settings allow text = .error (.refused r))
      ∨ ∃ ts, convert settings allow text = .ok ts := by
    rw [convert_eq h.defines]
    cases Infix.convert allow text with
    | error r => exact .inl ⟨r, rfl⟩
    | ok ts => exact .inr ⟨ts, rfl⟩
  rcases h.lengthLimit with hnull | ⟨n, hint⟩
  · rwa [tokens, hnull]
  · rw [tokens, hint, Settings.exceeds]
    cases decide (n < (text.length : Int)) with
    | true => exact .inl ⟨_, rfl⟩
    | false => exact hconvert

/-- A text is worth what its postfix sequence is worth. -/
theorem outcome_evaluate (h : settings.Unrestricted) (allow : Bool) (bindings : Bindings)
    (text : String) :
    (evaluate settings allow bindings (.text text)).outcome
      = match Infix.convert allow text with
        | .error r => .error (.refused r)
        | .ok tokens => Postfix.evaluate bindings tokens := by
  have hread : (read settings allow (.text text)).outcome
      = (Infix.convert allow text).mapError .refused := tokens_text h allow text
  show (Logged.bind (read settings allow (.text text)) _).outcome = _
  rw [Logged.bind, hread]
  cases Infix.convert allow text with
  | error r => rfl
  | ok tokens => exact congrArg (Postfix.evaluateItems bindings) (map_known h.defines tokens)

end Expression

end Reckon
