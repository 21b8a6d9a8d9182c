import Reckon.Proofs.Agreement
import Reckon.Proofs.Replacing
import Reckon.Proofs.Tree

/-! # Substitution

    A variable may be replaced by a sequence, or bound to what that sequence is worth: both come to
    the same. A sequence that has a value puts it on top of any stack and touches nothing below
    (`run_append_of_evaluate`), so wherever the variable stands, the two runs go on with the same
    stack (`run_expand`). That holds around it as well: if values run short or are left over later
    on, they do so in both runs, at the same operator or by the same number.

        tokens:    x 2 * x        with 1 y + for x:   1 y + 2 * 1 y +
        bindings:  y = 3          with x bound:       x = 4, y = 3
        both:      8 4, two values left -/

namespace Reckon.Postfix

variable {bindings : Bindings} {entries : Register Raw} {us : List Token} {name : String}

/-- A sequence that has a value puts it on top of any stack. -/
theorem run_append_of_evaluate {v : Value} (h : evaluate bindings us = .ok v) (stack : List Value)
    (ts : List Token) :
    run bindings stack ((us ++ ts).map .token) = run bindings (v :: stack) (ts.map .token) := by
  obtain ⟨t, rfl⟩ := (Tree.isComplete_iff us).mp (isComplete_of_evaluate h)
  have hvalue : t.value bindings = .ok v := (Tree.evaluate_postorder bindings t).symm.trans h
  rw [Tree.run_postorder_append, hvalue]

/-! ### A name bound anew -/

theorem value_put_self (entries : Register Raw) (name : String) (r : Float) :
    (Bindings.register (entries.put name (.single (.real r)))).value name = .ok (.scalar r) := by
  simp only [Bindings.value, Register.find?_put_self]
  rfl

theorem value_put_of_ne (entries : Register Raw) {name other : String} (raw : Raw)
    (h : name ≠ other) :
    (Bindings.register (entries.put name raw)).value other
      = (Bindings.register entries).value other := by
  simp only [Bindings.value, Register.find?_put_of_ne entries raw h]

/-- Any other token works alike with the name bound anew. -/
theorem step_put_of_ne {t : Token} (h : t ≠ .var name) (raw : Raw) (stack : List Value) :
    step (.register (entries.put name raw)) stack (.token t)
      = step (.register entries) stack (.token t) := by
  cases t with
  | number x => rfl
  | operator op => rfl
  | var other =>
    have hne : name ≠ other := by
      rintro rfl
      exact h rfl
    simp only [step, value_put_of_ne entries raw hne]

/-! ### The two runs -/

/-- With the variable replaced or bound, a run leaves the same stack or fails alike. -/
theorem run_expand {r : Float} (h : evaluate (.register entries) us = .ok (.scalar r))
    (stack : List Value) (ts : List Token) :
    run (.register entries) stack ((expand (.var name) us ts).map .token)
      = run (.register (entries.put name (.single (.real r)))) stack (ts.map .token) := by
  induction ts generalizing stack with
  | nil => rfl
  | cons t rest ih =>
    rw [expand_cons, List.map_cons, run]
    by_cases ht : t = .var name
    · subst ht
      rw [if_pos rfl, run_append_of_evaluate h, step, value_put_self]
      exact ih _
    · rw [if_neg ht, step_put_of_ne ht, List.singleton_append, List.map_cons, run]
      cases step (.register entries) stack (.token t) with
      | error f => rfl
      | ok next => exact ih next

/-- What a run over tokens leaves decides the result, whichever tokens they were. -/
theorem result_map_token_congr (ts us : List Token) (stack : List Value) :
    result (ts.map .token) stack = result (us.map .token) stack := by
  rcases stack with _ | ⟨v, _ | ⟨w, rest⟩⟩
  · rfl
  · rfl
  · simp only [result, surplus_map_token]

/-- Replacing a variable by a sequence that is worth a double comes to the same as binding it to
    that double: the same value or the same failure, whether or not the sequence around it is
    complete, and whether or not the new sequence mentions the variable itself. -/
theorem evaluate_expand {r : Float} (h : evaluate (.register entries) us = .ok (.scalar r))
    (name : String) (ts : List Token) :
    evaluate (.register entries) (expand (.var name) us ts)
      = evaluate (.register (entries.put name (.single (.real r)))) ts := by
  rw [evaluate, evaluate, evaluateItems, evaluateItems, run_expand h]
  cases run (.register (entries.put name (.single (.real r)))) [] (ts.map .token) with
  | error f => rfl
  | ok final => exact result_map_token_congr _ _ final

/-- The variable is replaced by a sequence that mentions it: `x 2 * x` with `x 1 +` for `x`. Two
    values are left over. -/
theorem expand_leaves_two_over :
    evaluate (.register [("x", .single (.real 3))])
        [.var "x", .number 1, .operator (.binary .add)] = .ok (.scalar (3 + 1))
      ∧ evaluate (.register [("x", .single (.real 3))])
          (expand (.var "x") [.var "x", .number 1, .operator (.binary .add)]
            [.var "x", .number 2, .operator (.binary .mul), .var "x"])
        = evaluate (.register [("x", .single (.real (3 + 1)))])
          [.var "x", .number 2, .operator (.binary .mul), .var "x"]
      ∧ evaluate (.register [("x", .single (.real (3 + 1)))])
          [.var "x", .number 2, .operator (.binary .mul), .var "x"]
        = .error (.refused (.leftOver 2)) := by
  have h : evaluate (.register [("x", .single (.real 3))])
      [.var "x", .number 1, .operator (.binary .add)] = .ok (.scalar (3 + 1)) := rfl
  exact ⟨h, evaluate_expand h "x" _, rfl⟩

end Reckon.Postfix
