import Mathlib.Data.List.Forall2
import Reckon.Postfix.Depth
import Reckon.Postfix.Evaluation

/-! # Evaluations that agree

    One sequence is evaluated under two bindings. Let a relation between values be kept by all
    operators, and let every name in the sequence stand for two values in the relation or be refused
    alike. Then the two evaluations end alike, in the same refusal or in two values in the relation
    (`evaluate_agree`): no token can tell the two stacks apart, because both have the same length.

    A value is left by complete sequences only (`isComplete_of_evaluate`). -/

namespace Reckon.Postfix

/-- Two outcomes that are the same refusal, or two results in a relation. -/
inductive Agree {α β : Type} (R : α → β → Prop) : Except Failure α → Except Failure β → Prop
  | refused (r : Refusal) : Agree R (.error (.refused r)) (.error (.refused r))
  | ok {a : α} {b : β} (h : R a b) : Agree R (.ok a) (.ok b)

/-- A relation between values that is kept by all operators. -/
structure Kept (R : Value → Value → Prop) : Prop where
  scalar (x : Float) : R (.scalar x) (.scalar x)
  negate {v w : Value} (h : R v w) : R v.negate w.negate
  function (f : Function) {v w : Value} (h : R v w) : R (v.function f) (w.function f)
  binary (op : Binary) {left left' right right' : Value} (hl : R left left')
    (hr : R right right') : Agree R (Value.binary op left right) (Value.binary op left' right')

theorem Agree.cases {α β : Type} {R : α → β → Prop} {x : Except Failure α} {y : Except Failure β}
    (h : Agree R x y) :
    (∃ r, x = .error (.refused r) ∧ y = .error (.refused r))
      ∨ ∃ a b, x = .ok a ∧ y = .ok b ∧ R a b := by
  cases h with
  | refused r => exact .inl ⟨r, rfl, rfl⟩
  | ok h => exact .inr ⟨_, _, rfl, rfl, h⟩

/-- Agreement is kept by functions that keep the relation. -/
theorem Agree.map {α β γ δ : Type} {R : α → β → Prop} {S : γ → δ → Prop} {x : Except Failure α}
    {y : Except Failure β} {f : α → γ} {g : β → δ} (h : Agree R x y)
    (hf : ∀ a b, R a b → S (f a) (g b)) : Agree S (x.map f) (y.map g) := by
  cases h with
  | refused r => exact .refused r
  | ok h => exact .ok (hf _ _ h)

variable {R : Value → Value → Prop} {bindings bindings' : Bindings} {stack stack' : List Value}

/-! ### One token -/

theorem operate_agree (hR : Kept R) (op : Operator) (hs : List.Forall₂ R stack stack') :
    Agree (List.Forall₂ R) (operate op stack) (operate op stack') := by
  cases op with
  | binary op =>
    rcases hs with _ | ⟨hr, _ | ⟨hl, hrest⟩⟩
    · exact .refused _
    · exact .refused _
    · exact (hR.binary op hl hr).map fun _ _ hv => .cons hv hrest
  | negate =>
    rcases hs with _ | ⟨hv, hrest⟩
    · exact .refused _
    · exact .ok (.cons (hR.negate hv) hrest)
  | function f =>
    rcases hs with _ | ⟨hv, hrest⟩
    · exact .refused _
    · exact .ok (.cons (hR.function f hv) hrest)

theorem step_agree (hR : Kept R) (t : Token)
    (hb : ∀ name, t = .var name → Agree R (bindings.value name) (bindings'.value name))
    (hs : List.Forall₂ R stack stack') :
    Agree (List.Forall₂ R) (step bindings stack (.token t)) (step bindings' stack' (.token t)) := by
  cases t with
  | number x => exact .ok (.cons (hR.scalar x) hs)
  | var name => exact (hb name rfl).map fun _ _ hv => .cons hv hs
  | operator op => exact operate_agree hR op hs

/-! ### Sequences -/

theorem run_agree (hR : Kept R) {tokens : List Token}
    (hb : ∀ name, .var name ∈ tokens → Agree R (bindings.value name) (bindings'.value name))
    (hs : List.Forall₂ R stack stack') :
    Agree (List.Forall₂ R) (run bindings stack (tokens.map .token))
      (run bindings' stack' (tokens.map .token)) := by
  induction tokens generalizing stack stack' with
  | nil => exact .ok hs
  | cons t rest ih =>
    simp only [List.map_cons, run]
    have hfirst : ∀ name, t = .var name → Agree R (bindings.value name) (bindings'.value name) :=
      fun name ht => hb name (ht ▸ List.mem_cons_self)
    rcases (step_agree hR t hfirst hs).cases with ⟨r, h, h'⟩ | ⟨next, next', h, h', hnext⟩
    · rw [h, h']
      exact .refused r
    · rw [h, h']
      exact ih (fun name hname => hb name (List.mem_cons_of_mem t hname)) hnext

theorem result_agree (tokens : List Token) (hs : List.Forall₂ R stack stack') :
    Agree R (result (tokens.map .token) stack) (result (tokens.map .token) stack') := by
  rcases hs with _ | ⟨hv, _ | ⟨hw, hrest⟩⟩
  · exact .refused _
  · exact .ok hv
  · simp only [result, surplus_map_token, List.length_cons, hrest.length_eq]
    exact .refused _

/-- Evaluation ends alike under both bindings. -/
theorem evaluate_agree (hR : Kept R) {tokens : List Token}
    (hb : ∀ name, .var name ∈ tokens → Agree R (bindings.value name) (bindings'.value name)) :
    Agree R (evaluate bindings tokens) (evaluate bindings' tokens) := by
  rw [evaluate, evaluate, evaluateItems, evaluateItems]
  rcases (run_agree hR hb .nil).cases with ⟨r, h, h'⟩ | ⟨final, final', h, h', hs⟩
  · rw [h, h']
    exact .refused r
  · rw [h, h']
    exact result_agree tokens hs

/-! ### Complete sequences -/

theorem length_operate {op : Operator} {next : List Value} (h : operate op stack = .ok next) :
    op.arity ≤ stack.length ∧ next.length = stack.length - op.arity + 1 := by
  cases op with
  | binary op =>
    rcases stack with _ | ⟨right, _ | ⟨left, rest⟩⟩
    · cases h
    · cases h
    · simp only [operate] at h
      cases hv : Value.binary op left right with
      | error f => rw [hv] at h; cases h
      | ok v =>
        rw [hv] at h
        cases h
        exact ⟨Nat.le_add_left 2 rest.length, rfl⟩
  | negate | function =>
    rcases stack with _ | ⟨v, rest⟩
    · cases h
    · cases h
      exact ⟨Nat.le_add_left 1 rest.length, rfl⟩

theorem length_step {t : Token} {next : List Value}
    (h : step bindings stack (.token t) = .ok next) :
    takes t ≤ stack.length ∧ next.length = stack.length - takes t + 1 := by
  cases t with
  | number x =>
    cases h
    exact ⟨Nat.zero_le _, rfl⟩
  | var name =>
    simp only [step] at h
    cases hv : bindings.value name with
    | error f => rw [hv] at h; cases h
    | ok v =>
      rw [hv] at h
      cases h
      exact ⟨Nat.zero_le _, rfl⟩
  | operator op => exact length_operate h

/-- What an evaluation leaves is as deep as the sequence says. -/
theorem depthFrom?_eq_of_run {tokens : List Token} {final : List Value}
    (h : run bindings stack (tokens.map .token) = .ok final) :
    depthFrom? stack.length tokens = some final.length := by
  induction tokens generalizing stack with
  | nil =>
    cases h
    rfl
  | cons t rest ih =>
    rw [List.map_cons, run] at h
    cases hs : step bindings stack (.token t) with
    | error f => rw [hs] at h; cases h
    | ok next =>
      rw [hs] at h
      obtain ⟨hle, hlen⟩ := length_step hs
      rw [depthFrom?, if_neg (Nat.not_lt.mpr hle), ← hlen]
      exact ih h

/-- A sequence that has a value is complete. -/
theorem isComplete_of_evaluate {tokens : List Token} {v : Value}
    (h : evaluate bindings tokens = .ok v) : isComplete tokens = true := by
  rw [evaluate, evaluateItems] at h
  cases hr : run bindings [] (tokens.map .token) with
  | error f => rw [hr] at h; cases h
  | ok final =>
    rw [hr] at h
    rcases final with _ | ⟨w, _ | ⟨w', rest⟩⟩
    · cases h
    · rw [isComplete, show depthFrom? 0 tokens = some 1 from depthFrom?_eq_of_run hr]
      rfl
    · cases h

end Reckon.Postfix
