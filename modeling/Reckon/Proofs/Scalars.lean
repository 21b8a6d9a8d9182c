import Reckon.Postfix.Depth
import Reckon.Postfix.Evaluation

/-! # Evaluation with single doubles

    As long as the variables of a sequence stand for single doubles, every operation succeeds, and
    only the depth of the value stack decides. Where the depth is defined, evaluation leaves so
    many doubles; where values run short, it fails at the operator that lacks one. So a sequence is
    worth a double if it is complete and is refused otherwise. -/

namespace Reckon.Postfix

variable {bindings : Bindings} {stack : List Value} {tokens : List Token}

/-- The variables of a sequence stand for single doubles. -/
def ScalarVariables (bindings : Bindings) (tokens : List Token) : Prop :=
  ∀ name, .var name ∈ tokens → ∃ x, bindings.value name = .ok (.scalar x)

/-- A stack of single doubles. -/
def AllScalars (stack : List Value) : Prop :=
  ∀ v ∈ stack, ∃ x, v = .scalar x

theorem allScalars_cons {v : Value} :
    AllScalars (v :: stack) ↔ (∃ x, v = .scalar x) ∧ AllScalars stack :=
  List.forall_mem_cons

theorem ScalarVariables.of_cons {t : Token} (h : ScalarVariables bindings (t :: tokens)) :
    ScalarVariables bindings tokens :=
  fun name hname => h name (List.mem_cons_of_mem t hname)

/-! ### One token -/

/-- An operator that finds its operands replaces them by one double. -/
theorem operate_scalars (op : Operator) (hs : AllScalars stack) (h : op.arity ≤ stack.length) :
    ∃ next, operate op stack = .ok next ∧ AllScalars next
      ∧ next.length = stack.length - op.arity + 1 := by
  cases op with
  | binary op =>
    rcases stack with _ | ⟨right, _ | ⟨left, rest⟩⟩
    · cases h
    · cases Nat.le_of_succ_le_succ h
    · obtain ⟨⟨y, rfl⟩, hleft⟩ := allScalars_cons.mp hs
      obtain ⟨⟨x, rfl⟩, hrest⟩ := allScalars_cons.mp hleft
      have hb : ∃ z, Value.binary op (.scalar x) (.scalar y) = .ok (.scalar z) := by
        cases op <;> exact ⟨_, rfl⟩
      obtain ⟨z, hz⟩ := hb
      refine ⟨.scalar z :: rest, ?_, allScalars_cons.mpr ⟨⟨z, rfl⟩, hrest⟩, rfl⟩
      rw [operate, hz]
      rfl
  | negate | function =>
    rcases stack with _ | ⟨v, rest⟩
    · cases h
    · obtain ⟨⟨x, rfl⟩, hrest⟩ := allScalars_cons.mp hs
      exact ⟨_, rfl, allScalars_cons.mpr ⟨⟨_, rfl⟩, hrest⟩, rfl⟩

/-- A token that finds its operands leaves doubles only. -/
theorem step_scalars {t : Token} (hs : AllScalars stack) (h : takes t ≤ stack.length)
    (hv : ScalarVariables bindings (t :: tokens)) :
    ∃ next, step bindings stack (.token t) = .ok next ∧ AllScalars next
      ∧ next.length = stack.length - takes t + 1 := by
  cases t with
  | number x => exact ⟨_, rfl, allScalars_cons.mpr ⟨⟨x, rfl⟩, hs⟩, rfl⟩
  | var name =>
    obtain ⟨x, hx⟩ := hv name List.mem_cons_self
    refine ⟨.scalar x :: stack, ?_, allScalars_cons.mpr ⟨⟨x, rfl⟩, hs⟩, rfl⟩
    rw [step, hx]
    rfl
  | operator op => exact operate_scalars op hs h

/-- A token that lacks operands is an operator, and refused. -/
theorem step_short {t : Token} (h : stack.length < takes t) :
    ∃ op, step bindings stack (.token t)
      = .error (.refused (.missingOperand (Operator.type op) op)) := by
  cases t with
  | number | var => cases h
  | operator op => exact ⟨op, operate_short op h⟩

/-! ### Sequences -/

/-- Where the depth is defined, evaluation leaves so many doubles. -/
theorem run_scalars {d : Nat} (hs : AllScalars stack) (hv : ScalarVariables bindings tokens)
    (h : depthFrom? stack.length tokens = some d) :
    ∃ final, run bindings stack (tokens.map .token) = .ok final ∧ AllScalars final
      ∧ final.length = d := by
  induction tokens generalizing stack with
  | nil => exact ⟨stack, rfl, hs, Option.some.inj h⟩
  | cons t rest ih =>
    rw [depthFrom?] at h
    split at h
    · cases h
    · next hge =>
      obtain ⟨next, hstep, hnext, hlen⟩ := step_scalars hs (Nat.not_lt.mp hge) hv
      rw [← hlen] at h
      rw [List.map_cons, run, hstep]
      exact ih hnext hv.of_cons h

/-- Where values run short, evaluation is refused. -/
theorem run_short (hs : AllScalars stack) (hv : ScalarVariables bindings tokens)
    (h : depthFrom? stack.length tokens = none) :
    ∃ op, run bindings stack (tokens.map .token)
      = .error (.refused (.missingOperand (Operator.type op) op)) := by
  induction tokens generalizing stack with
  | nil => cases h
  | cons t rest ih =>
    rw [depthFrom?] at h
    split at h
    · next hlt =>
      obtain ⟨op, hstep⟩ : ∃ op, step bindings stack (.token t) = _ := step_short hlt
      exact ⟨op, by rw [List.map_cons, run, hstep]⟩
    · next hge =>
      obtain ⟨next, hstep, hnext, hlen⟩ := step_scalars hs (Nat.not_lt.mp hge) hv
      rw [← hlen] at h
      rw [List.map_cons, run, hstep]
      exact ih hnext hv.of_cons h

/-- A complete sequence is worth a double. -/
theorem evaluate_of_isComplete (hv : ScalarVariables bindings tokens)
    (h : isComplete tokens = true) : ∃ x, evaluate bindings tokens = .ok (.scalar x) := by
  have hd : depthFrom? ([] : List Value).length tokens = some 1 := eq_of_beq h
  obtain ⟨final, hr, hs, hlen⟩ := run_scalars (List.forall_mem_nil _) hv hd
  obtain ⟨v, rfl⟩ := List.length_eq_one_iff.mp hlen
  obtain ⟨x, rfl⟩ := hs v List.mem_cons_self
  refine ⟨x, ?_⟩
  rw [evaluate, evaluateItems, hr]
  rfl

/-- A sequence that is not complete is refused. -/
theorem evaluate_of_not_isComplete (hv : ScalarVariables bindings tokens)
    (h : isComplete tokens = false) : ∃ r, evaluate bindings tokens = .error (.refused r) := by
  cases hd : depthFrom? ([] : List Value).length tokens with
  | none =>
    obtain ⟨op, hr⟩ := run_short (List.forall_mem_nil _) hv hd
    refine ⟨.missingOperand op.type op, ?_⟩
    rw [evaluate, evaluateItems, hr]
  | some d =>
    obtain ⟨final, hr, hs, rfl⟩ := run_scalars (List.forall_mem_nil _) hv hd
    rw [evaluate, evaluateItems, hr]
    rcases final with _ | ⟨v, _ | ⟨w, rest⟩⟩
    · exact ⟨.empty, rfl⟩
    · rw [isComplete, show depthFrom? 0 tokens = some 1 from hd] at h
      cases h
    · exact ⟨.leftOver _, congrArg Except.error (surplus_map_token tokens _)⟩

end Reckon.Postfix
