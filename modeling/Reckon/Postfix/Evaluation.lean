import Reckon.Binding
import Reckon.Item
import Reckon.Journal
import Reckon.Postfix.Words

/-! # Evaluating postfix sequences

    A sequence is read once with a stack of values: an operand is put on top, an operator takes its
    operands from the top, the right one first, and puts its result there. Evaluation ends at the
    first item that fails; the sequence is worth the one value that is left.

    Main definitions: `Postfix.evaluateItems` for any sequence, `Postfix.evaluate` for tokens. -/

namespace Reckon.Postfix

/-- An operator on the top of the stack. -/
def operate (op : Operator) (stack : List Value) : Except Failure (List Value) :=
  match op, stack with
  | .binary binary, right :: left :: rest => (Value.binary binary left right).map (· :: rest)
  | .negate, v :: rest => .ok (v.negate :: rest)
  | .function f, v :: rest => .ok (v.function f :: rest)
  | op, _ => .error (.refused (.missingOperand op.type op))

/-- An operator that lacks an operand is refused. -/
theorem operate_short (op : Operator) {stack : List Value} (h : stack.length < op.arity) :
    operate op stack = .error (.refused (.missingOperand op.type op)) := by
  cases op with
  | binary op =>
    rcases stack with _ | ⟨right, _ | ⟨left, rest⟩⟩
    · rfl
    · rfl
    · exact absurd h (Nat.not_lt.mpr (Nat.le_add_left 2 _))
  | negate | function =>
    rcases stack with _ | ⟨v, rest⟩
    · rfl
    · exact absurd h (Nat.not_lt.mpr (Nat.le_add_left 1 _))

/-- An operator in a token of a type, on the top of the stack. The type tells how many values have
    to be there, and an operator that takes another number of them cannot be applied. -/
def operateAs (type : OperatorType) (op : Operator) (stack : List Value) :
    Except Failure (List Value) :=
  if stack.length < type.arity then .error (.refused (.missingOperand type op))
  else if op.arity = type.arity then operate op stack
  else .error .wrongKind

/-- In a token of its own type an operator is applied as such. -/
theorem operateAs_type (op : Operator) (stack : List Value) :
    operateAs op.type op stack = operate op stack := by
  rw [operateAs, Operator.arity_type, if_pos rfl]
  split
  · next h => exact (operate_short op h).symm
  · rfl

/-- One item. -/
def step (bindings : Bindings) (stack : List Value) : Item → Except Failure (List Value)
  | .token (.number x) => .ok (.scalar x :: stack)
  | .token (.var name) => (bindings.value name).map (· :: stack)
  | .token (.operator op) => operate op stack
  | .misplaced type op _ => operateAs type op stack
  | .array t => .ok (.array t :: stack)
  | .unnamed shown composite => .error (bindings.failure shown composite)
  | .stray s | .composite s@(.item _ _) => .error (.refused (.stray s))
  | .composite _ => .error .wrongKind

/-- Items, one after another. -/
def run (bindings : Bindings) (stack : List Value) : List Item → Except Failure (List Value)
  | [] => .ok stack
  | item :: rest =>
    match step bindings stack item with
    | .error f => .error f
    | .ok next => run bindings next rest

/-- Items one after another: the second part starts from the stack that the first one leaves. -/
theorem run_append (bindings : Bindings) (stack : List Value) (first second : List Item) :
    run bindings stack (first ++ second)
      = match run bindings stack first with
        | .error f => .error f
        | .ok next => run bindings next second := by
  induction first generalizing stack with
  | nil => rfl
  | cons item rest ih =>
    simp only [List.cons_append, run]
    cases step bindings stack item with
    | error f => rfl
    | ok next => exact ih next

/-- The failure of a sequence that leaves several values. The journal shows the sequence, so it has
    to have a written form. -/
def surplus (items : List Item) (count : Nat) : Failure :=
  match tokensBy Item.written items with
  | .error f => f
  | .ok _ => .refused (.leftOver count)

/-- The one value that a sequence leaves. -/
def result (items : List Item) : List Value → Except Failure Value
  | [] => .error (.refused .empty)
  | [v] => .ok v
  | stack => .error (surplus items stack.length)

/-- What a sequence of items is worth. -/
def evaluateItems (bindings : Bindings) (items : List Item) : Except Failure Value :=
  match run bindings [] items with
  | .error f => .error f
  | .ok stack => result items stack

/-- What a sequence of tokens is worth. -/
def evaluate (bindings : Bindings) (tokens : List Token) : Except Failure Value :=
  evaluateItems bindings (tokens.map .token)

/-- What the outcome of an evaluation leaves in the journal. -/
def entries (items : List Item) : Except Failure Value → List Entry
  | .error (.refused (.missingOperand _ op)) =>
    [⟨.debug, .evaluation, "Insufficient operands for " ++ String.ofList op.symbol⟩]
  | .error (.refused (.leftOver count)) =>
    [⟨.debug, .evaluation,
      "Stack has " ++ toString count ++ " elements after evaluation, expected 1; RPN expression: "
        ++ format ((tokensBy Item.written items).toOption.getD [])⟩]
  | _ => []

/-- Items with a written form that leave several values are refused. -/
theorem surplus_of_written {items : List Item} {tokens : List Token}
    (h : tokensBy Item.written items = .ok tokens) (count : Nat) :
    surplus items count = .refused (.leftOver count) := by
  rw [surplus, h]

theorem surplus_map_token (tokens : List Token) (count : Nat) :
    surplus (tokens.map .token) count = .refused (.leftOver count) :=
  surplus_of_written (tokensBy_map_token (fun _ => rfl) tokens) count

/-- The evaluation of a sequence of items, with its journal. -/
def calculate (bindings : Bindings) (items : List Item) : Logged Value :=
  let outcome := evaluateItems bindings items
  ⟨entries items outcome, outcome⟩

end Reckon.Postfix
