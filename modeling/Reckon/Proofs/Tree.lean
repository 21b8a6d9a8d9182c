import Reckon.Postfix.Depth
import Reckon.Postfix.Evaluation

/-! # Expression trees

    A postfix sequence writes a tree down without brackets: operands stand for themselves, and an
    operator comes after the sequences of its operands. `Tree.postorder` writes a tree, and
    `Tree.value` evaluates it by recursion, the left operand first. Reading a sequence with a stack
    of trees takes a written tree back off, so no sequence writes two trees, and the sequences that
    write one are those that never run short and leave one value. Evaluation with a stack of values
    is then evaluation of the tree, failures included.

        postorder:   1 x 2 ^ ~ +       tree:   1 + -(x ^ 2) -/

namespace Reckon

/-- An expression without brackets: what every operator takes is in its place below it. -/
inductive Tree where
  | number (x : Float)
  | var (name : String)
  | binary (op : Binary) (left right : Tree)
  | negate (operand : Tree)
  | function (f : Function) (operand : Tree)
  deriving DecidableEq

namespace Tree

/-- The postfix sequence of a tree: the left operand, the right operand, the operator. -/
def postorder : Tree → List Token
  | number x => [.number x]
  | var name => [.var name]
  | binary op l r => l.postorder ++ r.postorder ++ [.operator (.binary op)]
  | negate t => t.postorder ++ [.operator .negate]
  | function f t => t.postorder ++ [.operator (.function f)]

/-- The worth of a tree: the left operand first, then the right one, then the operator on both. The
    first failure ends it. -/
def value (bindings : Bindings) : Tree → Except Failure Value
  | number x => .ok (.scalar x)
  | var name => bindings.value name
  | binary op l r =>
    match l.value bindings with
    | .error f => .error f
    | .ok a =>
      match r.value bindings with
      | .error f => .error f
      | .ok b => Value.binary op a b
  | negate t => (t.value bindings).map Value.negate
  | function f t => (t.value bindings).map (Value.function f)

/-- One token on a stack of trees, if the stack holds what the token takes. -/
def push? (stack : List Tree) : Token → Option (List Tree)
  | .number x => some (number x :: stack)
  | .var name => some (var name :: stack)
  | .operator (.binary op) =>
    match stack with
    | r :: l :: rest => some (binary op l r :: rest)
    | _ => none
  | .operator .negate =>
    match stack with
    | t :: rest => some (negate t :: rest)
    | [] => none
  | .operator (.function f) =>
    match stack with
    | t :: rest => some (function f t :: rest)
    | [] => none

/-- The trees that a sequence leaves on a stack of trees, unless they run short. -/
def read? (stack : List Tree) : List Token → Option (List Tree)
  | [] => some stack
  | t :: rest =>
    match push? stack t with
    | none => none
    | some next => read? next rest

/-- The sequence that writes a stack of trees, from the bottom to the top. -/
def written : List Tree → List Token
  | [] => []
  | t :: below => written below ++ t.postorder

/-! ### Reading back what a tree writes -/

/-- A written tree is taken back off as a whole, whatever lies below it and comes after it. -/
theorem read?_postorder_append (t : Tree) (stack : List Tree) (rest : List Token) :
    read? stack (t.postorder ++ rest) = read? (t :: stack) rest := by
  induction t generalizing stack rest with
  | number x => rfl
  | var name => rfl
  | binary op l r ihl ihr =>
    simp only [postorder, List.append_assoc]
    rw [ihl, ihr]
    rfl
  | negate t ih =>
    rw [postorder, List.append_assoc, ih]
    rfl
  | function f t ih =>
    rw [postorder, List.append_assoc, ih]
    rfl

/-- Reading the sequence of a tree gives the tree. -/
theorem read?_postorder (t : Tree) : read? [] t.postorder = some [t] := by
  have h := read?_postorder_append t [] []
  rwa [List.append_nil] at h

theorem postorder_injective : Function.Injective postorder := by
  intro t u h
  have ht := read?_postorder t
  rw [h, read?_postorder u] at ht
  simp only [Option.some.injEq, List.cons.injEq, and_true] at ht
  exact ht.symm

/-- One token adds itself to what the stack writes. -/
theorem written_of_push? {stack next : List Tree} {t : Token} (h : push? stack t = some next) :
    written next = written stack ++ [t] := by
  unfold push? at h
  split at h
  case h_1 | h_2 => cases h; rfl
  case h_3 | h_4 | h_5 =>
    split at h
    · cases h
      simp [written, postorder]
    · cases h

/-- What reading leaves writes what was there before and what was read. -/
theorem written_of_read? {stack final : List Tree} {ts : List Token}
    (h : read? stack ts = some final) : written final = written stack ++ ts := by
  induction ts generalizing stack with
  | nil =>
    cases h
    rw [List.append_nil]
  | cons t rest ih =>
    unfold read? at h
    split at h
    · cases h
    next next hp =>
      rw [ih h, written_of_push? hp, List.append_assoc, List.singleton_append]

/-- A token finds what it takes on a stack of trees exactly if the stack is deep enough. -/
theorem length_push? (stack : List Tree) (t : Token) :
    (push? stack t).map List.length
      = if stack.length < Postfix.takes t then none
        else some (stack.length - Postfix.takes t + 1) := by
  rcases t with x | name | (op | _ | f)
  · rfl
  · rfl
  · rcases stack with _ | ⟨r, _ | ⟨l, rest⟩⟩ <;> simp [push?, Postfix.takes, Operator.arity]
  · cases stack <;> simp [push?, Postfix.takes, Operator.arity]
  · cases stack <;> simp [push?, Postfix.takes, Operator.arity]

/-- Reading runs short exactly where the depth does, and leaves as many trees. -/
theorem length_read? (stack : List Tree) (ts : List Token) :
    (read? stack ts).map List.length = Postfix.depthFrom? stack.length ts := by
  induction ts generalizing stack with
  | nil => rfl
  | cons t rest ih =>
    have hl := length_push? stack t
    rw [Postfix.depthFrom?, read?]
    cases hp : push? stack t with
    | none =>
      rw [hp] at hl
      split at hl
      · rw [if_pos ‹_›]
        rfl
      · cases hl
    | some next =>
      rw [hp] at hl
      split at hl
      · cases hl
      · rw [if_neg ‹_›, ← Option.some.inj hl]
        exact ih next

/-- A sequence that starts on an empty stack and leaves one value writes a tree, and no other
    sequence does. -/
theorem isComplete_iff (ts : List Token) :
    Postfix.isComplete ts = true ↔ ∃ t : Tree, t.postorder = ts := by
  have hl := length_read? [] ts
  rw [Postfix.isComplete, beq_iff_eq, ← List.length_nil (α := Tree), ← hl]
  constructor
  · intro h
    obtain ⟨stack, hs, h1⟩ := Option.map_eq_some_iff.mp h
    obtain ⟨t, rfl⟩ := List.length_eq_one_iff.mp h1
    have hw := written_of_read? hs
    exact ⟨t, by simpa [written] using hw⟩
  · rintro ⟨t, rfl⟩
    rw [read?_postorder]
    rfl

/-! ### Evaluation with a stack of values -/

open Postfix in
/-- Running through the sequence of a tree puts its worth on the stack, or ends with its failure. -/
theorem run_postorder_append (bindings : Bindings) (t : Tree) (stack : List Value)
    (rest : List Token) :
    run bindings stack ((t.postorder ++ rest).map .token)
      = match t.value bindings with
        | .error f => .error f
        | .ok v => run bindings (v :: stack) (rest.map .token) := by
  induction t generalizing stack rest with
  | number x => rfl
  | var name =>
    simp only [postorder, value, List.singleton_append, List.map_cons, run, step]
    cases bindings.value name <;> rfl
  | binary op l r ihl ihr =>
    simp only [postorder, value, List.append_assoc]
    rw [ihl]
    cases l.value bindings with
    | error f => rfl
    | ok a =>
      simp only
      rw [ihr]
      cases r.value bindings with
      | error f => rfl
      | ok b =>
        simp only [List.singleton_append, List.map_cons, run, step, operate]
        cases Value.binary op a b <;> rfl
  | negate t ih =>
    rw [postorder, List.append_assoc, ih, value]
    cases t.value bindings <;> rfl
  | function f t ih =>
    rw [postorder, List.append_assoc, ih, value]
    cases t.value bindings <;> rfl

open Postfix in
/-- A sequence that writes a tree is worth what the tree is worth. -/
theorem evaluate_postorder (bindings : Bindings) (t : Tree) :
    evaluate bindings t.postorder = t.value bindings := by
  have h := run_postorder_append bindings t [] []
  rw [List.append_nil] at h
  rw [evaluate, evaluateItems, h]
  cases t.value bindings <;> rfl

end Tree

/-- A sequence is complete exactly if it writes an expression tree; it never writes two; and it is
    worth, under any bindings, what the recursive evaluation of its tree gives: the same value or
    the same first failure. -/
theorem complete_iff_writes_one_tree (ts : List Token) :
    (Postfix.isComplete ts = true ↔ ∃ t : Tree, t.postorder = ts)
      ∧ Function.Injective Tree.postorder
      ∧ ∀ (t : Tree) (bindings : Bindings),
          Postfix.evaluate bindings t.postorder = t.value bindings := by
  refine ⟨Tree.isComplete_iff ts, Tree.postorder_injective, ?_⟩
  intro t bindings
  exact Tree.evaluate_postorder bindings t

end Reckon
