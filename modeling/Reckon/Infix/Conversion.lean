import Reckon.Infix.Lexeme
import Reckon.Refusal

/-! # From infix to postfix

    The lexemes of an expression are read once, from left to right. Operands go to the output at
    once; operators wait on a stack until their right operand is complete. A binary operator sends
    out the waiting operators that bind at least as tightly as itself (the power: more tightly), a
    closing bracket those that wait above its opening bracket and the function in front of that, and
    the end of the expression all the rest. A sign stands between operands exactly if an operand
    was read last; elsewhere a minus negates what follows and a plus does nothing.

    Reading does not ask for operands and operators to alternate: whether every operator finds its
    operands shows in the postfix sequence.

    Main definition: `Infix.convert`. -/

namespace Reckon.Infix

/-- What waits on the stack. -/
inductive Waiting where
  | operator (op : Operator)
  | bracket (bracket : Bracket) (position : Nat)
  deriving DecidableEq, Repr

namespace Waiting

/-- The operator that waits, if it is one. -/
def operator? : Waiting → Option Operator
  | operator op => some op
  | bracket _ _ => none

/-- Whether a waiting entry goes out before the binary operator `op` takes its place. Brackets and
    functions never do. -/
def yieldsTo (op : Binary) : Waiting → Bool
  | operator (.function _) => false
  | operator other =>
    if op.groupsRight then op.precedence < other.precedence else op.precedence ≤ other.precedence
  | bracket _ _ => false

end Waiting

/-- The state of a reading: whether an operand was read last, and what waits, the latest first. -/
structure State where
  operandRead : Bool
  waiting : List Waiting
  deriving DecidableEq, Repr

namespace State

/-- Before the first lexeme. -/
def start : State := ⟨false, []⟩

end State

/-- What one lexeme leads to: the next state and the tokens sent out. -/
abbrev Step := Except Refusal (State × List Token)

/-- The tokens of waiting entries, in order. -/
def sent (entries : List Waiting) : List Token :=
  entries.filterMap fun entry => entry.operator?.map Token.operator

/-- A name: a constant, or else a variable where they are allowed. -/
def identifier (allowVariables : Bool) (name : List Char) (position : Nat) :
    Except Refusal Token :=
  match constant? name with
  | some x => .ok (.number x)
  | none =>
    if allowVariables then .ok (.var (String.ofList name))
    else .error (.unknownConstant name position)

/-- An operator sign between operands. -/
def between (op : Binary) (waiting : List Waiting) : State × List Token :=
  (⟨false, .operator (.binary op) :: waiting.dropWhile (Waiting.yieldsTo op)⟩,
    sent (waiting.takeWhile (Waiting.yieldsTo op)))

/-- An operator sign where an operand is expected. -/
def leading (op : Binary) (position : Nat) (waiting : List Waiting) : Step :=
  match op with
  | .sub => .ok (⟨false, .operator .negate :: waiting⟩, [])
  | .add => .ok (⟨false, waiting⟩, [])
  | _ => .error (.notUnary op position)

/-- The function that waits on top, if one does, and what waits below it. -/
def calledFunction : List Waiting → List Token × List Waiting
  | .operator (.function f) :: below => ([.operator (.function f)], below)
  | waiting => ([], waiting)

/-- A closing bracket. -/
def close (bracket : Bracket) (position : Nat) (waiting : List Waiting) : Step :=
  let isOperator (entry : Waiting) : Bool := entry.operator?.isSome
  match waiting.dropWhile isOperator with
  | .bracket opened openedAt :: below =>
    if opened = bracket then
      let (called, rest) := calledFunction below
      .ok (⟨true, rest⟩, sent (waiting.takeWhile isOperator) ++ called)
    else .error (.mismatched opened openedAt bracket position)
  | _ => .error (.unopened bracket position)

/-- One lexeme. -/
def step (allowVariables : Bool) (s : State) (placed : Placed) : Step :=
  match placed.lexeme with
  | .number whole fraction =>
    .ok (⟨true, s.waiting⟩, [.number (Lexeme.value whole fraction)])
  | .name letters =>
    (identifier allowVariables letters placed.position).map fun t => (⟨true, s.waiting⟩, [t])
  | .call letters =>
    match Function.ofName? letters with
    | some f => .ok (⟨false, .operator (.function f) :: s.waiting⟩, [])
    | none => .error (.unknownFunction letters placed.position)
  | .sign op =>
    if s.operandRead then .ok (between op s.waiting) else leading op placed.position s.waiting
  | .opening bracket => .ok (⟨false, .bracket bracket placed.position :: s.waiting⟩, [])
  | .closing bracket => close bracket placed.position s.waiting
  | .stray c => .error (.strayCharacter c placed.position)

/-- The end of the expression: what waits goes out, unless a bracket is left open. -/
def finish : List Waiting → Except Refusal (List Token)
  | [] => .ok []
  | .operator op :: below => (finish below).map (.operator op :: ·)
  | .bracket bracket position :: _ => .error (.unclosed bracket position)

/-- The tokens sent out from a state on, by the given lexemes and the end after them. -/
def run (allowVariables : Bool) (s : State) : List Placed → Except Refusal (List Token)
  | [] => finish s.waiting
  | placed :: rest =>
    match step allowVariables s placed with
    | .error r => .error r
    | .ok (next, out) => (run allowVariables next rest).map (out ++ ·)

/-- The postfix sequence of an expression. Names that are no constants are variables if
    `allowVariables` says so, and are refused otherwise. -/
def convert (allowVariables : Bool) (text : String) : Except Refusal (List Token) :=
  run allowVariables State.start (Lexeme.lexemes text.toList)

end Reckon.Infix
