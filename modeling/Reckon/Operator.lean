import Reckon.Number.Decimal

/-! # Operators, brackets and constants

    The operators are five binary ones, negation, and five functions of one argument. Each has a
    written symbol, a precedence and a number of operands. Precedences order the operators that
    compete for an operand: a higher one binds tighter, and only the power groups to the right.
    Negation stands between the sums and the products, so `-5^2` is `-(5^2)`. -/

namespace Reckon

/-- The operators between two operands. -/
inductive Binary where
  | add | sub | mul | div | pow
  deriving DecidableEq, Repr

/-- The functions of one argument. -/
inductive Function where
  | sin | cos | tan | sqrt | ln
  deriving DecidableEq, Repr

/-- All operators. -/
inductive Operator where
  | binary (op : Binary)
  | negate
  | function (f : Function)
  deriving DecidableEq, Repr

/-- The types that tokens of operators have. -/
inductive OperatorType where
  | binary | unary | function
  deriving DecidableEq, Repr

/-- How many values a token of a type takes. -/
def OperatorType.arity : OperatorType → Nat
  | binary => 2
  | unary => 1
  | function => 1

namespace Binary

/-- The binary operators in the order of the operator table. -/
def all : List Binary := [add, sub, mul, div, pow]

/-- The character that an operator is written with. -/
def char : Binary → Char
  | add => '+'
  | sub => '-'
  | mul => '*'
  | div => '/'
  | pow => '^'

/-- The operator that a character writes. -/
def ofChar? (c : Char) : Option Binary :=
  all.find? fun op => op.char = c

theorem char_of_ofChar? {c : Char} {op : Binary} (h : ofChar? c = some op) : op.char = c := by
  have hchar := List.find?_some h
  exact of_decide_eq_true hchar

/-- How tightly a binary operator binds. -/
def precedence : Binary → Nat
  | add | sub => 2
  | mul | div => 4
  | pow => 5

/-- Whether a chain of the operator groups to the right. -/
def groupsRight : Binary → Bool
  | pow => true
  | _ => false

/-- The name of an operator among the binary ones. -/
def label : Binary → String
  | add => "ADD"
  | sub => "SUB"
  | mul => "MUL"
  | div => "DIV"
  | pow => "POW"

end Binary

namespace Function

/-- The functions in the order of the operator table. -/
def all : List Function := [sin, cos, tan, sqrt, ln]

/-- The word that a function is written with. -/
def name : Function → String
  | sin => "sin"
  | cos => "cos"
  | tan => "tan"
  | sqrt => "sqrt"
  | ln => "ln"

/-- The function that a word names. -/
def ofName? (word : List Char) : Option Function :=
  all.find? fun f => f.name.toList = word

theorem ofName?_eq_some_iff {word : List Char} {f : Function} :
    ofName? word = some f ↔ f.name.toList = word := by
  constructor
  · intro h
    have hname := List.find?_some h
    exact of_decide_eq_true hname
  · rintro rfl
    cases f <;> decide

/-- The name of a function among the functions. -/
def label : Function → String
  | sin => "SIN"
  | cos => "COS"
  | tan => "TAN"
  | sqrt => "SQRT"
  | ln => "LN"

end Function

namespace Operator

/-- The operator table, in its order. -/
def table : List Operator :=
  Function.all.map function ++ Binary.all.map binary ++ [negate]

/-- The operators in the order in which the table is checked for completeness. -/
def required : List Operator :=
  Binary.all.map binary ++ [negate] ++ Function.all.map function

/-- What an operator is written with in a postfix text. Negation has a sign of its own there, since
    nothing but the sign tells it from subtraction. -/
def symbol : Operator → List Char
  | binary op => [op.char]
  | negate => ['~']
  | function f => f.name.toList

/-- How tightly an operator binds. Functions bind through their brackets and not by precedence. -/
def precedence : Operator → Nat
  | function _ => 1
  | negate => 3
  | binary op => op.precedence

/-- How many operands an operator takes. -/
def arity : Operator → Nat
  | binary _ => 2
  | negate => 1
  | function _ => 1

/-- The type of an operator's own tokens. -/
def type : Operator → OperatorType
  | binary _ => .binary
  | negate => .unary
  | function _ => .function

@[simp] theorem arity_type (op : Operator) : op.type.arity = op.arity := by
  cases op <;> rfl

/-- Whether a chain of the operator groups to the right. -/
def groupsRight : Operator → Bool
  | binary op => op.groupsRight
  | _ => false

/-- The class that an operator belongs to. -/
def family : Operator → String
  | binary _ => "BinaryOperator"
  | negate => "UnaryOperator"
  | function _ => "Function"

/-- The name of an operator inside its class. -/
def label : Operator → String
  | binary op => op.label
  | negate => "NEG"
  | function f => f.label

/-- The full name of an operator. -/
def fullName (op : Operator) : String :=
  op.family ++ "." ++ op.label

end Operator

/-- The two families of brackets. -/
inductive Bracket where
  | round | square
  deriving DecidableEq, Repr

namespace Bracket

/-- The two families. -/
def all : List Bracket := [round, square]

/-- The bracket that begins a group. -/
def opening : Bracket → Char
  | round => '('
  | square => '['

/-- The bracket that ends a group. -/
def closing : Bracket → Char
  | round => ')'
  | square => ']'

/-- The family of an opening bracket. -/
def ofOpening? (c : Char) : Option Bracket :=
  all.find? fun b => b.opening = c

theorem opening_of_ofOpening? {c : Char} {b : Bracket} (h : ofOpening? c = some b) :
    b.opening = c := by
  have hchar := List.find?_some h
  exact of_decide_eq_true hchar

/-- The family of a closing bracket. -/
def ofClosing? (c : Char) : Option Bracket :=
  all.find? fun b => b.closing = c

theorem closing_of_ofClosing? {c : Char} {b : Bracket} (h : ofClosing? c = some b) :
    b.closing = c := by
  have hchar := List.find?_some h
  exact of_decide_eq_true hchar

/-- The name of a family. -/
def label : Bracket → String
  | round => "PAREN"
  | square => "SQUARE"

end Bracket

/-- The double nearest to the ratio of a circle's circumference to its diameter. -/
def circleRatio : Float := Decimal.toFloat false ⟨3141592653589793, -15⟩

/-- The double nearest to the base of the natural logarithm. -/
def logarithmBase : Float := Decimal.toFloat false ⟨2718281828459045, -15⟩

/-- The named constants; case matters. -/
def constants : List (String × Float) :=
  [("pi", circleRatio), ("PI", circleRatio), ("e", logarithmBase)]

/-- The constant that a word names. -/
def constant? (word : List Char) : Option Float :=
  (constants.find? fun entry => entry.1.toList = word).map (·.2)

end Reckon
