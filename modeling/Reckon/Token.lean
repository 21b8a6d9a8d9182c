import Reckon.Operator
import Reckon.Number.Spelling

/-! # Tokens

    A postfix sequence is a list of tokens: numbers, variables and operators, each operator after
    its operands. A *stray* is what only claims to be a token. -/

namespace Reckon

/-- One unit of a postfix sequence. -/
inductive Token where
  /-- a literal or a named constant -/
  | number (x : Float)
  /-- a name that is looked up during evaluation -/
  | var (name : String)
  /-- an operator that takes its operands from what came before -/
  | operator (op : Operator)
  deriving DecidableEq

namespace Token

/-- The mark in front of a variable in postfix text, which keeps names apart from functions,
    constants and number words. -/
def variableMark : Char := '$'

/-- The written form of a token. -/
def chars : Token → List Char
  | number x => Spelling.chars x
  | var name => variableMark :: name.toList
  | operator op => op.symbol

end Token

/-- What is no token, with its tag in the form in which messages show it. -/
inductive Stray where
  /-- a binary operator that does not exist -/
  | binary (tag : String)
  /-- a unary operator that does not exist -/
  | unary (tag : String)
  /-- a function that does not exist -/
  | function (tag : String)
  /-- an item of a type that does not exist -/
  | item (type value : String)
  deriving DecidableEq, Repr

end Reckon
