import Reckon.Infix.Consulted
import Reckon.Postfix.Depth
import Reckon.Postfix.Evaluation
import Reckon.Settings

/-! # Expressions under settings

    An expression is read under settings in three steps: it has to be a text, the text must not be
    longer than the limit, and then it is converted. What it is worth is what its postfix sequence
    is worth. An operator that the settings do not define cannot be compared while an expression is
    read, has no place on the value stack, and is a stray item during evaluation.

    Main definitions: `Expression.read` and `Expression.evaluate`. -/

namespace Reckon.Expression

/-- The tokens of a text that is short enough. -/
def convert (settings : Settings) (allowVariables : Bool) (text : String) :
    Except Failure (List Token) :=
  let consulted := Infix.consulted allowVariables .start (Lexeme.lexemes text.toList)
  if consulted.all settings.defines then
    (Infix.convert allowVariables text).mapError .refused
  else .error .noEntry

/-- The tokens of an expression. -/
def tokens (settings : Settings) (allowVariables : Bool) : Datum → Except Failure (List Token)
  | .text text =>
    match Settings.exceeds text.length settings.lengthLimit with
    | .error f => .error f
    | .ok true => .error (.refused (.tooLong text.length settings.lengthLimit.plain))
    | .ok false => convert settings allowVariables text
  | d => .error (.notText d.kind)

/-- What the outcome of a reading leaves in the journal. -/
def entries : Except Failure (List Token) → List Entry
  | .ok tokens => [⟨.debug, .conversion, "RPN expression: " ++ Postfix.format tokens⟩]
  | .error _ => []

/-- The tokens of an expression, with the journal. -/
def read (settings : Settings) (allowVariables : Bool) (expression : Datum) :
    Logged (List Token) :=
  let outcome := tokens settings allowVariables expression
  ⟨entries outcome, outcome⟩

/-- What an operator that is not defined tells about itself. -/
def undefinedTag (op : Operator) : String :=
  "<" ++ op.fullName ++ ": " ++ Text.quoted (String.ofList op.symbol) ++ ">"

/-- An operator that is not defined, as an item of a type. -/
def undefined (op : Operator) : OperatorType → Stray
  | .binary => .binary (undefinedTag op)
  | .unary => .unary (undefinedTag op)
  | .function => .function (undefinedTag op)

/-- A token as an item under the settings. -/
def item (settings : Settings) : Token → Item
  | .operator op =>
    if settings.defines op then .token (.operator op) else .stray (undefined op op.type)
  | t => .token t

/-- An item under the settings. -/
def known (settings : Settings) : Item → Item
  | .token t => item settings t
  | .misplaced type op h =>
    if settings.defines op then .misplaced type op h else .stray (undefined op type)
  | other => other

/-- What items are worth under the settings, with the journal. -/
def calculate (settings : Settings) (bindings : Bindings) (items : List Item) : Logged Value :=
  Postfix.calculate bindings (items.map (known settings))

/-- The tokens that have the places of items on the value stack, if all have one. -/
def placed (settings : Settings) (items : List Item) : Except Failure (List Token) :=
  tokensBy Item.placed (items.map (known settings))

/-- What an expression is worth, with the journal. -/
def evaluate (settings : Settings) (allowVariables : Bool) (bindings : Bindings)
    (expression : Datum) : Logged Value := do
  let tokens ← read settings allowVariables expression
  calculate settings bindings (tokens.map .token)

end Reckon.Expression
