import Reckon.Datum
import Reckon.Journal
import Reckon.Register

/-! # Settings

    Settings are two sections of named data, one for reading expressions and one for formulas, and
    the table of the operators that are defined. A section takes any datum under any name: whether
    the settings make sense is asked by `Settings.validate` and by nothing else. -/

namespace Reckon

/-- The settings of a calculation. -/
structure Settings where
  parser : Register Datum
  formula : Register Datum
  operators : List Operator

namespace Settings

/-- The name of the greatest length of an expression. -/
def lengthName : String := "max_expression_length"

/-- The name of the choice between failing and marking rows as no numbers. -/
def raiseName : String := "raise_errors"

/-- The name of the choice to turn infinities into what is no number. -/
def replaceName : String := "replace_inf"

/-- No limit, no failing formulas, no infinities, and every operator. -/
def standard : Settings where
  parser := [(lengthName, .null)]
  formula := [(raiseName, .bool false), (replaceName, .bool true)]
  operators := Operator.table

/-- The greatest length of an expression; the absent value sets no limit. -/
def lengthLimit (s : Settings) : Datum := (s.parser.find? lengthName).getD .null

/-- Whether formulas fail. -/
def raiseErrors (s : Settings) : Datum := (s.formula.find? raiseName).getD .null

/-- Whether infinities are replaced. -/
def replaceInfinities (s : Settings) : Datum := (s.formula.find? replaceName).getD .null

/-- Whether an operator is defined. -/
def defines (s : Settings) (op : Operator) : Bool := s.operators.contains op

/-- Takes the first operator with the given symbol out of the table. -/
def withdraw (s : Settings) (symbol : String) : Settings :=
  { s with operators := s.operators.eraseP fun op => op.symbol = symbol.toList }

/-- Whether an expression of the given length may be read. Limits are compared as numbers, truth
    values as one and zero; other data cannot be compared with a length. -/
def exceeds (length : Nat) : Datum → Except Failure Bool
  | .null => .ok false
  | .bool b => .ok ((if b then 1 else 0) < length)
  | .int n => .ok (n < (length : Int))
  | .float x => .ok (x < Double.ofNat length)
  | _ => .error .wrongKind

/-- Whether a limit is one that can be kept: none at all, or a positive integer. -/
def isLimit : Datum → Bool
  | .null => true
  | .bool b => b
  | .int n => 0 < n
  | _ => false

/-- Whether a datum is a truth value. -/
def isBool : Datum → Bool
  | .bool _ => true
  | _ => false

/-- Checks the sections first and then that every operator is defined. -/
def check (s : Settings) : Except Failure Unit :=
  if !isLimit s.lengthLimit then
    .error (.invalidSettings (some (lengthName ++ " 必须为正整数或 None")))
  else if !isBool s.raiseErrors || !isBool s.replaceInfinities then .error (.invalidSettings none)
  else
    match Operator.required.find? fun op => !s.defines op with
    | some op => .error (.invalidSettings (some ("操作符表缺少定义: " ++ op.fullName)))
    | none => .ok ()

/-- Checks the settings and notes the success. -/
def validate (s : Settings) : Logged Unit :=
  match s.check with
  | .error f => Logged.fail f
  | .ok () => Logged.note .info .settings "Configuration validated successfully!"

end Settings

end Reckon
