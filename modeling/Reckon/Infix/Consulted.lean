import Reckon.Infix.Conversion

/-! # Which operators a reading consults

    Precedences are looked up only where a binary operator meets what waits: its own, and those of
    the waiting operators from the top down to the first that does not yield. A reading is possible
    without the rest of the operator table. -/

namespace Reckon.Infix

/-- The waiting operators that are compared with a binary operator. -/
def compared (op : Binary) : List Waiting → List Operator
  | .operator (.function _) :: _ => []
  | .operator other :: below =>
    other :: (if Waiting.yieldsTo op (.operator other) then compared op below else [])
  | _ => []

/-- The operators whose precedence one lexeme asks for. -/
def consultedBy (s : State) (lexeme : Lexeme) : List Operator :=
  match lexeme with
  | .sign op => if s.operandRead then .binary op :: compared op s.waiting else []
  | _ => []

/-- The operators whose precedence a reading asks for, as far as it gets. -/
def consulted (allowVariables : Bool) (s : State) : List Placed → List Operator
  | [] => []
  | placed :: rest =>
    consultedBy s placed.lexeme ++
      match step allowVariables s placed with
      | .error _ => []
      | .ok (next, _) => consulted allowVariables next rest

end Reckon.Infix
