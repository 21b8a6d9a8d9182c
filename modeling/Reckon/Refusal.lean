import Reckon.Operator
import Reckon.Token

/-! # Refusals and failures

    A *refusal* is a fault of an expression, a postfix text or a sequence of tokens. Refusals have
    eight kinds, the last three of which can arise only during evaluation, and each carries what
    caused it. A *report* is what a refusal tells: its kind, a detail, and the position of the
    offending character if the refusal arose while a text was read; the message is made of these.
    A *failure* is a refusal or a fault of the values or settings that came along with the text. -/

namespace Reckon

/-- The kinds of refusals. -/
inductive Kind where
  | unknownSymbol | unknownFunction | unknownConstant | unbalancedParens | expressionTooLong
  | factorExpected | operatorExpected | unknownVariable
  deriving DecidableEq, Repr

namespace Kind

/-- All kinds. -/
def all : List Kind :=
  [unknownSymbol, unknownFunction, unknownConstant, unbalancedParens, expressionTooLong,
   factorExpected, operatorExpected, unknownVariable]

/-- The name of a kind. -/
def name : Kind → String
  | unknownSymbol => "UnknownSymbol"
  | unknownFunction => "UnknownFunction"
  | unknownConstant => "UnknownConstant"
  | unbalancedParens => "UnbalancedParens"
  | expressionTooLong => "ExpressionTooLong"
  | factorExpected => "FactorExpected"
  | operatorExpected => "OperatorExpected"
  | unknownVariable => "UnknownVariable"

/-- Whether refusals of the kind arise during evaluation. -/
def duringEvaluation : Kind → Bool
  | factorExpected | operatorExpected | unknownVariable => true
  | _ => false

end Kind

/-- What a refusal tells. -/
structure Report where
  kind : Kind
  detail : Option String
  position : Option Int
  deriving DecidableEq, Repr

namespace Report

/-- A message: the kind, then the detail unless it is empty, then the position if there is one. -/
def messageOf (kind : Kind) (detail position : Option String) : String :=
  kind.name
    ++ (match detail with
        | some detail => if detail.isEmpty then "" else ": " ++ detail
        | none => "")
    ++ (match position with
        | some position => " (at position " ++ position ++ ")"
        | none => "")

/-- The message of a report. -/
def message (r : Report) : String :=
  messageOf r.kind r.detail (r.position.map toString)

/-- A message without a position is the kind and the detail. -/
theorem message_of_detail {kind : Kind} {detail : String} (h : detail ≠ "") :
    message ⟨kind, some detail, none⟩ = kind.name ++ ": " ++ detail := by
  have hdetail : detail.isEmpty = false := String.isEmpty_eq_false_iff.mpr h
  simp [message, messageOf, hdetail, String.append_assoc]

end Report

/-- The faults of expressions, postfix texts and sequences. -/
inductive Refusal where
  /-- the expression has more characters than the limit, which is shown, allows -/
  | tooLong (length : Nat) (limit : String)
  /-- a character that begins no lexeme -/
  | strayCharacter (c : Char) (position : Nat)
  /-- an operator where an operand is expected -/
  | notUnary (op : Binary) (position : Nat)
  /-- letters directly before a round bracket that name no function -/
  | unknownFunction (name : List Char) (position : Nat)
  /-- letters that name no constant, where variables are not allowed -/
  | unknownConstant (name : List Char) (position : Nat)
  /-- a closing bracket without an opening one -/
  | unopened (bracket : Bracket) (position : Nat)
  /-- a closing bracket of the other family than the opening one it meets -/
  | mismatched (opened : Bracket) (openedAt : Nat) (closed : Bracket) (position : Nat)
  /-- an opening bracket that the end of the expression leaves open -/
  | unclosed (bracket : Bracket) (position : Nat)
  /-- a word of postfix text that is none of its words -/
  | unknownWord (word : List Char)
  /-- an item that is no token -/
  | stray (item : Stray)
  /-- an operator with fewer values before it than a token of its type takes -/
  | missingOperand (type : OperatorType) (op : Operator)
  /-- a sequence without a token -/
  | empty
  /-- a sequence that leaves more than one value -/
  | leftOver (count : Nat)
  /-- a variable, while nothing is bound -/
  | nothingBound (name : String)
  /-- a variable that is not bound -/
  | unbound (name : String)
  deriving DecidableEq, Repr

namespace Refusal

/-- A text between plain single quotes, as details show names and characters. -/
def cited (text : List Char) : String :=
  "'" ++ String.ofList text ++ "'"

/-- What an item that is no token tells about itself. -/
def strayReport : Stray → Report
  | .binary tag => ⟨.unknownSymbol, some ("unknown binary operator " ++ tag), none⟩
  | .unary tag => ⟨.unknownSymbol, some ("unknown unary operator " ++ tag), none⟩
  | .function tag => ⟨.unknownFunction, some tag, none⟩
  | .item type value =>
    ⟨.unknownSymbol, some ("unknown token Token(type=" ++ type ++ ", value=" ++ value ++ ")"),
      none⟩

/-- The report of a refusal. -/
def report : Refusal → Report
  | tooLong length limit =>
    ⟨.expressionTooLong, some (toString length ++ " characters, limit is " ++ limit), none⟩
  | strayCharacter c position => ⟨.unknownSymbol, some (cited [c]), some position⟩
  | notUnary op position =>
    ⟨.unknownSymbol, some (cited [op.char] ++ " cannot be used as a unary operator"), some position⟩
  | unknownFunction name position => ⟨.unknownFunction, some (cited name), some position⟩
  | unknownConstant name position => ⟨.unknownConstant, some (cited name), some position⟩
  | unopened bracket position =>
    ⟨.unbalancedParens, some (cited [bracket.closing] ++ " has no matching opening bracket"),
      some position⟩
  | mismatched opened openedAt closed position =>
    ⟨.unbalancedParens,
      some (cited [opened.opening] ++ " at position " ++ toString openedAt ++ " closed by "
        ++ cited [closed.closing]),
      some position⟩
  | unclosed bracket position =>
    ⟨.unbalancedParens, some (cited [bracket.opening] ++ " is never closed"), some position⟩
  | unknownWord word => ⟨.unknownSymbol, some ("unknown token " ++ cited word), none⟩
  | stray item => strayReport item
  | missingOperand type op =>
    ⟨.factorExpected,
      some (cited op.symbol
        ++ (if type.arity = 2 then " needs two operands" else " needs an operand")),
      none⟩
  | empty => ⟨.factorExpected, some "empty expression", none⟩
  | leftOver count =>
    ⟨.operatorExpected,
      some (toString count ++ " values left without an operator between them"), none⟩
  | nothingBound name =>
    ⟨.unknownVariable, some (cited name.toList ++ " (no variables bound)"), none⟩
  | unbound name => ⟨.unknownVariable, some (cited name.toList), none⟩

/-- The kind of a refusal. -/
def kind (r : Refusal) : Kind := r.report.kind

/-- The position of the offending character. -/
def position (r : Refusal) : Option Int := r.report.position

/-- The message of a refusal. -/
def message (r : Refusal) : String := r.report.message

end Refusal

/-- Everything that can go wrong. -/
inductive Failure where
  /-- the text or the sequence is refused -/
  | refused (r : Refusal)
  /-- an expression that is no text but a value of the kind named -/
  | notText (kind : String)
  /-- a tag, which is shown, that is no operator -/
  | notOperator (shown : String)
  /-- a text that is no number, or shapes and lengths that do not fit together -/
  | malformed
  /-- an empty series joined with one in which a label repeats among labels of two kinds -/
  | unjoinable
  /-- a value of a kind that the operation cannot take -/
  | wrongKind
  /-- an integer beyond the greatest double -/
  | tooLarge
  /-- an operator outside the operator table, or a name under which nothing is kept -/
  | noEntry
  /-- a part that values of this kind do not have -/
  | noPart
  /-- settings that are not valid, with the reason if one is given -/
  | invalidSettings (reason : Option String)
  deriving DecidableEq, Repr

namespace Failure

/-- The message of a failure, for those that have one. -/
def message? : Failure → Option String
  | refused r => some r.message
  | notText kind => some ("expression must be str, not " ++ kind)
  | notOperator shown => some ("not an operator: " ++ shown)
  | invalidSettings reason => reason
  | _ => none

end Failure

end Reckon
