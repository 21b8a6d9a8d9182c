import Reckon.Refusal
import Reckon.Number.Numeral
import Reckon.Text.Blank

/-! # Postfix text

    A sequence of tokens is written as words with one space between them, and read back word by
    word: an operator or function by its symbol, a constant by its name, a number by a number word,
    and, where variables are allowed, a variable by its name behind a mark. No word belongs to two
    of these classes. The first word that belongs to none is refused.

    Main definitions: `Postfix.format` and `Postfix.parse`. -/

namespace Reckon.Postfix

/-- The written form of a sequence, as characters. -/
def formatChars (tokens : List Token) : List Char :=
  [' '].intercalate (tokens.map Token.chars)

/-- The written form of a sequence. -/
def format (tokens : List Token) : String :=
  String.ofList (formatChars tokens)

/-- The operator that a word writes. -/
def operator? (word : List Char) : Option Operator :=
  match word with
  | [c] => if c = '~' then some .negate else (Binary.ofChar? c).map .binary
  | _ => (Function.ofName? word).map .function

/-- The number that a word writes: a constant or a number word. -/
def number? (word : List Char) : Option Float :=
  match constant? word with
  | some x => some x
  | none => Number.ofWord? word

/-- The variable that a word writes: letters, at least one, behind the mark. -/
def var? : List Char → Option String
  | [] => none
  | mark :: name =>
    if mark = Token.variableMark && !name.isEmpty && name.all Char.isAlpha then
      some (String.ofList name)
    else none

/-- The token that a word writes. -/
def token? (allowVariables : Bool) (word : List Char) : Option Token :=
  match operator? word with
  | some op => some (.operator op)
  | none =>
    match number? word with
    | some x => some (.number x)
    | none => if allowVariables then (var? word).map .var else none

/-- The tokens of words, up to the first word that writes none. -/
def tokens (allowVariables : Bool) : List (List Char) → Except Refusal (List Token)
  | [] => .ok []
  | word :: rest =>
    match token? allowVariables word with
    | none => .error (.unknownWord word)
    | some t => (tokens allowVariables rest).map (t :: ·)

/-- The sequence that a postfix text writes. -/
def parse (allowVariables : Bool) (text : String) : Except Refusal (List Token) :=
  tokens allowVariables (Text.words text.toList)

end Reckon.Postfix
