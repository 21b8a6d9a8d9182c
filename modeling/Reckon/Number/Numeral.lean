import Reckon.Number.Decimal
import Reckon.Text.Blank
import Reckon.Text.DecimalDigit

/-! # Reading numerals

    A *numeral* is digits with a point among them and a power of ten. Two grammars of numerals are
    read. A *number word* begins with a digit after an optional minus sign; its power of ten is
    marked by `e`; `inf` and `nan` are number words too. A *number text* is more liberal: it may
    have white space at its ends, a plus sign, underscores between digits, no digit on one side of
    the point, `E` for `e`, and `inf`, `infinity` and `nan` in any case. Digits may come from any
    script. -/

namespace Reckon

/-- Digits before and after the point, and the power of ten. -/
structure Numeral where
  whole : List Nat
  fraction : List Nat
  exponent : Int
  deriving DecidableEq, Repr

namespace Numeral

/-- The natural number that decimal digits denote. -/
def ofDigits (digits : List Nat) : Nat :=
  digits.foldl (fun n d => 10 * n + d) 0

/-- The decimal that a numeral denotes: the digits after the point lower the exponent. -/
def decimal (n : Numeral) : Decimal :=
  ⟨ofDigits (n.whole ++ n.fraction), n.exponent - n.fraction.length⟩

/-- The longest run of digits at the start of a text, by their values, and the text after it. -/
def digits : List Char → List Nat × List Char
  | [] => ([], [])
  | c :: rest =>
    match Text.digitValue? c with
    | none => ([], c :: rest)
    | some d => (d :: (digits rest).1, (digits rest).2)

/-- The digits after a point, if a point comes next. -/
def fractionDigits : List Char → List Nat × List Char
  | '.' :: rest => digits rest
  | text => ([], text)

/-- Digits that make up the whole text, and at least one. -/
def onlyDigits? (text : List Char) : Option Nat :=
  match digits text with
  | (ds@(_ :: _), []) => some (ofDigits ds)
  | _ => none

/-- A power of ten that makes up the whole text: digits after an optional sign. -/
def power? : List Char → Option Int
  | '-' :: text => (onlyDigits? text).map fun n => -(n : Int)
  | '+' :: text => (onlyDigits? text).map fun n => (n : Int)
  | text => (onlyDigits? text).map fun n => (n : Int)

/-- Whether a character marks a power of ten in a number text. -/
def isPowerMark (c : Char) : Bool := c == 'e' || c == 'E'

/-- The unsigned numeral of a number word. -/
def ofWord? (word : List Char) : Option Numeral :=
  let (whole, rest) := digits word
  let (fraction, rest) := fractionDigits rest
  if whole.isEmpty then none
  else match rest with
    | [] => some ⟨whole, fraction, 0⟩
    | 'e' :: rest => (power? rest).map fun e => ⟨whole, fraction, e⟩
    | _ => none

/-- The unsigned numeral of a number text without underscores. -/
def ofText? (text : List Char) : Option Numeral :=
  let (whole, rest) := digits text
  let (fraction, rest) := fractionDigits rest
  if whole.isEmpty && fraction.isEmpty then none
  else match rest with
    | [] => some ⟨whole, fraction, 0⟩
    | c :: rest => if isPowerMark c then (power? rest).map fun e => ⟨whole, fraction, e⟩ else none

end Numeral

namespace Number

/-- The double of an unsigned number word. -/
def unsignedWord? (negative : Bool) (word : List Char) : Option Float :=
  if word = ['i', 'n', 'f'] then some (Double.infinity negative)
  else if word = ['n', 'a', 'n'] then some Double.nan
  else (Numeral.ofWord? word).map fun n => n.decimal.toFloat negative

/-- The double of a number word, and nothing for any other word. -/
def ofWord? : List Char → Option Float
  | '-' :: word => unsignedWord? true word
  | word => unsignedWord? false word

/-- Whether every underscore stands between two digits; `before` tells whether a digit comes before
    the text. -/
def underscoresBetweenDigits (before : Bool) : List Char → Bool
  | [] => true
  | '_' :: rest =>
    before && (match rest with | d :: _ => Text.isDecimalDigit d | [] => false)
      && underscoresBetweenDigits false rest
  | c :: rest => underscoresBetweenDigits (Text.isDecimalDigit c) rest

/-- The double of an unsigned number text. -/
def unsignedText? (negative : Bool) (text : List Char) : Option Float :=
  let name := text.map Char.toLower
  if name = ['i', 'n', 'f'] || name = ['i', 'n', 'f', 'i', 'n', 'i', 't', 'y'] then
    some (Double.infinity negative)
  else if name = ['n', 'a', 'n'] then some Double.nan
  else if underscoresBetweenDigits false text then
    (Numeral.ofText? (text.filter (· ≠ '_'))).map fun n => n.decimal.toFloat negative
  else none

/-- The double of a number text without white space at its ends. -/
def ofTrimmed? : List Char → Option Float
  | '-' :: text => unsignedText? true text
  | '+' :: text => unsignedText? false text
  | text => unsignedText? false text

/-- The double of a number text, and nothing for any other text. -/
def ofText? (text : List Char) : Option Float :=
  ofTrimmed? (Text.trim text)

end Number

end Reckon
