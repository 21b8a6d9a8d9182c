import Reckon.Number.Spelling
import Reckon.Text.Quoted

/-! # Plain data

    A *datum* is a value of no particular meaning: what a caller hands over before it is known to
    be an expression, a setting or a tag. Messages show data in a fixed notation, in which a text
    stands between quotes and nothing is abbreviated. -/

namespace Reckon

/-- Data as they come from outside. -/
inductive Datum where
  /-- the absent value -/
  | null
  /-- a truth value -/
  | bool (b : Bool)
  /-- an integer of any size -/
  | int (n : Int)
  /-- a double -/
  | float (x : Float)
  /-- a text -/
  | text (s : String)
  /-- a list -/
  | list (items : List Datum)
  /-- named fields, in order -/
  | record (fields : List (String × Datum))
  deriving Inhabited

namespace Datum

/-- The name of the kind of value that a datum is. -/
def kind : Datum → String
  | null => "NoneType"
  | bool _ => "bool"
  | int _ => "int"
  | float _ => "float"
  | text _ => "str"
  | list _ => "list"
  | record _ => "dict"

/-- Whether a datum counts as true: all do but the absent value, false, zero, and what is empty. -/
def isTrue : Datum → Bool
  | null => false
  | bool b => b
  | int n => n != 0
  | float x => x != 0
  | text s => !s.isEmpty
  | list items => !items.isEmpty
  | record fields => !fields.isEmpty

/-- Whether a datum is made of parts. Such data cannot be looked up in a table. -/
def isComposite : Datum → Bool
  | list _ | record _ => true
  | _ => false

/-- The texts with which data begin, and the first datum that is no text, if there is one. -/
def leadingTexts : List Datum → List String × Option Datum
  | text s :: rest => (s :: (leadingTexts rest).1, (leadingTexts rest).2)
  | d :: _ => ([], some d)
  | [] => ([], none)

/-- The written form of a truth value. -/
def showBool (b : Bool) : String := if b then "True" else "False"

mutual

/-- The written form of a datum. -/
def shown : Datum → String
  | null => "None"
  | bool b => showBool b
  | int n => toString n
  | float x => Spelling.float x
  | text s => Text.quoted s
  | list items => "[" ++ ", ".intercalate (shownItems items) ++ "]"
  | record fields => "\x7b" ++ ", ".intercalate (shownFields fields) ++ "\x7d"

/-- The written forms of the items of a list. -/
def shownItems : List Datum → List String
  | [] => []
  | d :: rest => shown d :: shownItems rest

/-- The written forms of fields. -/
def shownFields : List (String × Datum) → List String
  | [] => []
  | (name, d) :: rest => (Text.quoted name ++ ": " ++ shown d) :: shownFields rest

end

/-- A datum inside a sentence: a text as it is, all else in its written form. -/
def plain : Datum → String
  | text s => s
  | d => shown d

end Datum

end Reckon
