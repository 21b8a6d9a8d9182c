import Reckon.Datum
import Reckon.Number.Numeral
import Reckon.Register
import Reckon.Value.Basic

/-! # Bindings

    Variables stand for values that a caller supplies in a raw form: cells that may be missing,
    truth values, integers or texts, alone, in nested lists, in arrays or in labelled columns. A raw
    value is turned into doubles when its variable is met and not before, so what is never looked up
    does no harm. Only an array is settled when it is made: its nested lists must have a shape, and
    its cells take one form.

    Bindings are a register of names or a function from names; either answers for every name
    whether it is bound. -/

namespace Reckon

/-- One entry of raw data. -/
inductive Cell where
  /-- nothing, which counts as no number -/
  | missing
  /-- a truth value, which counts as one or zero -/
  | flag (b : Bool)
  /-- an integer of any size -/
  | whole (n : Int)
  /-- a double -/
  | real (x : Float)
  /-- a text that may be a numeral -/
  | text (s : String)
  /-- a list or an array where one entry is asked for -/
  | several
  /-- anything else, which counts as nothing -/
  | other
  deriving DecidableEq, Inhabited

namespace Cell

/-- The double that a cell counts as. -/
def toFloat : Cell → Except Failure Float
  | missing => .ok Double.nan
  | flag b => .ok (if b then 1 else 0)
  | whole n =>
    match Double.ofInt? n with
    | some x => .ok x
    | none => .error .tooLarge
  | real x => .ok x
  | text s =>
    match Number.ofText? s.toList with
    | some x => .ok x
    | none => .error .malformed
  | several => .error .malformed
  | other => .error .wrongKind

/-- The doubles of cells, up to the first that has none. -/
def toFloats : List Cell → Except Failure (List Float)
  | [] => .ok []
  | c :: rest =>
    match c.toFloat with
    | .error f => .error f
    | .ok x => (toFloats rest).map (x :: ·)

/-- Whether a cell is a text. -/
def isText : Cell → Bool
  | text _ => true
  | _ => false

/-- Whether an array can keep a cell as a text. It can for truth values, for doubles and for the
    integers from `-2^63` up to `2^64`, which have a machine form; the last is left out. -/
def canBeText : Cell → Bool
  | flag _ | real _ | text _ => true
  | whole n => -0x8000000000000000 ≤ n && n < 0x10000000000000000
  | missing | several | other => false

/-- A text without the NUL characters at its end. -/
def withoutNuls (s : String) : String :=
  String.ofList (s.toList.reverse.dropWhile (· = '\x00')).reverse

/-- A cell of an array of texts, which fills up its texts with NUL characters. The text of a number
    reads as the number, so numbers stay what they are. -/
def asText : Cell → Cell
  | flag b => text (Datum.showBool b)
  | text s => text (withoutNuls s)
  | c => c

end Cell

/-- Cells in nested lists. -/
inductive Nested where
  | cell (c : Cell)
  | row (items : List Nested)
  deriving Inhabited

namespace Nested

mutual

/-- The extents of nested lists, from outside to inside, if the lists of each level have one
    length. -/
def shape? : Nested → Option (List Nat)
  | cell _ => some []
  | row [] => some [0]
  | row (first :: rest) =>
    match shape? first with
    | none => none
    | some shape => if allHaveShape shape rest then some ((rest.length + 1) :: shape) else none

/-- Whether every item has the given shape. -/
def allHaveShape (shape : List Nat) : List Nested → Bool
  | [] => true
  | item :: rest => shape? item == some shape && allHaveShape shape rest

end

mutual

/-- The cells, from left to right. -/
def leaves : Nested → List Cell
  | cell c => [c]
  | row items => leavesOf items

/-- The cells of several items, from left to right. -/
def leavesOf : List Nested → List Cell
  | [] => []
  | item :: rest => leaves item ++ leavesOf rest

end

mutual

/-- A function of every cell. -/
def map (f : Cell → Cell) : Nested → Nested
  | cell c => cell (f c)
  | row items => row (mapItems f items)

/-- A function of every cell of several items. -/
def mapItems (f : Cell → Cell) : List Nested → List Nested
  | [] => []
  | item :: rest => map f item :: mapItems f rest

end

/-- The shape of the array that nested lists make up, if there is one. -/
def arrayShape? (nested : Nested) : Option (List Nat) :=
  nested.shape?.filter fun shape => shape.length ≤ Tensor.greatestRank

/-- The array of doubles that nested lists make up. -/
def toTensor (nested : Nested) : Except Failure Tensor :=
  match nested.arrayShape? with
  | none => .error .malformed
  | some shape =>
    match Cell.toFloats nested.leaves with
    | .error f => .error f
    | .ok cells =>
      if fits : cells.length = cellCount shape then .ok ⟨shape, cells, fits⟩
      else .error .malformed

/-- Nested lists as the content of an array, whose cells have one form: if one of them is a text and
    all can be texts, all are. -/
def settled (nested : Nested) : Except Failure Nested :=
  match nested.arrayShape? with
  | none => .error .malformed
  | some _ =>
    if nested.leaves.any Cell.isText && nested.leaves.all Cell.canBeText then
      .ok (nested.map Cell.asText)
    else .ok nested

end Nested

/-- A value as a caller supplies it. -/
inductive Raw where
  /-- a single cell -/
  | single (c : Cell)
  /-- an array without dimensions: a single cell that has no length -/
  | point (c : Cell)
  /-- a list of cells or of lists, or an array -/
  | list (items : List Nested)
  /-- the integers from zero on, so many -/
  | range (count : Nat)
  /-- a labelled column -/
  | series (s : Series Cell)

namespace Raw

/-- The array with the given content. -/
def array (content : Nested) : Except Failure Raw :=
  content.settled.map fun
    | .cell c => point c
    | .row items => list items

/-- A labelled column with its doubles. -/
def seriesValue (s : Series Cell) : Except Failure (Series Float) :=
  (Cell.toFloats s.cells).map fun cells => ⟨s.name, s.index.zip cells⟩

/-- The value that raw data stand for. -/
def value : Raw → Except Failure Value
  | single c | point c => c.toFloat.map .scalar
  | list items => (Nested.row items).toTensor.map .array
  | range count => .ok (.array (Tensor.ofList ((List.range count).map Double.ofNat)))
  | series s => (seriesValue s).map .series

end Raw

/-- What the names in a sequence stand for. -/
inductive Bindings where
  /-- no bindings at all -/
  | nothing
  /-- the entries of a register -/
  | register (entries : Register Raw)
  /-- a function that knows some names -/
  | lookup (find? : String → Option Raw)
  /-- an object that cannot be asked -/
  | unusable

namespace Bindings

/-- The value of a name. -/
def value (bindings : Bindings) (name : String) : Except Failure Value :=
  match bindings with
  | nothing => .error (.refused (.nothingBound name))
  | register entries =>
    match entries.find? name with
    | some raw => raw.value
    | none => .error (.refused (.unbound name))
  | lookup find? =>
    match find? name with
    | some raw => raw.value
    | none => .error (.refused (.unbound name))
  | unusable => .error .wrongKind

/-- The bindings of a function that answers for every name. A name is not bound if the answer is the
    missing value, which a register could keep. -/
def ofFunction (answer : String → Raw) : Bindings :=
  lookup fun name =>
    match answer name with
    | .single .missing => none
    | raw => some raw

/-- What comes of looking up what is no text, whose written form is given. It is never bound, and
    what is made of parts cannot be asked for. -/
def failure (bindings : Bindings) (shown : String) (composite : Bool) : Failure :=
  match bindings with
  | nothing => .refused (.nothingBound shown)
  | register _ | lookup _ => if composite then .wrongKind else .refused (.unbound shown)
  | unusable => .wrongKind

end Bindings

end Reckon
