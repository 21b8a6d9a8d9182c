import Reckon.Refusal
import Reckon.Value.Scalar
import Reckon.Value.Series
import Reckon.Value.Tensor

/-! # Values

    A value is a single double, an array or a series. Every operator works on the doubles inside,
    and the operands decide the form of the result: a single double goes with every cell, arrays are
    combined with arrays, series with series. An array that meets a series must have one dimension,
    with one cell or as many as the series, and takes over the labels. -/

namespace Reckon

/-- What an expression can be worth. -/
inductive Value where
  | scalar (x : Float)
  | array (t : Tensor)
  | series (s : Series Float)

namespace Value

/-- A function of every double inside. -/
def map (f : Float → Float) : Value → Value
  | scalar x => scalar (f x)
  | array t => array (t.map f)
  | series s => series (s.map f)

/-- The array that two arrays make, if their shapes allow. -/
def ofArrays (f : Float → Float → Float) (t u : Tensor) : Except Failure Value :=
  match Tensor.zip? f t u with
  | some r => .ok (array r)
  | none => .error .malformed

/-- A series with an array of one dimension. -/
def withArray (f : Float → Float → Float) (s : Series Float) (t : Tensor) : Except Failure Value :=
  match t.shape, t.cells with
  | [_], [y] => .ok (series (s.map (f · y)))
  | [_], ys =>
    if ys.length = s.entries.length then
      .ok (series ⟨s.name, List.zipWith (fun entry y => (entry.1, f entry.2 y)) s.entries ys⟩)
    else .error .malformed
  | _, _ => .error .malformed

/-- The series that two series make, unless they cannot be joined. -/
def ofSeries (f : Float → Float → Float) (s t : Series Float) : Except Failure Value :=
  match Series.zip? Double.nan f s t with
  | some r => .ok (series r)
  | none => .error .unjoinable

/-- A function of two doubles, for two values of any form. -/
def combine (f : Float → Float → Float) : Value → Value → Except Failure Value
  | scalar x, b => .ok (b.map (f x))
  | a, scalar y => .ok (a.map (f · y))
  | array t, array u => ofArrays f t u
  | series s, array t => withArray f s t
  | array t, series s => withArray (fun x y => f y x) s t
  | series s, series u => ofSeries f s u

/-- A binary operator. -/
def binary (op : Binary) (left right : Value) : Except Failure Value :=
  match op, right with
  | .pow, scalar exponent => .ok (left.map (Scalar.powerBy exponent))
  | _, _ => combine (Scalar.binary op) left right

/-- The opposite. -/
def negate (v : Value) : Value := v.map fun x => -x

/-- A function. -/
def function (f : Function) (v : Value) : Value := v.map (Scalar.function f)

end Value

end Reckon
