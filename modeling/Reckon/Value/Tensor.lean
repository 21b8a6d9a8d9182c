/-! # Arrays of doubles

    An array has a shape, the list of its extents, and as many cells as the product of these, in
    row-major order: the last index runs fastest. Two arrays are combined cell by cell. If their
    shapes differ, both are first *stretched* to a common shape: the shapes are aligned at their
    ends, a missing extent counts as one, and an extent of one is repeated as often as the other
    array asks for. Other differences have no common shape. Nested lists make arrays of at most
    sixty-four dimensions, and no operation makes more of them. -/

namespace Reckon

/-- The number of cells of a shape. -/
def cellCount : List Nat → Nat
  | [] => 1
  | extent :: rest => extent * cellCount rest

/-- An array of doubles. -/
structure Tensor where
  shape : List Nat
  cells : List Float
  fits : cells.length = cellCount shape
  deriving DecidableEq

namespace Tensor

/-- The greatest number of dimensions of an array. -/
def greatestRank : Nat := 64

/-- The array with one dimension and the given cells. -/
def ofList (cells : List Float) : Tensor :=
  ⟨[cells.length], cells, by simp [cellCount]⟩

/-- A function of every cell. -/
def map (f : Float → Float) (t : Tensor) : Tensor :=
  ⟨t.shape, t.cells.map f, by rw [List.length_map, t.fits]⟩

/-- The common extent of two. -/
def commonExtent (m n : Nat) : Option Nat :=
  if m = n then some m else if m = 1 then some n else if n = 1 then some m else none

/-- The common shape of two shapes with equally many extents. -/
def commonExtents : List Nat → List Nat → Option (List Nat)
  | m :: ms, n :: ns =>
    match commonExtent m n, commonExtents ms ns with
    | some extent, some rest => some (extent :: rest)
    | _, _ => none
  | _, _ => some []

/-- A shape with extents of one in front, up to the given number of extents. -/
def padded (rank : Nat) (shape : List Nat) : List Nat :=
  List.replicate (rank - shape.length) 1 ++ shape

/-- The common shape of two shapes. -/
def commonShape (s t : List Nat) : Option (List Nat) :=
  let rank := max s.length t.length
  commonExtents (padded rank s) (padded rank t)

/-- Which cell of an array of shape `s` stands at place `k` after stretching to the shape `t` with
    equally many extents. -/
def sourcePlace (s t : List Nat) (k : Nat) : Nat :=
  match s, t with
  | m :: ms, _ :: ns =>
    (if m = 1 then 0 else k / cellCount ns) * cellCount ms + sourcePlace ms ns (k % cellCount ns)
  | _, _ => 0

/-- The array stretched to a shape. -/
def stretch (t : Tensor) (shape : List Nat) : Tensor where
  shape := shape
  cells := (List.range (cellCount shape)).map fun k =>
    t.cells.getD (sourcePlace (padded shape.length t.shape) shape k) 0
  fits := by rw [List.length_map, List.length_range]

/-- Two arrays of one shape, cell by cell. -/
def zipSame (f : Float → Float → Float) (t u : Tensor) (h : t.shape = u.shape) : Tensor where
  shape := t.shape
  cells := List.zipWith f t.cells u.cells
  fits := by rw [List.length_zipWith, t.fits, u.fits, h, Nat.min_self]

/-- Two arrays, cell by cell, if they have a common shape. -/
def zip? (f : Float → Float → Float) (t u : Tensor) : Option Tensor :=
  if h : t.shape = u.shape then some (zipSame f t u h)
  else (commonShape t.shape u.shape).map fun shape =>
    zipSame f (t.stretch shape) (u.stretch shape) rfl

end Tensor

end Reckon
