import Reckon.Binding

/-! # Frames

    A *frame* is a table: labelled rows, and columns of cells under names, each with one cell for
    every row. A column is looked up as a labelled series that carries its name. -/

namespace Reckon

/-- A table. -/
structure Frame where
  index : List Label
  columns : Register (List Cell)
  rectangular : ∀ column ∈ columns, column.2.length = index.length

namespace Frame

/-- The frame with the given columns and index, if their lengths agree. -/
def make? (index : List Label) (columns : Register (List Cell)) : Option Frame :=
  if h : ∀ column ∈ columns, column.2.length = index.length then some ⟨index, columns, h⟩ else none

/-- The index of a frame that is given by columns alone. -/
def indexOf (columns : Register (List Cell)) : List Label :=
  match columns with
  | [] => []
  | (_, cells) :: _ => Label.upTo cells.length

/-- The cells of a column for so many rows: a single cell stands in every row. -/
def spread (rows : Nat) : List Cell → List Cell
  | [c] => List.replicate rows c
  | cells => cells

/-- The frame with the given columns. If the index is given too, single cells are spread over it;
    otherwise the columns number the rows and have to have one length. -/
def ofColumns? (index : Option (List Label)) (columns : Register (List Cell)) : Option Frame :=
  match index with
  | some labels =>
    make? labels (columns.map fun column => (column.1, spread labels.length column.2))
  | none => make? (indexOf columns) columns

/-- Puts a column under a name. -/
def put (f : Frame) (name : String) (cells : List Cell) (h : cells.length = f.index.length) :
    Frame where
  index := f.index
  columns := Register.put name cells f.columns
  rectangular := fun column mem => by
    rcases Register.mem_put mem with rfl | mem
    · exact h
    · exact f.rectangular column mem

/-- The first cell with each label of an index, or a missing one. -/
def aligned (index : List Label) (s : Series Float) : List Cell :=
  index.map fun label =>
    match s.cellsAt label with
    | [] => .missing
    | x :: _ => .real x

/-- Puts a series under a name. Its cells go to the rows with their labels; a series with the
    frame's own index is taken as it is, even if labels repeat. -/
def assign (f : Frame) (name : String) (s : Series Float) : Frame :=
  if h : s.index = f.index then
    f.put name (s.cells.map .real) (by
      rw [← h]
      simp [Series.cells, Series.index])
  else f.put name (aligned f.index s) (by simp [aligned])

/-- A column with its labels and its name. -/
def series (f : Frame) (column : String × List Cell) : Series Cell :=
  ⟨some column.1, f.index.zip column.2⟩

/-- The columns under their names. -/
def bindings (f : Frame) : Bindings :=
  .register (f.columns.map fun column => (column.1, .series (f.series column)))

end Frame

end Reckon
