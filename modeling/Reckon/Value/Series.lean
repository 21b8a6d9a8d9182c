import Reckon.Number.Double

/-! # Labelled columns

    A *series* is a column whose cells carry labels, integers or texts, and which may have a name.
    The labels in order are its *index*; a label may occur more than once. Two series with the same
    index are combined cell by cell. Otherwise they are *joined*: every label of either side occurs,
    and each cell of the left side meets each cell of the right side with the same label. A side
    that lacks a label takes part with a value that is no number.

    The labels of a join ascend if they are of one kind. Integers and texts have no common order;
    `Label.union?` tells where each kind goes then, and in which case there is no join. -/

namespace Reckon

/-- What a row is called. -/
inductive Label where
  | int (n : Int)
  | text (s : String)
  deriving DecidableEq, Repr

namespace Label

/-- The order of labels: integers by value, texts by their characters, integers before texts. -/
def atMost : Label → Label → Bool
  | int m, int n => m ≤ n
  | int _, text _ => true
  | text _, int _ => false
  | text s, text t => s ≤ t

/-- Whether two labels are of one kind. -/
def sameKind : Label → Label → Bool
  | int _, int _ => true
  | text _, text _ => true
  | _, _ => false

/-- Whether labels are of one kind and ascend. -/
def ascend : List Label → Bool
  | a :: b :: rest => sameKind a b && atMost a b && ascend (b :: rest)
  | _ => true

/-- The labels `0`, `1`, … of a column of the given length. -/
def upTo (length : Nat) : List Label :=
  (List.range length).map fun k => int (k : Nat)

/-- Whether all labels are of one kind. -/
def alike : List Label → Bool
  | a :: b :: rest => sameKind a b && alike (b :: rest)
  | _ => true

/-- The labels of a join, each once, if there is a join. Labels of one kind ascend. With labels of
    two kinds it matters whether a label repeats within its side. If none does, the right side
    follows the left one where one of them is empty or both ascend, and otherwise integers come
    before texts. If one does, integers come before texts too, but an empty left side cannot be
    joined. -/
def union? (left right : List Label) : Option (List Label) :=
  let all := (left ++ right).eraseDups
  let sorted := all.mergeSort atMost
  if alike all then some sorted
  else if left.Nodup ∧ right.Nodup then
    some (if left.isEmpty || right.isEmpty || ascend left && ascend right then all else sorted)
  else if left.isEmpty then none else some sorted

end Label

/-- A column with labels. -/
structure Series (α : Type) where
  name : Option String
  entries : List (Label × α)

namespace Series

variable {α β γ : Type}

/-- The labels, in order. -/
def index (s : Series α) : List Label := s.entries.map (·.1)

/-- The cells, in order. -/
def cells (s : Series α) : List α := s.entries.map (·.2)

/-- A series without a name. Surplus labels or cells are left out. -/
def ofCells (index : List Label) (cells : List α) : Series α := ⟨none, index.zip cells⟩

/-- The series without a name that has the same value at every label. -/
def constant (index : List Label) (a : α) : Series α := ⟨none, index.map fun label => (label, a)⟩

/-- A function of every cell. -/
def map (f : α → β) (s : Series α) : Series β :=
  ⟨s.name, s.entries.map fun entry => (entry.1, f entry.2)⟩

/-- The cells with a given label. -/
def cellsAt (s : Series α) (label : Label) : List α :=
  (s.entries.filter fun entry => entry.1 = label).map (·.2)

/-- All cells of one label in a join: every pair, and the missing value beside the cells of a label
    that one side lacks. -/
def pairs (missing : α) (left right : List α) : List (α × α) :=
  match left, right with
  | [], right => right.map fun b => (missing, b)
  | left, [] => left.map fun a => (a, missing)
  | left, right => left.flatMap fun a => right.map fun b => (a, b)

/-- The entries of a join, if there is one. -/
def join? (missing : α) (s t : Series α) : Option (List (Label × (α × α))) :=
  (Label.union? s.index t.index).map fun labels => labels.flatMap fun label =>
    (pairs missing (s.cellsAt label) (t.cellsAt label)).map fun pair => (label, pair)

/-- The name of a combination: that of both sides, if they have the same. -/
def commonName (s t : Series α) : Option String :=
  if s.name = t.name then s.name else none

/-- Two series with one index, cell by cell. -/
def zipSame (f : α → α → β) (s t : Series α) : Series β :=
  ⟨commonName s t, List.zipWith (fun a b => (a.1, f a.2 b.2)) s.entries t.entries⟩

/-- Two series, cell by cell or joined, unless there is no join. -/
def zip? (missing : α) (f : α → α → β) (s t : Series α) : Option (Series β) :=
  if s.index = t.index then some (zipSame f s t)
  else (join? missing s t).map fun entries =>
    ⟨commonName s t, entries.map fun entry => (entry.1, f entry.2.1 entry.2.2)⟩

/-! ### The index and the cells -/

@[simp] theorem index_map (f : α → β) (s : Series α) : (s.map f).index = s.index := by
  simp [map, index]

@[simp] theorem cells_map (f : α → β) (s : Series α) : (s.map f).cells = s.cells.map f := by
  simp [map, cells]

@[simp] theorem index_constant (labels : List Label) (a : α) :
    (constant labels a).index = labels := by
  simp [constant, index, Function.comp_def]

theorem length_index (s : Series α) : s.index.length = s.cells.length := by
  simp [index, cells]

theorem index_ofCells {labels : List Label} {xs : List α} (h : xs.length = labels.length) :
    (ofCells labels xs).index = labels := by
  simp [ofCells, index, List.map_fst_zip, h]

theorem cells_ofCells {labels : List Label} {xs : List α} (h : xs.length = labels.length) :
    (ofCells labels xs).cells = xs := by
  simp [ofCells, cells, List.map_snd_zip, h]

/-- Two series with one index are not joined. -/
theorem zip?_of_eq (missing : α) (f : α → α → β) {s t : Series α} (h : s.index = t.index) :
    zip? missing f s t = some (zipSame f s t) :=
  if_pos h

/-- Two series with one index make a series with that index. -/
theorem index_zipSame (f : α → α → β) {s t : Series α} (h : s.index = t.index) :
    (zipSame f s t).index = s.index := by
  have hl : s.entries.length = t.entries.length := by
    simpa [index] using congrArg List.length h
  unfold index zipSame
  rw [List.map_zipWith]
  exact List.ext_getElem (by simp [hl]) fun i _ _ => by simp

end Series

end Reckon
