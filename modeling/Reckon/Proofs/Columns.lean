import Reckon.Formula

/-! # The columns of a table

    A table has rows on an *index* if it is a frame of numeric cells, or if its columns and lists
    all have the length of its reference index and its other entries are single numeric cells
    (`Table.OnIndex`). Then every name stands for a series on the index or for one double, and in
    each row for one double: the cell of the sequence there, or the single one itself.

        index   r    r          table:   x: series 1 2       row 0:   x: 1
        x       1    2                   y: series 1 0                y: 1
        y       yes  no                  k: 7                         k: 7
        k = 7 -/

namespace Reckon

/-- A cell that counts as a double: a missing cell, a truth value, a double, an integer not beyond
    the greatest double, or a numeral. -/
def Cell.IsNumeric (c : Cell) : Prop := ∃ x, c.toFloat = .ok x

namespace Raw

/-- Whether raw data have a cell for every row. -/
def isSequence : Raw → Bool
  | list _ | series _ => true
  | _ => false

/-- What raw data contribute to a row: a sequence its cell there, all else itself. -/
def inRow (i : Nat) : Raw → Raw
  | series s => single (s.cells[i]?.getD .missing)
  | list items =>
    match items[i]? with
    | some (.cell c) => single c
    | _ => single .missing
  | raw => raw

/-- Raw data that fit the rows of a table: numeric cells, alone, in a list of one dimension with a
    cell for every row, or in a column with the table's own index. -/
inductive Fits (index : List Label) : Raw → Prop
  | single {c : Cell} (h : c.IsNumeric) : Fits index (.single c)
  | list {cells : List Cell} (hl : cells.length = index.length) (h : ∀ c ∈ cells, c.IsNumeric) :
      Fits index (.list (cells.map .cell))
  | series {s : Series Cell} (hi : s.index = index) (h : ∀ c ∈ s.cells, c.IsNumeric) :
      Fits index (.series s)

/-- A list as a column on the index, if it makes one. -/
def labelled (index : List Label) : Raw → Raw
  | list items =>
    match Table.columnOf index items with
    | .ok s => series s
    | .error _ => list items
  | raw => raw

end Raw

namespace Table

/-- The columns of a table under their names. -/
def entries : Table → Register Raw
  | frame f => f.columns.map fun column => (column.1, .series (f.series column))
  | columns entries => entries
  | other _ => []

/-- Every name with what it contributes to a row. -/
def row (table : Table) (i : Nat) : Bindings :=
  .register (table.entries.map fun entry => (entry.1, entry.2.inRow i))

/-- The name is that of a sequence of the table. -/
def IsSequence (table : Table) (name : String) : Prop :=
  ∃ raw, table.entries.find? name = some raw ∧ raw.isSequence = true

/-- A table with rows on an index: a frame, or columns with at least one sequence among them, all of
    which fit the index. -/
structure OnIndex (table : Table) (index : List Label) : Prop where
  index_eq : table.index = .ok (some index)
  fits : ∀ entry ∈ table.entries, entry.2.Fits index

/-- The names of a table with all lists as columns. -/
def labelled (table : Table) (index : List Label) : Bindings :=
  .register (table.entries.map fun entry => (entry.1, entry.2.labelled index))

end Table

/-! ### Raw data as doubles -/

theorem Cell.toFloats_of_isNumeric {cells : List Cell} (h : ∀ c ∈ cells, c.IsNumeric) :
    ∃ xs, toFloats cells = .ok xs ∧ xs.length = cells.length
      ∧ cells.map toFloat = xs.map .ok := by
  induction cells with
  | nil => exact ⟨[], rfl, rfl, rfl⟩
  | cons c rest ih =>
    obtain ⟨⟨x, hx⟩, hrest⟩ := List.forall_mem_cons.mp h
    obtain ⟨xs, hxs, hlen, hmap⟩ := ih hrest
    refine ⟨x :: xs, ?_, congrArg Nat.succ hlen, ?_⟩
    · rw [toFloats, hx, hxs]
      rfl
    · rw [List.map_cons, List.map_cons, hx, hmap]

theorem Cell.toFloats_real (xs : List Float) : toFloats (xs.map real) = .ok xs := by
  induction xs with
  | nil => rfl
  | cons x rest ih =>
    rw [List.map_cons, toFloats, ih]
    rfl

/-- A row of a column of doubles is the double of its cell there, if there is one. -/
theorem Cell.exists_toFloat_getD {cells : List Cell} {xs : List Float}
    (h : cells.map toFloat = xs.map .ok) (i : Nat) :
    ∃ x, (cells[i]?.getD .missing).toFloat = .ok x ∧ (i < cells.length → xs[i]? = some x) := by
  have hi := congrArg (·[i]?) h
  simp only [List.getElem?_map] at hi
  cases hc : cells[i]? with
  | none =>
    refine ⟨Double.nan, rfl, ?_⟩
    intro hlt
    rw [List.getElem?_eq_getElem hlt] at hc
    cases hc
  | some c =>
    rw [hc] at hi
    cases hx : xs[i]? with
    | none => rw [hx] at hi; cases hi
    | some x =>
      rw [hx] at hi
      exact ⟨x, Option.some.inj hi, fun _ => rfl⟩

namespace Nested

theorem allHaveShape_map_cell (cells : List Cell) :
    allHaveShape [] (cells.map cell) = true := by
  induction cells with
  | nil => rfl
  | cons c rest ih =>
    rw [List.map_cons, allHaveShape, ih]
    rfl

theorem leavesOf_map_cell (cells : List Cell) : leavesOf (cells.map cell) = cells := by
  induction cells with
  | nil => rfl
  | cons c rest ih =>
    rw [List.map_cons, leavesOf, ih]
    rfl

theorem arrayShape?_map_cell (cells : List Cell) :
    (row (cells.map cell)).arrayShape? = some [cells.length] := by
  have hshape : (row (cells.map cell)).shape? = some [cells.length] := by
    cases cells with
    | nil => rfl
    | cons c rest =>
      have h : allHaveShape [] (rest.map cell) = true := allHaveShape_map_cell rest
      simp [shape?, h]
  rw [arrayShape?, hshape]
  rfl

/-- A list of cells makes an array of one dimension. -/
theorem exists_toTensor_map_cell {cells : List Cell} {xs : List Float}
    (h : Cell.toFloats cells = .ok xs) (hl : xs.length = cells.length) :
    ∃ t, (row (cells.map cell)).toTensor = .ok t ∧ t.shape = [cells.length] ∧ t.cells = xs := by
  have hfits : xs.length = cellCount [cells.length] := by simp [cellCount, hl]
  refine ⟨⟨[cells.length], xs, hfits⟩, ?_, rfl, rfl⟩
  simp only [toTensor, arrayShape?_map_cell, leaves, leavesOf_map_cell, h, dif_pos hfits]

end Nested

theorem Table.columnOf_map_cell (index : List Label) {cells : List Cell} {xs : List Float}
    (h : Cell.toFloats cells = .ok xs) (hl : xs.length = cells.length) :
    columnOf index (cells.map .cell) = .ok (Series.ofCells index (xs.map .real)) := by
  obtain ⟨t, ht, hshape, hcells⟩ := Nested.exists_toTensor_map_cell h hl
  simp only [columnOf, ht, hshape, hcells]

namespace Raw

theorem exists_seriesValue {s : Series Cell} {xs : List Float}
    (h : Cell.toFloats s.cells = .ok xs) (hl : xs.length = s.cells.length) :
    ∃ t, (series s).value = .ok (.series t) ∧ t.index = s.index ∧ t.cells = xs := by
  have hl' : xs.length = s.index.length := by rw [hl, Series.length_index]
  refine ⟨⟨s.name, s.index.zip xs⟩, ?_, ?_, ?_⟩
  · rw [value, seriesValue, h]
    rfl
  · simp [Series.index, List.map_fst_zip, hl']
  · simp [Series.cells, List.map_snd_zip, hl']

theorem inRow_list_map_cell (cells : List Cell) (i : Nat) :
    (list (cells.map .cell)).inRow i = single (cells[i]?.getD .missing) := by
  rw [inRow, List.getElem?_map]
  cases cells[i]? <;> rfl

/-- Single data stand for one double in the table and in every row. -/
def SingleOn (index : List Label) (raw : Raw) : Prop :=
  raw.isSequence = false ∧ ∃ x, (raw.labelled index).value = .ok (.scalar x)
    ∧ ∀ i, (raw.inRow i).value = .ok (.scalar x)

/-- A sequence stands for a series on the index, and in a row for its cell there. -/
def SequenceOn (index : List Label) (raw : Raw) : Prop :=
  raw.isSequence = true ∧ ∃ s, (raw.labelled index).value = .ok (.series s) ∧ s.index = index
    ∧ ∀ i, ∃ x, (raw.inRow i).value = .ok (.scalar x) ∧ (i < index.length → s.cells[i]? = some x)

theorem Fits.singleOn_or_sequenceOn {index : List Label} {raw : Raw} (h : raw.Fits index) :
    raw.SingleOn index ∨ raw.SequenceOn index := by
  cases h with
  | @single c h =>
    obtain ⟨x, hx⟩ := h
    have hv : (Raw.single c).value = .ok (.scalar x) := by
      rw [value, hx]
      rfl
    exact .inl ⟨rfl, x, hv, fun _ => hv⟩
  | @list cells hl h =>
    obtain ⟨xs, hxs, hlen, hmap⟩ := Cell.toFloats_of_isNumeric h
    have hrows : (xs.map Cell.real).length = index.length := by rw [List.length_map, hlen, hl]
    have hdoubles : Cell.toFloats (Series.ofCells index (xs.map Cell.real)).cells = .ok xs := by
      rw [Series.cells_ofCells hrows]
      exact Cell.toFloats_real xs
    obtain ⟨s, hs, hsi, hsc⟩ := exists_seriesValue hdoubles
      (by rw [Series.cells_ofCells hrows, List.length_map])
    refine .inr ⟨rfl, s, ?_, hsi.trans (Series.index_ofCells hrows), ?_⟩
    · rw [labelled, Table.columnOf_map_cell index hxs hlen]
      exact hs
    · intro i
      obtain ⟨x, hx, hcell⟩ := Cell.exists_toFloat_getD hmap i
      refine ⟨x, ?_, fun hlt => hsc ▸ hcell (hl ▸ hlt)⟩
      rw [inRow_list_map_cell]
      exact congrArg (Except.map Value.scalar) hx
  | @series s hi h =>
    obtain ⟨xs, hxs, hlen, hmap⟩ := Cell.toFloats_of_isNumeric h
    obtain ⟨t, ht, hti, htc⟩ := exists_seriesValue hxs hlen
    refine .inr ⟨rfl, t, ht, hti.trans hi, ?_⟩
    intro i
    obtain ⟨x, hx, hcell⟩ := Cell.exists_toFloat_getD hmap i
    have hrows : index.length = s.cells.length := by rw [← hi, Series.length_index]
    refine ⟨x, ?_, fun hlt => htc ▸ hcell (hrows ▸ hlt)⟩
    exact congrArg (Except.map Value.scalar) hx

end Raw

namespace Register

variable {α β : Type}

theorem find?_map (g : α → β) (r : Register α) (name : String) :
    find? (r.map fun entry => (entry.1, g entry.2)) name = (find? r name).map g := by
  simp only [find?, List.find?_map, Option.map_map]
  rfl

theorem mem_of_find? {r : Register α} {name : String} {a : α} (h : find? r name = some a) :
    (name, a) ∈ r := by
  obtain ⟨entry, hentry, rfl⟩ := Option.map_eq_some_iff.mp h
  have hname : entry.1 = name := by simpa using List.find?_some hentry
  rw [← hname]
  exact List.mem_of_find?_eq_some hentry

end Register

namespace Table

variable {table : Table} {index : List Label}

/-- A frame of numeric cells has rows on its index. -/
theorem onIndex_frame {f : Frame} (h : ∀ column ∈ f.columns, ∀ c ∈ column.2, c.IsNumeric) :
    (frame f).OnIndex f.index where
  index_eq := rfl
  fits := by
    intro entry hentry
    obtain ⟨column, hcolumn, rfl⟩ := List.mem_map.mp hentry
    have hl := f.rectangular column hcolumn
    refine .series ?_ ?_
    · simp [Frame.series, Series.index, List.map_fst_zip, hl]
    · have hcells : (f.series column).cells = column.2 := by
        simp [Frame.series, Series.cells, List.map_snd_zip, hl]
      rw [hcells]
      exact h column hcolumn

/-- What is neither a list nor an array without dimensions stays as it is. -/
theorem prepare_cons_of_ne (name : String) {raw : Raw} (rest : List (String × Raw))
    (hlist : ∀ items, raw ≠ .list items) (hpoint : ∀ c, raw ≠ .point c) :
    prepare index ((name, raw) :: rest)
      = (prepare index rest).bind fun prepared =>
          Logged.ok (prepared.map ((name, raw) :: ·)) := by
  cases raw with
  | list items => exact absurd rfl (hlist items)
  | point c => exact absurd rfl (hpoint c)
  | single | range | series => rfl

/-- Every list of a table is made a column, and nothing else changes. -/
theorem prepare_eq {entries : List (String × Raw)} (h : ∀ entry ∈ entries, entry.2.Fits index) :
    prepare index entries
      = Logged.ok (some (entries.map fun entry => (entry.1, entry.2.labelled index))) := by
  induction entries with
  | nil => rfl
  | cons entry rest ih =>
    obtain ⟨name, raw⟩ := entry
    obtain ⟨hraw, hrest⟩ := List.forall_mem_cons.mp h
    cases hraw with
    | single hc =>
      rw [prepare_cons_of_ne name rest (by rintro items ⟨⟩) (by rintro c ⟨⟩), ih hrest]
      rfl
    | @list cells hl hc =>
      obtain ⟨xs, hxs, hlen, -⟩ := Cell.toFloats_of_isNumeric hc
      have hcolumn := columnOf_map_cell index hxs hlen
      rw [prepare, if_pos (by rw [List.length_map, hl]), hcolumn, ih hrest, List.map_cons]
      simp only [Raw.labelled, hcolumn]
      rfl
    | series hi hc =>
      rw [prepare_cons_of_ne name rest (by rintro items ⟨⟩) (by rintro c ⟨⟩), ih hrest]
      rfl

theorem OnIndex.bindings_eq (h : table.OnIndex index) :
    table.bindings = Logged.ok (some (table.labelled index)) := by
  have hindex := h.index_eq
  cases table with
  | frame f =>
    rw [bindings, labelled, entries, List.map_map]
    rfl
  | columns entries =>
    have hreference : referenceIndex entries = .ok (some index) := hindex
    have hfits : ∀ entry ∈ entries, entry.2.Fits index := h.fits
    simp only [bindings, hreference, Option.getD_some, prepare_eq hfits]
    rfl
  | other d => cases hindex

/-- A name is bound in no row, or stands for a series in the table and for its cell in every row, or
    for the same double in the table and in every row. -/
theorem OnIndex.value_cases (h : table.OnIndex index) (name : String) :
    ((table.labelled index).value name = .error (.refused (.unbound name))
        ∧ ∀ i, (table.row i).value name = .error (.refused (.unbound name)))
      ∨ (table.IsSequence name ∧ ∃ s, (table.labelled index).value name = .ok (.series s)
        ∧ s.index = index ∧ ∀ i, ∃ x, (table.row i).value name = .ok (.scalar x)
          ∧ (i < index.length → s.cells[i]? = some x))
      ∨ ¬ table.IsSequence name ∧ ∃ x, (table.labelled index).value name = .ok (.scalar x)
        ∧ ∀ i, (table.row i).value name = .ok (.scalar x) := by
  cases hfind : table.entries.find? name with
  | none =>
    refine .inl ⟨?_, fun i => ?_⟩
    · simp only [labelled, Bindings.value, Register.find?_map, hfind, Option.map_none]
    · simp only [row, Bindings.value, Register.find?_map, hfind, Option.map_none]
  | some raw =>
    have hwhole : (table.labelled index).value name = (raw.labelled index).value := by
      simp only [labelled, Bindings.value, Register.find?_map, hfind, Option.map_some]
    have hrow : ∀ i, (table.row i).value name = (raw.inRow i).value := by
      intro i
      simp only [row, Bindings.value, Register.find?_map, hfind, Option.map_some]
    rw [hwhole]
    simp only [hrow]
    rcases (h.fits _ (Register.mem_of_find? hfind)).singleOn_or_sequenceOn with
      ⟨hsingle, hvalues⟩ | ⟨hsequence, hvalues⟩
    · refine .inr (.inr ⟨?_, hvalues⟩)
      rintro ⟨other, hother, hs⟩
      cases hfind.symm.trans hother
      rw [hsingle] at hs
      cases hs
    · exact .inr (.inl ⟨⟨raw, hfind, hsequence⟩, hvalues⟩)

end Table

end Reckon
