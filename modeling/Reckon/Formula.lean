import Reckon.Expression
import Reckon.Frame

/-! # Formulas over tabular data

    A *formula* is an expression whose variables are the columns of a table. The table is a frame or
    a register of columns and single values. Every formula makes a series: on the index of a
    frame, or on the *reference index* of a register, which is that of its first labelled column, or
    else counts the rows of its first list. Without either the result has one row.

    A formula that is refused makes a column of what is no number and an entry in the journal,
    unless the options ask for failure; other failures are never hidden.

    Main definitions: `Formula.evaluate` and `Formula.applyAll`. -/

namespace Reckon

/-- What a formula can be evaluated on. -/
inductive Table where
  | frame (f : Frame)
  | columns (entries : Register Raw)
  | other (d : Datum)

/-- How a formula is evaluated: whether a refusal is a failure, and whether infinities are replaced
    by what is no number. -/
structure FormulaOptions where
  raiseErrors : Bool
  replaceInfinities : Bool
  deriving DecidableEq, Repr

/-- The choices of a formula evaluator as they were made, which may be any data. -/
structure Choices where
  raiseErrors : Datum
  replaceInfinities : Datum

namespace Choices

/-- A choice, or what the settings hold if it is absent. -/
def orElse (default : Datum) : Datum → Datum
  | .null => default
  | choice => choice

/-- Choices under settings. -/
def resolve (settings : Settings) (raiseErrors replaceInfinities : Datum) : Choices :=
  ⟨orElse settings.raiseErrors raiseErrors, orElse settings.replaceInfinities replaceInfinities⟩

/-- The options that choices amount to. -/
def options (c : Choices) : FormulaOptions := ⟨c.raiseErrors.isTrue, c.replaceInfinities.isTrue⟩

end Choices

namespace Table

/-- The labels that the rows of the first list have, if there is one. What has no length stands in
    the way of asking for it. -/
def countIndex : List (String × Raw) → Except Failure (Option (List Label))
  | [] => .ok none
  | (_, .list items) :: _ => .ok (some (Label.upTo items.length))
  | (_, .point _) :: _ => .error .wrongKind
  | _ :: rest => countIndex rest

/-- The index of the first labelled column, if there is one. -/
def labelledIndex : List (String × Raw) → Option (List Label)
  | [] => none
  | (_, .series s) :: _ => some s.index
  | _ :: rest => labelledIndex rest

/-- The reference index of columns. -/
def referenceIndex (entries : Register Raw) : Except Failure (Option (List Label)) :=
  match labelledIndex entries with
  | some index => .ok (some index)
  | none => countIndex entries

/-- The index of a table, if it has one. -/
def index : Table → Except Failure (Option (List Label))
  | frame f => .ok (some f.index)
  | columns entries => referenceIndex entries
  | other _ => .ok none

/-- The only label of a result that has no index. -/
def onlyRow : List Label := [.int 0]

/-- A list of cells as a labelled column. -/
def columnOf (index : List Label) (items : List Nested) : Except Failure (Series Cell) :=
  match (Nested.row items).toTensor with
  | .error f => .error f
  | .ok t =>
    match t.shape with
    | [_] => .ok (Series.ofCells index (t.cells.map .real))
    | _ => .error .malformed

/-- The entry that a list of the wrong length leaves in the journal. -/
def lengthEntry (name : String) (length expected : Nat) : Entry :=
  ⟨.error, .formula,
    "Column '" ++ name ++ "' has length " ++ toString length ++ ", expected " ++ toString expected⟩

/-- Columns with all lists labelled by the reference index. A list of another length spoils the
    table, which is noted; single values, ranges and labelled columns stay as they are. -/
def prepare (index : List Label) : List (String × Raw) → Logged (Option (Register Raw))
  | [] => Logged.ok (some [])
  | (name, .list items) :: rest =>
    if items.length = index.length then
      match columnOf index items with
      | .error f => Logged.fail f
      | .ok s => do
        let prepared ← prepare index rest
        return prepared.map ((name, .series s) :: ·)
    else ⟨[lengthEntry name items.length index.length], .ok none⟩
  | (_, .point _) :: _ => Logged.fail .wrongKind
  | entry :: rest => do
    let prepared ← prepare index rest
    return prepared.map (entry :: ·)

/-- What the columns of a table stand for, or nothing for a table that is of no use, which is
    noted. -/
def bindings : Table → Logged (Option Bindings)
  | frame f => Logged.ok (some f.bindings)
  | columns entries =>
    match referenceIndex entries with
    | .error f => Logged.fail f
    | .ok index => do
      let prepared ← prepare (index.getD []) entries
      return prepared.map .register
  | other d => do
    Logged.note .error .formula ("Unsupported data type: <class '" ++ d.kind ++ "'>")
    return none

/-- The column of what is no number. -/
def nothing (table : Table) : Except Failure (Series Float) :=
  table.index.map fun index => Series.constant (index.getD onlyRow) Double.nan

/-- A value as a column of the table. -/
def column (table : Table) : Value → Except Failure (Series Float)
  | .series s => .ok s
  | .array t =>
    match table.index with
    | .error f => .error f
    | .ok index =>
      let labels := index.getD (Label.upTo t.cells.length)
      match t.shape with
      | [_] =>
        if t.cells.length = labels.length then .ok (Series.ofCells labels t.cells)
        else .error .malformed
      | _ => .error .malformed
  | .scalar x => table.index.map fun index => Series.constant (index.getD onlyRow) x

end Table

namespace Formula

/-- A double, or what is no number in place of an infinity. -/
def finiteOrNan (x : Float) : Float :=
  if Double.code x = Double.infinityCode then Double.nan else x

/-- The column with infinities replaced if the options ask for it. -/
def replaced (options : FormulaOptions) (s : Series Float) : Series Float :=
  if options.replaceInfinities then s.map finiteOrNan else s

/-- The first characters of a formula, as the journal shows it. -/
def excerpt (formula : String) : String := String.ofList (formula.toList.take 50)

/-- The entry that a refused formula leaves in the journal. -/
def refusalEntry (formula : String) (r : Refusal) : Entry :=
  ⟨.error, .formula, "Error evaluating formula '" ++ excerpt formula ++ "': " ++ r.message⟩

/-- What becomes of a refused formula. -/
def refuse (options : FormulaOptions) (formula : String) (table : Table) (r : Refusal) :
    Logged (Series Float) :=
  if options.raiseErrors then Logged.fail (.refused r)
  else ⟨[refusalEntry formula r], table.nothing⟩

/-- The entry about the sequence that could not be evaluated. -/
def sequenceEntry (tokens : List Token) : Entry :=
  ⟨.debug, .formula, "Token sequence: " ++ Postfix.format tokens⟩

/-- The column of a converted formula. -/
def evaluateTokens (settings : Settings) (options : FormulaOptions) (formula : String)
    (table : Table) (bindings : Bindings) (tokens : List Token) : Logged (Series Float) :=
  let calculation := Expression.calculate settings bindings (tokens.map .token)
  match calculation.outcome with
  | .ok v => ⟨calculation.entries, (table.column v).map (replaced options)⟩
  | .error (.refused r) =>
    let refused := refuse options formula table r
    ⟨calculation.entries ++ sequenceEntry tokens :: refused.entries, refused.outcome⟩
  | .error f => ⟨calculation.entries, .error f⟩

/-- The column of a formula, once its text is converted. -/
def evaluateConverted (settings : Settings) (options : FormulaOptions) (formula : String)
    (table : Table) (tokens : List Token) : Logged (Series Float) := do
  match ← table.bindings with
  | none => Logged.ofExcept table.nothing
  | some bindings => evaluateTokens settings options formula table bindings tokens

/-- The column of a formula. -/
def evaluate (settings : Settings) (options : FormulaOptions) (formula : String) (table : Table) :
    Logged (Series Float) :=
  let reading := Expression.read settings true (.text formula)
  match reading.outcome with
  | .ok tokens =>
    let rest := evaluateConverted settings options formula table tokens
    ⟨reading.entries ++ rest.entries, rest.outcome⟩
  | .error (.refused r) => refuse options formula table r
  | .error f => Logged.fail f

/-- The column of a formula that need not be a text. -/
def evaluateAny (settings : Settings) (options : FormulaOptions) (table : Table) :
    Datum → Logged (Series Float)
  | .text formula => evaluate settings options formula table
  | d => Logged.fail (.notText d.kind)

/-- The entry about a column that is overwritten. -/
def overwriteEntry (name : String) : Entry :=
  ⟨.warning, .formula, "Column '" ++ name ++ "' already exists, overwriting"⟩

/-- Puts the column of a formula on the given frame into the frame made so far. -/
def applyTo (settings : Settings) (options : FormulaOptions) (given made : Frame)
    (formula : String) : Logged Frame :=
  let warning := if made.columns.has formula then [overwriteEntry formula] else []
  let column := evaluate settings options formula (.frame given)
  ⟨warning ++ column.entries, column.outcome.map (made.assign formula)⟩

/-- Puts the columns of formulas on the given frame, one after another, into the frame made so
    far. -/
def applyFrom (settings : Settings) (options : FormulaOptions) (given made : Frame) :
    List String → Logged Frame
  | [] => Logged.ok made
  | formula :: rest => do
    let next ← applyTo settings options given made formula
    applyFrom settings options given next rest

/-- The frame with a column for each formula, named by its text; all formulas see the given
    columns. -/
def applyAll (settings : Settings) (options : FormulaOptions) (frame : Frame)
    (formulas : List String) : Logged Frame :=
  applyFrom settings options frame frame formulas

/-- The failure of a formula that is no text. Its column is looked up first, which fails for what is
    made of parts. -/
def unfit (formula : Datum) : Failure :=
  if formula.isComposite then .wrongKind else .notText formula.kind

/-- The frame with a column for each formula, where formulas need not be texts. -/
def applyAny (settings : Settings) (options : FormulaOptions) (frame : Frame)
    (formulas : List Datum) : Logged Frame := do
  let (texts, other) := Datum.leadingTexts formulas
  let made ← applyAll settings options frame texts
  match other with
  | none => return made
  | some formula => Logged.fail (unfit formula)

end Formula

end Reckon
