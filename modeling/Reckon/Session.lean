import Reckon.Formula

/-! # Sessions

    A *session* keeps settings, and under names of the caller's choice converters, sequences,
    formula evaluators and frames. A converter remembers whether variables are allowed, and an
    evaluator the choices as they were when it was made; the limit on the length of expressions is
    always the current one. A step that fails leaves the session as it was. -/

namespace Reckon

/-- What is kept between steps. -/
structure Session where
  settings : Settings
  converters : Register Bool
  sequences : Register (List Token)
  evaluators : Register Choices
  frames : Register Frame

namespace Session

/-- Standard settings and nothing else. -/
def fresh : Session := ⟨.standard, [], [], [], []⟩

/-- What is kept under a name. -/
def kept {α : Type} (register : Register α) (id : String) : Except Failure α :=
  match register.find? id with
  | some a => .ok a
  | none => .error .noEntry

/-- Sets one entry of the section for reading expressions. -/
def setParser (s : Session) (key : String) (value : Datum) : Session :=
  { s with settings := { s.settings with parser := s.settings.parser.put key value } }

/-- Sets one entry of the section for formulas. -/
def setFormula (s : Session) (key : String) (value : Datum) : Session :=
  { s with settings := { s.settings with formula := s.settings.formula.put key value } }

/-- Takes operators out of the table, by their symbols. -/
def withdraw (s : Session) (symbols : List String) : Session :=
  { s with settings := symbols.foldl Settings.withdraw s.settings }

/-- Keeps a converter. -/
def setConverter (s : Session) (id : String) (allowVariables : Bool) : Session :=
  { s with converters := s.converters.put id allowVariables }

/-- Changes a converter. -/
def changeConverter (s : Session) (id : String) (allowVariables : Bool) :
    Except Failure Session :=
  (kept s.converters id).map fun _ => s.setConverter id allowVariables

/-- Keeps a sequence whose tokens all have a place on the value stack. -/
def setSequence (s : Session) (id : String) (tokens : List Token) :
    Except Failure (Session × List Token) :=
  (Expression.placed s.settings (tokens.map .token)).map fun placed =>
    ({ s with sequences := s.sequences.put id placed }, placed)

/-- Converts an expression and keeps its sequence. -/
def convertWith (s : Session) (id : String) (expression : Datum) (into : String) :
    Logged (Session × List Token) := do
  let allowVariables ← Logged.ofExcept (kept s.converters id)
  let tokens ← Expression.read s.settings allowVariables expression
  Logged.ofExcept (s.setSequence into tokens)

/-- The sequences kept under several names, one after another. -/
def joined (s : Session) : List String → Except Failure (List Token)
  | [] => .ok []
  | id :: rest =>
    match kept s.sequences id with
    | .error f => .error f
    | .ok tokens => (joined s rest).map (tokens ++ ·)

/-- What a kept sequence is worth. -/
def calculate (s : Session) (id : String) (bindings : Bindings) : Logged Value := do
  let tokens ← Logged.ofExcept (kept s.sequences id)
  Expression.calculate s.settings bindings (tokens.map .token)

/-- Keeps a formula evaluator. -/
def setEvaluator (s : Session) (id : String) (raiseErrors replaceInfinities : Datum) :
    Session × Choices :=
  let choices := Choices.resolve s.settings raiseErrors replaceInfinities
  ({ s with evaluators := s.evaluators.put id choices }, choices)

/-- Keeps a frame. -/
def setFrame (s : Session) (id : String) (frame : Frame) : Session :=
  { s with frames := s.frames.put id frame }

/-- The column of a formula on a kept frame. -/
def formulaWith (s : Session) (id frame : String) (formula : Datum) : Logged (Series Float) := do
  let choices ← Logged.ofExcept (kept s.evaluators id)
  let frame ← Logged.ofExcept (kept s.frames frame)
  Formula.evaluateAny s.settings choices.options (.frame frame) formula

/-- Applies formulas to a kept frame and keeps the result. -/
def applyWith (s : Session) (id frame : String) (formulas : List Datum) (into : String) :
    Logged (Session × Frame) := do
  let choices ← Logged.ofExcept (kept s.evaluators id)
  let frame ← Logged.ofExcept (kept s.frames frame)
  let made ← Formula.applyAny s.settings choices.options frame formulas
  return (s.setFrame into made, made)

end Session

end Reckon
