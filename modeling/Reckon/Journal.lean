import Reckon.Refusal

/-! # The journal

    Every computation may leave entries in a journal, in the order in which they arise, whether it
    succeeds or fails. A *logged* outcome is an outcome together with its entries; running one
    computation after another puts the entries of the second after those of the first, and a
    computation that follows a failure leaves none. -/

namespace Reckon

/-- How much an entry matters. -/
inductive Level where
  | debug | info | warning | error
  deriving DecidableEq, Repr

/-- Which part of the library wrote an entry. -/
inductive Origin where
  | conversion | evaluation | formula | settings
  deriving DecidableEq, Repr

/-- One entry of the journal. -/
structure Entry where
  level : Level
  origin : Origin
  text : String
  deriving DecidableEq, Repr

/-- An outcome and the entries that led to it. -/
structure Logged (α : Type) where
  entries : List Entry
  outcome : Except Failure α

namespace Logged

variable {α β : Type}

/-- A result without entries. -/
def ok (a : α) : Logged α := ⟨[], .ok a⟩

/-- A failure without entries. -/
def fail (f : Failure) : Logged α := ⟨[], .error f⟩

/-- An outcome without entries. -/
def ofExcept (r : Except Failure α) : Logged α := ⟨[], r⟩

/-- One entry and nothing else. -/
def note (level : Level) (origin : Origin) (text : String) : Logged Unit :=
  ⟨[⟨level, origin, text⟩], .ok ()⟩

/-- One computation after another. -/
def bind (first : Logged α) (next : α → Logged β) : Logged β :=
  match first.outcome with
  | .error f => ⟨first.entries, .error f⟩
  | .ok a => ⟨first.entries ++ (next a).entries, (next a).outcome⟩

instance : Monad Logged where
  pure := ok
  bind := bind

end Logged

end Reckon
