import Reckon.Refusal
import Reckon.Value.Basic

/-! # Items of sequences

    Callers may hand in sequences of their own making, whose *items* need not be tokens. A constant
    may be an array, a variable may have a name that is no text, and an item may be a stray. Such
    items have no written form. On the value stack all but the strays count as operands. A token of
    one type may also hold an operator of another: it is written and placed as the operator is. -/

namespace Reckon

/-- One unit of a sequence that a caller hands in. -/
inductive Item where
  /-- a token -/
  | token (t : Token)
  /-- a constant that is an array -/
  | array (t : Tensor)
  /-- a variable with a name that is no text, in its written form, and maybe made of parts -/
  | unnamed (shown : String) (composite : Bool)
  /-- an operator in a token of a type that is not its own -/
  | misplaced (type : OperatorType) (op : Operator) (h : op.type ≠ type)
  /-- an item that is no token -/
  | stray (s : Stray)
  /-- an item that is no token, with a tag made of parts, which cannot be looked up in a table -/
  | composite (s : Stray)
  deriving DecidableEq

namespace Item

/-- A value as a constant, which is without labels. -/
def constant : Value → Item
  | .scalar x => token (.number x)
  | .array t => array t
  | .series s => array (Tensor.ofList s.cells)

/-- The token that is written for an item. -/
def written : Item → Except Failure Token
  | token t => .ok t
  | misplaced _ op _ => .ok (.operator op)
  | array _ | unnamed _ _ => .error .wrongKind
  | stray _ | composite _ => .error .noPart

/-- The token that has the place of an item on the value stack, where operands are all alike. -/
def placed : Item → Except Failure Token
  | token t => .ok t
  | misplaced _ op _ => .ok (.operator op)
  | array _ | unnamed _ _ => .ok (.number Double.nan)
  | stray _ => .error .noEntry
  | composite _ => .error .wrongKind

end Item

/-- The tokens that a function finds for items, up to the first item for which it finds none. -/
def tokensBy (find : Item → Except Failure Token) : List Item → Except Failure (List Token)
  | [] => .ok []
  | item :: rest =>
    match find item with
    | .error f => .error f
    | .ok t => (tokensBy find rest).map (t :: ·)

/-- The tokens of one sequence after another follow those of the first, if that has them all. -/
theorem tokensBy_append (find : Item → Except Failure Token) (first second : List Item) :
    tokensBy find (first ++ second)
      = match tokensBy find first with
        | .error f => .error f
        | .ok ts => (tokensBy find second).map (ts ++ ·) := by
  induction first with
  | nil =>
    simp only [List.nil_append, tokensBy]
    cases tokensBy find second <;> rfl
  | cons item rest ih =>
    simp only [List.cons_append, tokensBy, ih]
    cases find item with
    | error f => rfl
    | ok t =>
      cases tokensBy find rest with
      | error f => rfl
      | ok ts => cases tokensBy find second <;> rfl

/-- A function that finds every token itself finds all tokens of a sequence. -/
theorem tokensBy_map_token {find : Item → Except Failure Token}
    (h : ∀ t, find (.token t) = .ok t) (tokens : List Token) :
    tokensBy find (tokens.map .token) = .ok tokens := by
  induction tokens with
  | nil => rfl
  | cons t rest ih => simp [tokensBy, h, ih, Except.map]

end Reckon
