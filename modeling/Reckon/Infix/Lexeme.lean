import Reckon.Operator
import Reckon.Number.Numeral
import Reckon.Text.Blank

/-! # The lexemes of an infix expression

    An expression is cut into lexemes from left to right, each as long as it can be: numerals of
    ASCII digits with at most one point, runs of ASCII letters, operator signs and brackets. Letters
    directly before a round opening bracket name a function; all other letters name a constant or a
    variable. Blanks belong to no lexeme. A character that begins no lexeme is kept as one of its
    own, so cutting never fails: that such a character is refused, and a second point with it, is
    found when the lexemes are read.

        text:     sqrt ( 2 . 5 ) . 1 a
        lexemes:  call [ number ]  stray number name -/

namespace Reckon

/-- The units of an infix expression. -/
inductive Lexeme where
  /-- digits, and the digits after the point if there is one -/
  | number (whole : List Char) (fraction : Option (List Char))
  /-- letters that are not directly followed by a round opening bracket -/
  | name (letters : List Char)
  /-- letters that are directly followed by a round opening bracket -/
  | call (letters : List Char)
  /-- an operator sign, binary or unary -/
  | sign (op : Binary)
  /-- an opening bracket -/
  | opening (bracket : Bracket)
  /-- a closing bracket -/
  | closing (bracket : Bracket)
  /-- a character that belongs to no expression -/
  | stray (c : Char)
  deriving DecidableEq, Repr

/-- A lexeme and how many characters come before it. -/
structure Placed where
  position : Nat
  lexeme : Lexeme
  deriving DecidableEq, Repr

namespace Lexeme

/-- The numeral that begins with the digit `c`, and how many of the characters after `c` belong to
    it. A point belongs to it even if no digit follows. -/
def numeral (c : Char) (rest : List Char) : Lexeme × Nat :=
  let whole := rest.takeWhile Char.isDigit
  match rest.drop whole.length with
  | '.' :: more =>
    let fraction := more.takeWhile Char.isDigit
    (number (c :: whole) (some fraction), whole.length + 1 + fraction.length)
  | _ => (number (c :: whole) none, whole.length)

/-- The run of letters that begins with the letter `c`, and how many of the characters after `c`
    belong to it. -/
def word (c : Char) (rest : List Char) : Lexeme × Nat :=
  let letters := rest.takeWhile Char.isAlpha
  match rest.drop letters.length with
  | '(' :: _ => (call (c :: letters), letters.length)
  | _ => (name (c :: letters), letters.length)

/-- The lexeme of a character that is a lexeme by itself. -/
def single (c : Char) : Lexeme :=
  match Binary.ofChar? c, Bracket.ofOpening? c, Bracket.ofClosing? c with
  | some op, _, _ => sign op
  | none, some bracket, _ => opening bracket
  | none, none, some bracket => closing bracket
  | none, none, none => stray c

/-- The lexeme that begins with `c`, unless `c` is a blank, and how many of the characters after
    `c` belong to it. -/
def next (c : Char) (rest : List Char) : Option Lexeme × Nat :=
  if Text.isBlank c then (none, 0)
  else if c.isDigit then ((numeral c rest).map some id)
  else if c.isAlpha then ((word c rest).map some id)
  else (some (single c), 0)

/-- The lexemes of a text whose first `skip` characters belong to a lexeme already read and which
    begins at `position`. -/
def scan (skip position : Nat) : List Char → List Placed
  | [] => []
  | c :: rest =>
    match skip with
    | more + 1 => scan more (position + 1) rest
    | 0 =>
      match next c rest with
      | (some lexeme, more) => ⟨position, lexeme⟩ :: scan more (position + 1) rest
      | (none, more) => scan more (position + 1) rest

@[simp] theorem scan_nil (skip position : Nat) : scan skip position [] = [] := by
  unfold scan
  rfl

/-- Characters already read are passed over. -/
theorem scan_skip (skip position : Nat) (text : List Char) :
    scan skip position text = scan 0 (position + skip) (text.drop skip) := by
  induction skip generalizing position text with
  | zero => simp
  | succ more ih =>
    cases text with
    | nil => simp
    | cons c rest =>
      simp only [scan, List.drop_succ_cons]
      rw [ih, Nat.add_right_comm, Nat.add_assoc]

/-- The lexemes of an expression. -/
def lexemes (text : List Char) : List Placed := scan 0 0 text

/-- The value of a digit of a numeral. -/
def digit (c : Char) : Nat := c.toNat - '0'.toNat

/-- The double nearest to the number that a numeral denotes. -/
def value (whole : List Char) (fraction : Option (List Char)) : Float :=
  (Numeral.mk (whole.map digit) ((fraction.getD []).map digit) 0).decimal.toFloat false

end Lexeme

end Reckon
