/-! # Blank characters and words

    *White space* is the Unicode property of that name. A *blank* is white space or one of the four
    information separators U+001C to U+001F; blanks separate lexemes and words and carry no meaning
    of their own. A text is read as words by cutting it at its maximal runs of blanks, so no word is
    empty and no word holds a blank. Only white space is trimmed from the ends of a text. -/

namespace Reckon.Text

/-- The white space outside the two contiguous ranges, by code point. -/
def whiteSpaceCodes : List Nat :=
  [0x20, 0x85, 0xA0, 0x1680, 0x2028, 0x2029, 0x202F, 0x205F, 0x3000]

/-- White space in the sense of Unicode. -/
def isWhiteSpace (c : Char) : Bool :=
  let n := c.toNat
  (0x09 ≤ n && n ≤ 0x0D) || (0x2000 ≤ n && n ≤ 0x200A) || whiteSpaceCodes.contains n

/-- White space and the information separators. -/
def isBlank (c : Char) : Bool :=
  isWhiteSpace c || (0x1C ≤ c.toNat && c.toNat ≤ 0x1F)

/-- Puts a character that is no blank in front of the words of the text `rest` that follows it:
    it extends the first word if that word starts at once, and is a word of its own otherwise. -/
def joinWord (c : Char) (rest : List Char) (words : List (List Char)) : List (List Char) :=
  match rest, words with
  | d :: _, w :: ws => if isBlank d then [c] :: w :: ws else (c :: w) :: ws
  | _, ws => [c] :: ws

/-- The words of a text, in order. -/
def words : List Char → List (List Char)
  | [] => []
  | c :: rest => if isBlank c then words rest else joinWord c rest (words rest)

/-- The text without the white space at its start. -/
def trimLeft (text : List Char) : List Char :=
  text.dropWhile isWhiteSpace

/-- The text without the white space at its two ends. -/
def trim (text : List Char) : List Char :=
  (trimLeft (trimLeft text).reverse).reverse

end Reckon.Text
