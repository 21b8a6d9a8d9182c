import Reckon.Number.Shortest

/-! # How a double is written

    A finite double is written with the digits of its shortest decimal. If its leading power of ten
    is from `10^-4` up to `10^15`, the digits stand around the point at their places, with a zero
    where one side of the point would be empty. Otherwise there is one digit before the point, the
    point is written only if digits follow, and the power follows after an `e`, with its sign and at
    least two digits. Infinities are `inf` and `-inf`; what is no number is `nan`, without sign. -/

namespace Reckon.Spelling

/-- The least leading power of ten that is written positionally. -/
def leastPositional : Int := -4

/-- The least leading power of ten above the positional ones. -/
def leastScientific : Int := 16

/-- Digits around the point, `point` digits of them before it. -/
def positional (digits : List Char) (point : Int) : List Char :=
  if point ≤ 0 then '0' :: '.' :: (List.replicate (-point).toNat '0' ++ digits)
  else if point < digits.length then digits.take point.toNat ++ '.' :: digits.drop point.toNat
  else digits ++ List.replicate (point.toNat - digits.length) '0' ++ ['.', '0']

/-- A power of ten: its sign and at least two digits. -/
def power (e : Int) : List Char :=
  let digits := Nat.toDigits 10 e.natAbs
  (if e < 0 then '-' else '+') :: (if digits.length < 2 then '0' :: digits else digits)

/-- One digit before the point, and the power of ten. -/
def scientific (digits : List Char) (e : Int) : List Char :=
  digits.take 1 ++ (if digits.length ≤ 1 then [] else '.' :: digits.drop 1) ++ 'e' :: power e

/-- A positive decimal. -/
def decimal (d : Decimal) : List Char :=
  let digits := Nat.toDigits 10 d.mantissa
  let point := digits.length + d.exponent
  if leastPositional ≤ point - 1 && point - 1 < leastScientific then positional digits point
  else scientific digits (point - 1)

/-- A magnitude, by its code. -/
def magnitude (code : Nat) : List Char :=
  if code = 0 then ['0', '.', '0']
  else if code < Double.infinityCode then decimal (Shortest.decimal code)
  else ['i', 'n', 'f']

/-- The written form of a double, as characters. -/
def chars (x : Float) : List Char :=
  if Double.infinityCode < Double.code x then ['n', 'a', 'n']
  else if Double.isNegative x then '-' :: magnitude (Double.code x)
  else magnitude (Double.code x)

/-- The written form of a double. -/
def float (x : Float) : String := String.ofList (chars x)

end Reckon.Spelling
