/-! # Double-precision numbers as natural numbers

    Without its sign bit, the pattern of a double is a natural number, its *code*. Codes below that
    of infinity are the finite magnitudes in increasing order, and each of these is a whole number
    of *steps* of `2^-1074`, the least positive double. So rounding a quotient of naturals to the
    nearest double is one division of naturals, and nothing here goes through a library routine. -/

namespace Reckon.Double

/-- How many steps make one: `2^1074`. -/
def stepsPerUnit : Nat := 1 <<< 1074

/-- The weight of the exponent field, `2^52`, which is also the number of different fractions. -/
def exponentWeight : Nat := 0x10000000000000

/-- The weight of the sign bit, `2^63`. -/
def signWeight : Nat := 0x8000000000000000

/-- The code of infinity: the exponent field is full and the fraction field empty. -/
def infinityCode : Nat := 0x7FF * exponentWeight

/-- The bit pattern of a double without its sign. -/
def code (x : Float) : Nat := x.toBits.toNat % signWeight

/-- Whether the sign bit is set; zero has a sign too. -/
def isNegative (x : Float) : Bool := signWeight ≤ x.toBits.toNat

/-- The double with the given sign and code. -/
def ofCode (negative : Bool) (code : Nat) : Float :=
  Float.ofBits (UInt64.ofNat (if negative then signWeight + code else code))

/-- The double that is no number. -/
def nan : Float := ofCode false (infinityCode + exponentWeight / 2)

/-- An infinity of the given sign. -/
def infinity (negative : Bool) : Float := ofCode negative infinityCode

/-- The magnitude with the given finite code, in steps. The first `2^52` codes are their own number
    of steps; after them the step doubles with each unit of the exponent field. -/
def steps (code : Nat) : Nat :=
  if code < exponentWeight then code
  else (exponentWeight + code % exponentWeight) <<< (code / exponentWeight - 1)

/-- The natural number nearest to `n / d`; of two at the same distance the even one. -/
def roundEven (n d : Nat) : Nat :=
  let low := n / d
  let twice := 2 * (n % d)
  if twice < d then low else if d < twice then low + 1 else low + low % 2

/-- The code of the double nearest to `n / d`, where `d` is positive. The step is widened until at
    most `2^53` of them are needed; a magnitude beyond the greatest finite one is infinite. -/
def nearest (n d : Nat) : Nat :=
  let exact := n * stepsPerUnit
  let shift := (exact / d).log2 - 52
  min (shift * exponentWeight + roundEven exact (d <<< shift)) infinityCode

/-- The double nearest to a natural number. -/
def ofNat (n : Nat) : Float := ofCode false (nearest n 1)

/-- The double nearest to an integer, if there is a finite one. -/
def ofInt? (n : Int) : Option Float :=
  let code := nearest n.natAbs 1
  if code < infinityCode then some (ofCode (n < 0) code) else none

end Reckon.Double
