import Reckon.Number.Double

/-! # Decimal numbers and the doubles nearest to them

    A *decimal* is a natural number times a power of ten. Its double is the nearest one, found by
    exact arithmetic; decimals far outside the range of doubles are told apart by their exponent
    alone, so that no power of ten of unreasonable size is ever computed. -/

namespace Reckon

/-- The number `mantissa * 10 ^ exponent`. -/
structure Decimal where
  mantissa : Nat
  exponent : Int
  deriving DecidableEq, Repr

namespace Decimal

/-- A power of ten. -/
def powerOfTen (k : Nat) : Nat := Nat.pow 10 k

/-- Every positive decimal with at least this exponent is beyond the greatest double. -/
def hugeExponent : Int := 400

/-- The code of the nearest double. A mantissa `m` is below `10 ^ (log2 m + 1)`, so an exponent
    below `-(400 + log2 m)` leaves less than half of the least positive double. -/
def code (d : Decimal) : Nat :=
  if d.mantissa = 0 then 0
  else if hugeExponent ≤ d.exponent then Double.infinityCode
  else if d.exponent < -(hugeExponent + d.mantissa.log2) then 0
  else if 0 ≤ d.exponent then Double.nearest (d.mantissa * powerOfTen d.exponent.toNat) 1
  else Double.nearest d.mantissa (powerOfTen (-d.exponent).toNat)

/-- The nearest double, with a sign. -/
def toFloat (negative : Bool) (d : Decimal) : Float :=
  Double.ofCode negative d.code

end Decimal

end Reckon
