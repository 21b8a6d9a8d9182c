import Reckon.Operator

/-! # Arithmetic on doubles

    Sums, products, quotients and square roots are correctly rounded; the other functions are those
    of the mathematics library of the platform. No operation fails: a division by zero is infinite,
    and an argument outside a function's domain gives what is no number.

    A power whose exponent is the same for all bases is computed as a square, a reciprocal or a
    square root where the exponent asks for one. This differs from the general power in a few
    places: the square root of a negative infinity is no number, and that of the negative zero is
    the negative zero. -/

namespace Reckon.Scalar

/-- A binary operator on two doubles. -/
def binary : Binary → Float → Float → Float
  | .add, x, y => x + y
  | .sub, x, y => x - y
  | .mul, x, y => x * y
  | .div, x, y => x / y
  | .pow, x, y => Float.pow x y

/-- A function of one double. -/
def function : Function → Float → Float
  | .sin, x => x.sin
  | .cos, x => x.cos
  | .tan, x => x.tan
  | .sqrt, x => x.sqrt
  | .ln, x => x.log

/-- The power with a fixed exponent. -/
def powerBy (exponent x : Float) : Float :=
  if exponent == 2 then x * x
  else if exponent == -1 then 1 / x
  else if exponent == 0.5 then x.sqrt
  else Float.pow x exponent

end Reckon.Scalar
