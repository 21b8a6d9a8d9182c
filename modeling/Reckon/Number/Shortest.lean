import Reckon.Number.Decimal

/-! # The shortest decimal that reads back

    Among the decimals whose nearest double is a given one, those with the fewest digits are the
    shortest, and the nearest of these stands for the double in writing. The search goes from the
    leading power of ten downwards, one digit at a time. At each power the two neighbours of the
    double on the grid of its multiples are tried, the nearer one first. -/

namespace Reckon.Shortest

/-- How many decimal digits a natural number has. -/
def digitCount (n : Nat) : Nat := (Nat.toDigits 10 n).length

/-- The exponent of the greatest power of ten that is at most `s` steps, for positive `s`. -/
def leadingPower (s : Nat) : Int :=
  if Double.stepsPerUnit ≤ s then (digitCount (s / Double.stepsPerUnit) : Int) - 1
  else -(digitCount ((Double.stepsPerUnit - 1) / s) : Int)

/-- The number of units `10 ^ power` in `s` steps, as numerator and denominator. -/
def inUnits (s : Nat) (power : Int) : Nat × Nat :=
  if 0 ≤ power then (s, Double.stepsPerUnit * Decimal.powerOfTen power.toNat)
  else (s * Decimal.powerOfTen (-power).toNat, Double.stepsPerUnit)

/-- `n` units `10 ^ power`, without a last digit that is zero. -/
def grid (power : Int) (n : Nat) : Decimal :=
  if n % 10 = 0 then ⟨n / 10, power + 1⟩ else ⟨n, power⟩

/-- The two neighbours of `s` steps among the multiples of `10 ^ power`, the nearer one first; of
    two at the same distance, the even multiple. -/
def neighbours (s : Nat) (power : Int) : List Decimal :=
  let (n, d) := inUnits s power
  let low := n / d
  let near := Double.roundEven n d
  [grid power near, grid power (if near = low then low + 1 else low)]

/-- All digits of `s` steps: `2^-1074` is `5^1074 * 10^-1074`. -/
def expansion (s : Nat) : Decimal := ⟨s * Nat.pow 5 1074, -1074⟩

/-- The decimal that stands for the double with the given finite, positive code. Seventeen digits
    tell any two doubles apart, and all digits certainly do. -/
def decimal (code : Nat) : Decimal :=
  let s := Double.steps code
  let top := leadingPower s
  ((List.range 17).findSome? fun (i : Nat) =>
    (neighbours s (top - i)).find? fun d => d.code = code).getD (expansion s)

end Reckon.Shortest
