import MeasurementCalculus.Decimal.Digits

/-!
# Shortest decimal digits

The shortest decimal number that reads back as a given floating-point number.
What lies between the midpoints to the two neighbouring numbers reads back as
the number itself, and so do the midpoints when the mantissa is even. For
every number of digits only the two decimals next to the value can be nearest
to it, so only these are tried, for one digit, two digits, and so on.
-/

namespace MeasurementCalculus
namespace Decimal

/-- The decimals that read back as a positive number, as fractions with a common
denominator. -/
structure ReadInterval where
  /-- The numerator of the value. -/
  value : Nat
  /-- The numerator of the midpoint to the next smaller number. -/
  lower : Nat
  /-- The numerator of the midpoint to the next larger number. -/
  upper : Nat
  /-- The common denominator. -/
  denominator : Nat
  /-- Whether the midpoints read back as the number. -/
  closed : Bool

namespace ReadInterval

/-- The interval around `mantissa * 2 ^ exponent`, in quarters of the gap to the
next larger number. -/
def ofBinary (mantissa : Nat) (exponent : Int) : ReadInterval :=
  let quarter := exponent - 2
  let below := if Binary.startsRange mantissa exponent then 1 else 2
  { value := raise 2 (4 * mantissa) quarter
    lower := raise 2 (4 * mantissa - below) quarter
    upper := raise 2 (4 * mantissa + 2) quarter
    denominator := raise 2 1 (-quarter)
    closed := mantissa % 2 == 0 }

/-- Measure the interval in units of `10 ^ exponent`. -/
def inUnits
    (interval : ReadInterval)
    (exponent : Int) : ReadInterval :=
  { value := raise 10 interval.value (-exponent)
    lower := raise 10 interval.lower (-exponent)
    upper := raise 10 interval.upper (-exponent)
    denominator := raise 10 interval.denominator exponent
    closed := interval.closed }

/-- Whether an integer lies in the interval. -/
def contains
    (interval : ReadInterval)
    (n : Nat) : Bool :=
  let scaled := n * interval.denominator
  if interval.closed then
    interval.lower ≤ scaled && scaled ≤ interval.upper
  else interval.lower < scaled && scaled < interval.upper

/-- The integer in the interval that is nearest to the value, the larger one of
two equally near ones. -/
def nearest? (interval : ReadInterval) : Option Nat :=
  let below := interval.value / interval.denominator
  let rest := interval.value % interval.denominator
  let preferBelow := 2 * rest < interval.denominator
  match interval.contains below, interval.contains (below + 1) with
  | true, true => some (if preferBelow then below else below + 1)
  | true, false => some below
  | false, true => some (below + 1)
  | false, false => none

/-- Try `count` digits, then one more, at most `fuel` times; after that the
digits before the next one are taken as they are. -/
def shortestFrom
    (interval : ReadInterval)
    (point : Int) :
    Nat → Nat → Digits
  | 0, count =>
      let scaled := interval.inUnits (point - count)
      ⟨scaled.value / scaled.denominator, point - count⟩
  | fuel + 1, count =>
      match (interval.inUnits (point - count)).nearest? with
      | some significand => ⟨significand, point - count⟩
      | none => interval.shortestFrom point fuel (count + 1)

end ReadInterval

/-- The shortest digits that read back as `mantissa * 2 ^ exponent`. Seventeen
digits always suffice. -/
def shortest (mantissa : Nat) (exponent : Int) : Digits :=
  if mantissa = 0 then ⟨0, 0⟩
  else
    let interval := ReadInterval.ofBinary mantissa exponent
    let point := pointPosition interval.value interval.denominator
    (interval.shortestFrom point 17 1).trimmed

end Decimal
end MeasurementCalculus
