/-!
# Binary numbers

A floating-point number of double precision is a sign and a natural number times
a power of two, or infinite, or not a number at all. Reading it off the bits of
the number makes its exact value available to integer arithmetic.
-/

namespace MeasurementCalculus
namespace Decimal

/-- The exact value of a floating-point number. -/
inductive Binary
  /-- No number. -/
  | nan
  /-- An infinite value. -/
  | infinite (negative : Bool)
  /-- The value `mantissa * 2 ^ exponent` with a sign. -/
  | finite (negative : Bool) (mantissa : Nat) (exponent : Int)
  deriving DecidableEq

namespace Binary

/-- The mantissa of a number whose leading digit is one lies between this power of
two and the next. -/
def leadingDigit : Nat := Nat.pow 2 52

/-- The value that 64 bits encode: a sign bit, eleven exponent bits and 52 bits
of the fraction. The least exponent is shared by the numbers whose leading digit
is zero; the greatest one marks infinite values and those that are no number. -/
def ofBits (bits : Nat) : Binary :=
  let negative := bits.testBit 63
  let field : Nat := bits / leadingDigit % 2048
  let fraction : Nat := bits % leadingDigit
  if field = 2047 then
    if fraction = 0 then .infinite negative else .nan
  else if field = 0 then .finite negative fraction (-1074)
  else .finite negative (leadingDigit + fraction) (field - 1075)

/-- The exact value of a floating-point number. -/
def ofFloat (value : Float) : Binary :=
  ofBits value.toBits.toNat

/-- Whether the gap to the next smaller number is half as large as the gap to the
next larger one: the number starts a new range of exponents. -/
def startsRange (mantissa : Nat) (exponent : Int) : Bool :=
  mantissa == leadingDigit && exponent != -1074

end Binary

/-- The natural number `n * base ^ exponent` if the exponent is not negative, and
`n` otherwise. -/
def raise
    (base n : Nat)
    (exponent : Int) : Nat :=
  n * Nat.pow base exponent.toNat

end Decimal
end MeasurementCalculus
