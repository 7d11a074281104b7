/-!
# Magnitudes of binary64 numbers

The 63 bits below the sign of a double, read as a natural number, order the
nonnegative doubles by value. This module says what such a magnitude is worth,
as a multiple of the smallest positive double, and which magnitude is nearest
to a given fraction.

## Implementation notes

Everything is exact arithmetic on natural numbers. The smallest positive double
is `2 ^ (-1074)`; `units` counts how many of them a magnitude holds, so no
negative exponent and no rounding occurs on the way from bits to value.
-/

namespace TreeWalk.Binary64

/-- The magnitude of infinity; every smaller magnitude is a finite number. -/
def infinity : Nat := 0x7FF0000000000000

/-- The number of fractions that go with an exponent. -/
def fractions : Nat := 0x10000000000000

/-- The magnitude that the sign bit would add. -/
def signBit : Nat := 0x8000000000000000

/-- The number of smallest positive doubles that add up to one. -/
def one : Nat := Nat.pow 2 1074

/-- The number of smallest positive doubles that add up to a finite magnitude. -/
def units (magnitude : Nat) : Nat :=
  if magnitude < fractions then magnitude
  else (fractions + magnitude % fractions) * Nat.pow 2 (magnitude / fractions - 1)

/-- The integer nearest to `num / den`; a tie goes to the even one. -/
def roundHalfEven (num den : Nat) : Nat :=
  let down := num / den
  let twice := 2 * (num % den)
  if twice < den then down
  else if den < twice then down + 1
  else if down % 2 = 0 then down else down + 1

/-- The number of low bits that a count of units loses when 53 are kept. -/
def excess (count : Nat) : Nat := Nat.log2 count - 52

/-- The magnitude nearest to `num / den`, a tie going to the even one. What lies
beyond the largest finite double is infinite. -/
def nearest (num den : Nat) : Nat :=
  let scaled := num * one
  let shift := excess (scaled / den)
  min infinity (shift * fractions + roundHalfEven scaled (den * Nat.pow 2 shift))

/-- The double of a magnitude, negative if so asked. -/
def toFloat (negative : Bool) (magnitude : Nat) : Float :=
  Float.ofBits (UInt64.ofNat (magnitude + if negative then signBit else 0))

/-- The magnitude of a double. -/
def ofFloat (x : Float) : Nat := x.toBits.toNat % signBit

/-- Whether the sign bit of a double is set. -/
def isNegative (x : Float) : Bool := signBit ≤ x.toBits.toNat

end TreeWalk.Binary64
