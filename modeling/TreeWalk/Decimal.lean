import TreeWalk.Binary64

/-!
# Decimals and their binary64 magnitudes

A decimal is an integer scaled by a power of ten. Reading one rounds it to the
nearest magnitude; `shortest` goes the other way and finds the decimal with the
fewest digits that reads back as the given magnitude.

## Implementation notes

The multiples of a power of ten form a grid, and a coarser grid means fewer
digits. If any point of a grid reads back as a magnitude, then so does one of the
two points next to the magnitude's value, so `onGrid` tries those two and
`shortestFrom` walks from coarse grids to fine ones. The walk always ends: on the
grid of `10 ^ (-1074)` the value itself is a point.
-/

namespace TreeWalk

/-- The number `digits * 10 ^ exponent`. -/
structure Decimal where
  digits : Nat
  exponent : Int
  deriving DecidableEq

namespace Decimal

/-- The magnitude nearest to a decimal. -/
def magnitude (d : Decimal) : Nat :=
  Binary64.nearest (d.digits * Nat.pow 10 d.exponent.toNat)
    (Nat.pow 10 (-d.exponent).toNat)

/-- The value of a row of decimal digits. -/
def ofDigits (digits : List Char) : Nat :=
  digits.foldl (fun value c => 10 * value + (c.toNat - '0'.toNat)) 0

/-- The decimal written with these digits before and after the point. -/
def ofText (whole fraction : List Char) : Decimal :=
  ⟨ofDigits (whole ++ fraction), -(fraction.length : Int)⟩

/-- The finest grid: every finite magnitude is a multiple of its step. -/
def finest : Nat := 1074

/-- The value of a finite magnitude without rounding. -/
def exact (m : Nat) : Decimal :=
  ⟨Binary64.units m * Nat.pow 5 finest, -(finest : Int)⟩

/-- The point next to the value of `m` on the grid of `10 ^ exponent` that reads
back as `m`: the nearer one if both do. -/
def onGrid (m : Nat) (exponent : Int) : Option Decimal :=
  let num := Binary64.units m * Nat.pow 10 (-exponent).toNat
  let den := Binary64.one * Nat.pow 10 exponent.toNat
  let near := Binary64.roundHalfEven num den
  let far := if near = num / den then near + 1 else near - 1
  [Decimal.mk near exponent, ⟨far, exponent⟩].find? (fun d => d.magnitude == m)

/-- The first hit on the grids from `10 ^ (steps - finest)` downward. -/
def shortestFrom (m : Nat) : Nat → Decimal
  | 0 => exact m
  | steps + 1 => (onGrid m (steps + 1 - finest)).getD (shortestFrom m steps)

/-- A grid so coarse that the value of `m` lies well below its first point:
`30103 / 100000` is just above the decimal logarithm of two. -/
def coarsest (m : Nat) : Nat :=
  (((Nat.log2 (Binary64.units m) : Int) - 1073) * 30103 / 100000 + 2 + finest).toNat

/-- The decimal with the fewest digits that reads back as the finite magnitude
`m`, and of those the one nearest to it. -/
def shortest (m : Nat) : Decimal :=
  if m = 0 then ⟨0, 0⟩ else shortestFrom m (coarsest m)

end Decimal

end TreeWalk
