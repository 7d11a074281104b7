import TreeWalk.Decimal

/-!
# The text of a number

Numbers are shown with the fewest digits that read back. Those with a leading
digit at `10 ^ (-4)` up to `10 ^ 15` are written out in full, the others with an
exponent of at least two digits: `0.0001`, `1e-05`, `1000000000000000`, `1e+16`.

## Implementation notes

A whole number has two texts, `1.0` and `1`. The long one marks it as a number
where a token is shown, the short one is what a program prints. `Form` tells them
apart; all else about the format is in `leastPositional`, `mostPositional` and
`exponentWidth`.
-/

namespace TreeWalk.NumberText

/-- Whether a whole number keeps its `.0`. -/
inductive Form
  | long
  | short
  deriving DecidableEq

/-- The least power of ten of a leading digit that is written out in full. -/
def leastPositional : Int := -4

/-- The greatest power of ten of a leading digit that is written out in full. -/
def mostPositional : Int := 15

/-- The least number of digits of an exponent. -/
def exponentWidth : Nat := 2

/-- The decimal digits of a natural number, most significant first. -/
def digitsOf (n : Nat) : List Char := Nat.toDigits 10 n

/-- A row of zeros. -/
def zeros (n : Nat) : List Char := List.replicate n '0'

/-- The digits with the point where it belongs: `whole` digits stand before it. -/
def positional (form : Form) (digits : List Char) (whole : Int) : List Char :=
  if whole ≤ 0 then '0' :: '.' :: (zeros (-whole).toNat ++ digits)
  else if whole < digits.length then
    digits.take whole.toNat ++ '.' :: digits.drop whole.toNat
  else
    digits ++ zeros (whole.toNat - digits.length) ++
      match form with
      | .long => ['.', '0']
      | .short => []

/-- The exponent with its sign, padded to `exponentWidth` digits. -/
def exponentPart (exponent : Int) : List Char :=
  let digits := digitsOf exponent.natAbs
  'e' :: (if exponent < 0 then '-' else '+') ::
    (zeros (exponentWidth - digits.length) ++ digits)

/-- The digits with a point after the first one, followed by an exponent. -/
def scientific (digits : List Char) (leading : Int) : List Char :=
  match digits with
  | [] => exponentPart leading
  | [d] => d :: exponentPart leading
  | d :: rest => d :: '.' :: (rest ++ exponentPart leading)

/-- The text of a decimal. -/
def ofDecimal (form : Form) (d : Decimal) : List Char :=
  let digits := digitsOf d.digits
  let whole := d.exponent + digits.length
  if leastPositional ≤ whole - 1 ∧ whole - 1 ≤ mostPositional then
    positional form digits whole
  else
    scientific digits (whole - 1)

/-- The text of a magnitude: a finite one has its shortest decimal. -/
def ofMagnitude (form : Form) (m : Nat) : List Char :=
  if m < Binary64.infinity then ofDecimal form (Decimal.shortest m)
  else ['i', 'n', 'f']

/-- The text of a number. A number that is no number has no sign. -/
def ofFloat (form : Form) (x : Float) : String :=
  let m := Binary64.ofFloat x
  if Binary64.infinity < m then "nan"
  else if Binary64.isNegative x then String.ofList ('-' :: ofMagnitude form m)
  else String.ofList (ofMagnitude form m)

end TreeWalk.NumberText
