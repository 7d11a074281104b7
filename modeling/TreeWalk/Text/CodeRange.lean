/-!
# Ranges of character codes

A property of characters is given by the ranges of the codes that have it.
-/

namespace TreeWalk.Text

/-- The codes from one to another, both included. -/
structure CodeRange where
  first : Nat
  last : Nat
  deriving DecidableEq

namespace CodeRange

/-- Whether the code of a character lies in a range. -/
def contains (range : CodeRange) (c : Char) : Bool :=
  range.first ≤ c.toNat && c.toNat ≤ range.last

/-- Whether the code of a character lies in one of some ranges. -/
def anyContains (ranges : List CodeRange) (c : Char) : Bool :=
  ranges.any fun range => range.contains c

end CodeRange

end TreeWalk.Text
