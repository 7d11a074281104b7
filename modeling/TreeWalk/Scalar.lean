import TreeWalk.NumberText

/-!
# Scalars

The values that have no identity: nil, booleans, numbers and strings. They are
what a literal token carries, what a literal expression holds and what most
expressions evaluate to.
-/

namespace TreeWalk

/-- A value without identity. -/
inductive Scalar
  | nil
  | boolean (value : Bool)
  | number (value : Float)
  | string (value : String)
  deriving DecidableEq, Inhabited

namespace Scalar

/-- The name of a scalar's type in error messages. -/
def typeName : Scalar → String
  | .nil => "nil"
  | .boolean _ => "boolean"
  | .number _ => "number"
  | .string _ => "string"

/-- The text that printing a scalar gives. -/
def text : Scalar → String
  | .nil => "nil"
  | .boolean true => "true"
  | .boolean false => "false"
  | .number x => NumberText.ofFloat .short x
  | .string s => s

/-- The text of a scalar where a token is listed: capitalised constants, and
numbers that show they are numbers. -/
def listing : Scalar → String
  | .nil => "None"
  | .boolean true => "True"
  | .boolean false => "False"
  | .number x => NumberText.ofFloat .long x
  | .string s => s

/-- Everything but nil and false counts as true in a condition. -/
def isTruthy : Scalar → Bool
  | .nil => false
  | .boolean b => b
  | _ => true

/-- Equality as programs see it. Scalars of different types differ; numbers compare
as numbers, so zero equals its negative and a number that is no number differs
from itself. -/
def equals : Scalar → Scalar → Bool
  | .nil, .nil => true
  | .boolean a, .boolean b => a == b
  | .number a, .number b => a == b
  | .string a, .string b => a == b
  | _, _ => false

end Scalar

end TreeWalk
