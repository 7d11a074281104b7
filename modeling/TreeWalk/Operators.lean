import TreeWalk.Stop
import TreeWalk.Value

/-!
# Operators

The operators on values that have been computed. The two that may leave their right
operand uncomputed are no operators in this sense.
-/

namespace TreeWalk.Operators

/-- Stop for a broken rule at the token of an operator. -/
def refuse (cause : RuntimeCause) (operator : Token) : Except Stop Value :=
  .error (.error ⟨cause, operator⟩)

/-- The quotient of two numbers; a divisor of zero, of either sign, is a fault. -/
def quotient (x y : Float) : Except Stop Value :=
  if y == 0 then .error (.fault .zeroDivisor) else .ok (.number (x / y))

/-- The result of an operator on numbers. A divisor of zero is refused before the
quotient is computed. -/
def arithmetic (operator : Token) (x y : Float) : Except Stop Value :=
  match operator.kind with
  | .greater => .ok (.boolean (x > y))
  | .greaterEqual => .ok (.boolean (x ≥ y))
  | .less => .ok (.boolean (x < y))
  | .lessEqual => .ok (.boolean (x ≤ y))
  | .minus => .ok (.number (x - y))
  | .star => .ok (.number (x * y))
  | .slash => if y == 0 then refuse .divisionByZero operator else quotient x y
  | _ => refuse .unknownBinaryOperator operator

/-- The result of an operator between two operands. Equality takes any two values, a
plus two numbers or two strings, every other operator two numbers. -/
def binary (operator : Token) (left right : Value) : Except Stop Value :=
  match operator.kind with
  | .bangEqual => .ok (.boolean !(left.equals right))
  | .equalEqual => .ok (.boolean (left.equals right))
  | .plus =>
    match left, right with
    | .scalar (.number x), .scalar (.number y) => .ok (.number (x + y))
    | .scalar (.string s), .scalar (.string t) => .ok (.scalar (.string (s ++ t)))
    | _, _ => refuse (.operandsNotAddable left.typeName right.typeName) operator
  | _ =>
    match left, right with
    | .scalar (.number x), .scalar (.number y) => arithmetic operator x y
    | _, _ => refuse (.operandsNotNumbers left.typeName right.typeName) operator

/-- The result of an operator before its operand. -/
def unary (operator : Token) (operand : Value) : Except Stop Value :=
  match operator.kind with
  | .bang => .ok (.boolean !operand.isTruthy)
  | .minus =>
    match operand with
    | .scalar (.number x) => .ok (.number (-x))
    | _ => refuse (.operandNotNumber operand.typeName) operator
  | _ => refuse .unknownUnaryOperator operator

end TreeWalk.Operators
