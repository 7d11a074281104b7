import TreeWalk.Report

/-!
# Why a run stops early

A program that breaks a rule of the language stops with a runtime error at a token.
Two other reasons are kept apart from it: a fault, which only a program that skipped
the scope rules can run into, and running out of fuel, which says that a run was cut
off and nothing about the program.
-/

namespace TreeWalk

/-- The rules of the language that a running program may break. Types are given by
their names. -/
inductive RuntimeCause
  | undefinedVariable
  | undefinedProperty
  | noProperties
  | notCallable (type : String)
  | argumentCount (expected given : Nat)
  | superclassIsNoClass
  | operandsNotNumbers (left right : String)
  | operandsNotAddable (left right : String)
  | operandNotNumber (type : String)
  | divisionByZero
  | unknownBinaryOperator
  | unknownUnaryOperator
  deriving DecidableEq

/-- A broken rule at a token. -/
structure RuntimeError where
  cause : RuntimeCause
  token : Token
  deriving DecidableEq

/-- The message for a broken rule; `name` is the text of the token it is found at. -/
def RuntimeCause.message (name : String) : RuntimeCause → String
  | .undefinedVariable => "Undefined variable '" ++ name ++ "'."
  | .undefinedProperty => "Undefined property '" ++ name ++ "'."
  | .noProperties => "Only instances have properties."
  | .notCallable type => "Can only call functions and classes, got " ++ type ++ "."
  | .argumentCount expected given =>
    "Expected " ++ toString expected ++ " arguments but got " ++ toString given ++ "."
  | .superclassIsNoClass => "Superclass must be a class."
  | .operandsNotNumbers left right =>
    "Operands must be numbers, got " ++ left ++ " and " ++ right ++ "."
  | .operandsNotAddable left right =>
    "Operands must be two numbers or two strings, got " ++ left ++ " and " ++ right ++ "."
  | .operandNotNumber type => "Operand must be a number, got " ++ type ++ "."
  | .divisionByZero => "Division by zero."
  | .unknownBinaryOperator => "Unknown binary operator '" ++ name ++ "'."
  | .unknownUnaryOperator => "Unknown unary operator '" ++ name ++ "'."

/-- What the user is told about a broken rule. -/
def RuntimeError.report (e : RuntimeError) : Report :=
  .atToken .running (e.cause.message e.token.lexeme) e.token

/-- Disagreements between a program and the frames it runs in. -/
inductive Fault
  /-- There is no frame at this distance. -/
  | noFrame (distance : Nat)
  /-- A use of `super` has no distance. -/
  | unlocatedSuper
  /-- The frame that should bind `this` does not. -/
  | missingThis
  /-- The value recorded as the superclass is no class. -/
  | superIsNoClass
  /-- A number is divided by zero. -/
  | zeroDivisor
  /-- A value refers to nothing. -/
  | dangling
  deriving DecidableEq

/-- Why a run stops early. -/
inductive Stop
  | error (e : RuntimeError)
  | fault (f : Fault)
  | outOfFuel
  deriving DecidableEq

end TreeWalk
