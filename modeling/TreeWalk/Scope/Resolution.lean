import TreeWalk.Scope.Surroundings

/-!
# Applying the scope rules

A walk over a program in the order of its text finds for every use of a local name
how many scopes lie between the use and the scope that declares the name, and checks
the scope rules on the way. The result is the same program with the distances filled
in.
-/

namespace TreeWalk

/-- The context of a method's body. -/
def methodContext (name : Token) : FunctionContext :=
  if name.lexeme = "init" then .initializer else .method

open Resolve

mutual

/-- An expression with its distances. -/
def Expr.resolve : Expr → Resolve Expr
  | .literal value => return .literal value
  | .variable reference => return .variable (← readVariable reference)
  | .assign reference value => do
    let value ← value.resolve
    return .assign (← locate .assign reference) value
  | .this reference => do
    checkThis reference.name
    return .this (← locate .this reference)
  | .super reference method => do
    checkSuper reference.name
    return .super (← locate .super reference) method
  | .grouping inner => return .grouping (← inner.resolve)
  | .unary operator operand => return .unary operator (← operand.resolve)
  | .binary left operator right => do
    let left ← left.resolve
    return .binary left operator (← right.resolve)
  | .logical left operator right => do
    let left ← left.resolve
    return .logical left operator (← right.resolve)
  | .conditional condition consequent alternative => do
    let condition ← condition.resolve
    let consequent ← consequent.resolve
    return .conditional condition consequent (← alternative.resolve)
  | .comma items => return .comma (← Expr.resolveEach items)
  | .call callee paren arguments => do
    let callee ← callee.resolve
    return .call callee paren (← Expr.resolveEach arguments)
  | .get object name => return .get (← object.resolve) name
  | .set object name value => do
    let value ← value.resolve
    return .set (← object.resolve) name value
  | .lambda keyword params body =>
    return .lambda keyword params (← routine .function params (Stmt.resolveEach body))

/-- Expressions in order. -/
def Expr.resolveEach : List Expr → Resolve (List Expr)
  | [] => return []
  | e :: rest => do
    let e ← e.resolve
    return e :: (← Expr.resolveEach rest)

/-- A statement with its distances. -/
def Stmt.resolve : Stmt → Resolve Stmt
  | .expression value => return .expression (← value.resolve)
  | .print value => return .print (← value.resolve)
  | .varDecl name none => do
    declareReady name
    return .varDecl name none
  | .varDecl name (some initial) => do
    declare name
    let initial ← initial.resolve
    settle name
    return .varDecl name (some initial)
  | .block body =>
    inScope .empty do
      let body ← Stmt.resolveEach body
      checkBlock
      return .block body
  | .branch condition consequent none => do
    let condition ← condition.resolve
    return .branch condition (← consequent.resolve) none
  | .branch condition consequent (some alternative) => do
    let condition ← condition.resolve
    let consequent ← consequent.resolve
    return .branch condition consequent (some (← alternative.resolve))
  | .loop condition body => do
    let condition ← condition.resolve
    return .loop condition (← body.resolve)
  | .functionDecl (.mk name params body) => do
    declareReady name
    return .functionDecl (.mk name params (← routine .function params (Stmt.resolveEach body)))
  | .classDecl name parent methods =>
    inClass (if parent.isSome then .derived else .base) do
      declareReady name
      let parent ← superclass name parent
      let methods ← inClassScopes parent.isSome (FunctionDecl.resolveEach methods)
      return .classDecl name parent methods
  | .returns keyword none => do
    checkReturn keyword false
    return .returns keyword none
  | .returns keyword (some value) => do
    checkReturn keyword true
    return .returns keyword (some (← value.resolve))

/-- Statements in order. -/
def Stmt.resolveEach : List Stmt → Resolve (List Stmt)
  | [] => return []
  | s :: rest => do
    let s ← s.resolve
    return s :: (← Stmt.resolveEach rest)

/-- Methods in order. -/
def FunctionDecl.resolveEach : List FunctionDecl → Resolve (List FunctionDecl)
  | [] => return []
  | .mk name params body :: rest => do
    let body ← routine (methodContext name) params (Stmt.resolveEach body)
    return .mk name params body :: (← FunctionDecl.resolveEach rest)

end

end TreeWalk
