import TreeWalk.Proofs.Loops.Counting
import TreeWalk.Session

/-!
# Counting loops in the scope rules

The scope rules for programs in which a counting loop brings no scope with it but the one of its
first clause: its condition, its body and its increment are all placed in the scope of the loop.
All other rules are as they always are.
-/

namespace TreeWalk

namespace Counting

open Resolve

mutual

/-- An expression with its distances. -/
def resolveExpr : Expr → Resolve Expr
  | .literal value => return .literal value
  | .variable reference => return .variable (← readVariable reference)
  | .assign reference value => do
    let value ← resolveExpr value
    return .assign (← locate .assign reference) value
  | .this reference => do
    checkThis reference.name
    return .this (← locate .this reference)
  | .super reference method => do
    checkSuper reference.name
    return .super (← locate .super reference) method
  | .grouping inner => return .grouping (← resolveExpr inner)
  | .unary operator operand => return .unary operator (← resolveExpr operand)
  | .binary left operator right => do
    let left ← resolveExpr left
    return .binary left operator (← resolveExpr right)
  | .logical left operator right => do
    let left ← resolveExpr left
    return .logical left operator (← resolveExpr right)
  | .conditional condition consequent alternative => do
    let condition ← resolveExpr condition
    let consequent ← resolveExpr consequent
    return .conditional condition consequent (← resolveExpr alternative)
  | .comma items => return .comma (← resolveExprs items)
  | .call callee paren arguments => do
    let callee ← resolveExpr callee
    return .call callee paren (← resolveExprs arguments)
  | .get object name => return .get (← resolveExpr object) name
  | .set object name value => do
    let value ← resolveExpr value
    return .set (← resolveExpr object) name value
  | .lambda keyword params body =>
    return .lambda keyword params (← routine .function params (resolveStmts body))

/-- Expressions in order. -/
def resolveExprs : List Expr → Resolve (List Expr)
  | [] => return []
  | e :: rest => do
    let e ← resolveExpr e
    return e :: (← resolveExprs rest)

/-- A statement with its distances. -/
def resolveStmt : Stmt → Resolve Stmt
  | .expression value => return .expression (← resolveExpr value)
  | .print value => return .print (← resolveExpr value)
  | .varDecl name none => do
    declareReady name
    return .varDecl name none
  | .varDecl name (some initial) => do
    declare name
    let initial ← resolveExpr initial
    settle name
    return .varDecl name (some initial)
  | .block body =>
    inScope .empty do
      let body ← resolveStmts body
      checkBlock
      return .block body
  | .branch condition consequent none => do
    let condition ← resolveExpr condition
    return .branch condition (← resolveStmt consequent) none
  | .branch condition consequent (some alternative) => do
    let condition ← resolveExpr condition
    let consequent ← resolveStmt consequent
    return .branch condition consequent (some (← resolveStmt alternative))
  | .loop condition (.block items) => do
    let condition ← resolveExpr condition
    if (Stmt.pass? items).isSome then
      return .loop condition (.block (← resolveStmts items))
    else
      return .loop condition (← inScope .empty do
        let items ← resolveStmts items
        checkBlock
        return .block items)
  | .loop condition body => do
    let condition ← resolveExpr condition
    return .loop condition (← resolveStmt body)
  | .functionDecl (.mk name params body) => do
    declareReady name
    return .functionDecl (.mk name params (← routine .function params (resolveStmts body)))
  | .classDecl name parent methods =>
    inClass (if parent.isSome then .derived else .base) do
      declareReady name
      let parent ← superclass name parent
      let methods ← inClassScopes parent.isSome (resolveMethods methods)
      return .classDecl name parent methods
  | .returns keyword none => do
    checkReturn keyword false
    return .returns keyword none
  | .returns keyword (some value) => do
    checkReturn keyword true
    return .returns keyword (some (← resolveExpr value))

/-- Statements in order. -/
def resolveStmts : List Stmt → Resolve (List Stmt)
  | [] => return []
  | s :: rest => do
    let s ← resolveStmt s
    return s :: (← resolveStmts rest)

/-- Methods in order. -/
def resolveMethods : List FunctionDecl → Resolve (List FunctionDecl)
  | [] => return []
  | .mk name params body :: rest => do
    let body ← routine (methodContext name) params (resolveStmts body)
    return .mk name params body :: (← resolveMethods rest)

end

end Counting

end TreeWalk
