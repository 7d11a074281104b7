import TreeWalk.Token

/-!
# Syntax trees

The trees that the grammar builds, the scope rules annotate and the evaluator walks.

## Implementation notes

A reference knows how far away its binding lies once the scope rules have been
applied; the grammar leaves that open. A reference without a distance is looked
up among the globals. The nodes keep the tokens that errors point at.
-/

namespace TreeWalk

/-- The use of a name: its token and, once it is known to be local, the number of
scopes between the use and the scope that declares the name. -/
structure Reference where
  name : Token
  distance : Option Nat
  deriving DecidableEq, Inhabited

/-- A reference as it is written, before the scope rules are applied. -/
def Reference.ofToken (name : Token) : Reference := ⟨name, none⟩

mutual

/-- Expressions. -/
inductive Expr
  | literal (value : Scalar)
  | variable (reference : Reference)
  | assign (reference : Reference) (value : Expr)
  | this (reference : Reference)
  | super (reference : Reference) (method : Token)
  | grouping (inner : Expr)
  | unary (operator : Token) (operand : Expr)
  | binary (left : Expr) (operator : Token) (right : Expr)
  | logical (left : Expr) (operator : Token) (right : Expr)
  | conditional (condition consequent alternative : Expr)
  | comma (items : List Expr)
  | call (callee : Expr) (paren : Token) (arguments : List Expr)
  | get (object : Expr) (name : Token)
  | set (object : Expr) (name : Token) (value : Expr)
  | lambda (keyword : Token) (params : List Token) (body : List Stmt)

/-- Statements. -/
inductive Stmt
  | expression (value : Expr)
  | print (value : Expr)
  | varDecl (name : Token) (initial : Option Expr)
  | block (body : List Stmt)
  | branch (condition : Expr) (consequent : Stmt) (alternative : Option Stmt)
  | loop (condition : Expr) (body : Stmt)
  | functionDecl (function : FunctionDecl)
  | classDecl (name : Token) (superclass : Option Reference) (methods : List FunctionDecl)
  | returns (keyword : Token) (value : Option Expr)

/-- A function or method with its name. -/
inductive FunctionDecl
  | mk (name : Token) (params : List Token) (body : List Stmt)

end

namespace FunctionDecl

/-- The name under which the function is declared. -/
def name : FunctionDecl → Token
  | mk name _ _ => name

/-- The names of the arguments, in order. -/
def params : FunctionDecl → List Token
  | mk _ params _ => params

/-- The statements of the function. -/
def body : FunctionDecl → List Stmt
  | mk _ _ body => body

end FunctionDecl

end TreeWalk
