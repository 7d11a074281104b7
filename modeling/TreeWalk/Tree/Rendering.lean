import TreeWalk.Tree

/-!
# Syntax trees as text

A tree is written as a nest of parenthesised lists, operator first. A block puts
each of its statements on a line of its own.
-/

namespace TreeWalk

/-- A list of parts in parentheses. -/
def parenthesized (parts : List String) : String :=
  "(" ++ " ".intercalate parts ++ ")"

/-- A list whose head stands on a line of its own, followed by `lines`. -/
def headedLines (head lines : String) : String :=
  "(" ++ head ++ "\n" ++ lines ++ ")"

mutual

/-- The text of an expression. -/
def Expr.render : Expr → String
  | .literal value => value.text
  | .variable reference => reference.name.lexeme
  | .assign reference value => parenthesized ["set!", reference.name.lexeme, value.render]
  | .this _ => "(this)"
  | .super _ method => parenthesized ["super", method.lexeme]
  | .grouping inner => parenthesized ["group", inner.render]
  | .unary operator operand => parenthesized [operator.lexeme, operand.render]
  | .binary left operator right => parenthesized [operator.lexeme, left.render, right.render]
  | .logical left operator right => parenthesized [operator.lexeme, left.render, right.render]
  | .conditional condition consequent alternative =>
    parenthesized ["if", condition.render, consequent.render, alternative.render]
  | .comma items => parenthesized ("begin" :: Expr.renderEach items)
  | .call callee _ arguments => parenthesized (callee.render :: Expr.renderEach arguments)
  | .get object name => parenthesized ["get", object.render, name.lexeme]
  | .set object name value =>
    parenthesized ["set!", object.render, name.lexeme, value.render]
  | .lambda _ params body =>
    parenthesized ["lambda", parenthesized (params.map Token.lexeme),
      headedLines "begin" (Stmt.renderLines body)]

/-- The texts of some expressions. -/
def Expr.renderEach : List Expr → List String
  | [] => []
  | e :: rest => e.render :: Expr.renderEach rest

/-- The text of a statement. -/
def Stmt.render : Stmt → String
  | .expression value => value.render
  | .print value => parenthesized ["print", value.render]
  | .varDecl name none => parenthesized ["define", name.lexeme]
  | .varDecl name (some initial) => parenthesized ["define", name.lexeme, initial.render]
  | .block body => headedLines "begin" (Stmt.renderLines body)
  | .branch condition consequent none =>
    parenthesized ["if", condition.render, consequent.render]
  | .branch condition consequent (some alternative) =>
    parenthesized ["if", condition.render, consequent.render, alternative.render]
  | .loop condition body => parenthesized ["while", condition.render, body.render]
  | .functionDecl function => function.render
  | .classDecl name none methods =>
    headedLines ("class " ++ name.lexeme) (FunctionDecl.renderLines methods)
  | .classDecl name (some superclass) methods =>
    headedLines ("class " ++ name.lexeme ++ " < " ++ superclass.name.lexeme)
      (FunctionDecl.renderLines methods)
  | .returns _ none => "(return)"
  | .returns _ (some value) => parenthesized ["return", value.render]

/-- Statements on a line each. -/
def Stmt.renderLines : List Stmt → String
  | [] => ""
  | s :: rest => s.render ++ "\n" ++ Stmt.renderLines rest

/-- The text of a function. -/
def FunctionDecl.render : FunctionDecl → String
  | .mk name params body =>
    headedLines ("define " ++ parenthesized (name.lexeme :: params.map Token.lexeme))
      (Stmt.renderLines body)

/-- Functions on a line each. -/
def FunctionDecl.renderLines : List FunctionDecl → String
  | [] => ""
  | f :: rest => f.render ++ "\n" ++ FunctionDecl.renderLines rest

end

end TreeWalk
