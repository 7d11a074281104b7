import TreeWalk.Grammar.Level
import TreeWalk.Grammar.Reader

/-!
# The grammar

A row of tokens is read by recursive descent, one function per production. The
operators of two operands are read level by level; the other productions stand above
and below them.

## Implementation notes

The depth of the descent is bounded by a first argument, and `descent` says how much
suffices. A reader that runs out of depth says so; it does not give a tree.
-/

namespace TreeWalk.Grammar

/-- The assignment to what an expression names, if it names something. -/
def assignment? (target value : Expr) : Option Expr :=
  match target with
  | .variable reference => some (.assign reference value)
  | .get object name => some (.set object name value)
  | _ => none

/-- A counting loop as a loop in blocks: the first clause is run before it, the last
one after each pass. -/
def forLoop (initial : Option Stmt) (condition increment : Option Expr) (body : Stmt) : Stmt :=
  let pass := match increment with
    | none => body
    | some step => .block [body, .expression step]
  let loop := .loop (condition.getD (.literal (.boolean true))) pass
  match initial with
  | none => loop
  | some first => .block [first, loop]

/-- One or more names with commas between them. -/
def names : Nat → Reader (List Token)
  | 0 => throw .outOfDepth
  | depth + 1 => do
    let name ← require .parameterName
    match ← accept .comma with
    | none => return [name]
    | some _ => return name :: (← names depth)

/-- The parameters of a function after the opening parenthesis. -/
def parameters (depth : Nat) : Reader (List Token) := do
  let params ← unlessNext .rightParen [] (names depth)
  let _ ← require .parenAfterParameters
  checkCount params id .parameters
  return params

mutual

/-- A whole expression: assignments with commas between them. -/
def expression : Nat → Reader Expr
  | 0 => throw .outOfDepth
  | depth + 1 => do
    let first ← assignment depth
    match ← commaItems depth with
    | [] => return first
    | others => return .comma (first :: others)

/-- The further items of a comma expression. -/
def commaItems : Nat → Reader (List Expr)
  | 0 => throw .outOfDepth
  | depth + 1 => do
    match ← accept .comma with
    | none => return []
    | some _ =>
      let item ← assignment depth
      return item :: (← commaItems depth)

/-- An assignment or anything tighter. What stands before the equals sign is read as
an expression first. -/
def assignment : Nat → Reader Expr
  | 0 => throw .outOfDepth
  | depth + 1 => do
    let target ← conditional depth
    match ← accept .equal with
    | none => return target
    | some equals =>
      let value ← assignment depth
      match assignment? target value with
      | some e => return e
      | none => fail .invalidTarget equals

/-- A choice between two expressions or anything tighter. -/
def conditional : Nat → Reader Expr
  | 0 => throw .outOfDepth
  | depth + 1 => do
    let condition ← operation depth .or
    match ← accept .question with
    | none => return condition
    | some _ =>
      let consequent ← expression depth
      let _ ← require .colonAfterConsequent
      let alternative ← expression depth
      return .conditional condition consequent alternative

/-- Operands of a level with its operators between them. -/
def operation : Nat → Level → Reader Expr
  | 0, _ => throw .outOfDepth
  | depth + 1, level => do
    let left ← operand depth level
    operationTail depth level left

/-- The further operators and operands of a level, grouped to the left. -/
def operationTail : Nat → Level → Expr → Reader Expr
  | 0, _, _ => throw .outOfDepth
  | depth + 1, level, left => do
    match ← acceptAny level.operators with
    | none => return left
    | some operator =>
      let right ← operand depth level
      operationTail depth level (level.node left operator right)

/-- An operand of a level. -/
def operand : Nat → Level → Reader Expr
  | 0, _ => throw .outOfDepth
  | depth + 1, level =>
    match level.tighter with
    | some tighter => operation depth tighter
    | none => unary depth

/-- An operator before its operand, or anything tighter. -/
def unary : Nat → Reader Expr
  | 0 => throw .outOfDepth
  | depth + 1 => do
    match ← acceptAny [.bang, .minus] with
    | some operator => return .unary operator (← unary depth)
    | none =>
      let callee ← primary depth
      callTail depth callee

/-- The argument lists and property names after an expression. -/
def callTail : Nat → Expr → Reader Expr
  | 0, _ => throw .outOfDepth
  | depth + 1, callee => do
    match (← peek).kind with
    | .leftParen =>
      let _ ← advance
      let items ← unlessNext .rightParen [] (arguments depth)
      let paren ← require .parenAfterArguments
      checkCount items Prod.fst .arguments
      callTail depth (.call callee paren (items.map Prod.snd))
    | .dot =>
      let _ ← advance
      let name ← require .propertyName
      callTail depth (.get callee name)
    | _ => return callee

/-- One or more arguments with commas between them, each with its first token. An
argument is tighter than a comma expression, which would take the commas. -/
def arguments : Nat → Reader (List (Token × Expr))
  | 0 => throw .outOfDepth
  | depth + 1 => do
    let first ← peek
    let item ← assignment depth
    match ← accept .comma with
    | none => return [(first, item)]
    | some _ => return (first, item) :: (← arguments depth)

/-- An expression that is no operation. -/
def primary : Nat → Reader Expr
  | 0 => throw .outOfDepth
  | depth + 1 => do
    let token ← peek
    match token.kind with
    | .falseWord => advance *> return .literal (.boolean false)
    | .trueWord => advance *> return .literal (.boolean true)
    | .nilWord => advance *> return .literal .nil
    | .number | .string => advance *> return .literal token.literal
    | .leftParen =>
      let _ ← advance
      let inner ← expression depth
      let _ ← require .parenAfterExpression
      return .grouping inner
    | .superWord =>
      let keyword ← advance
      let _ ← require .dotAfterSuper
      let method ← require .superclassMethodName
      return .super (.ofToken keyword) method
    | .thisWord => return .this (.ofToken (← advance))
    | .funWord =>
      let keyword ← advance
      let _ ← require .parenAfterFun
      let params ← parameters depth
      let _ ← require (.braceBeforeBody .function)
      let body ← blockRest depth
      return .lambda keyword params body
    | .identifier => return .variable (.ofToken (← advance))
    | _ => fail .missingExpression token

/-- A function or method from its name on. -/
def routine : Nat → Routine → Reader FunctionDecl
  | 0, _ => throw .outOfDepth
  | depth + 1, kind => do
    let name ← require (.routineName kind)
    let _ ← require (.parenAfterRoutineName kind)
    let params ← parameters depth
    let _ ← require (.braceBeforeBody kind)
    let body ← blockRest depth
    return .mk name params body

/-- A declaration or a statement. -/
def declaration : Nat → Reader Stmt
  | 0 => throw .outOfDepth
  | depth + 1 => do
    match (← peek).kind with
    | .classWord =>
      let _ ← advance
      classRest depth
    | .funWord =>
      if ← isSecond .identifier then
        let _ ← advance
        return .functionDecl (← routine depth .function)
      else statement depth
    | .varWord =>
      let _ ← advance
      varRest depth
    | _ => statement depth

/-- A class after its keyword. -/
def classRest : Nat → Reader Stmt
  | 0 => throw .outOfDepth
  | depth + 1 => do
    let name ← require .className
    let superclass ← following .less (Reference.ofToken <$> require .superclassName)
    let _ ← require .braceBeforeClass
    let members ← methods depth
    let _ ← require .braceAfterClass
    return .classDecl name superclass members

/-- The methods of a class up to the closing brace. -/
def methods : Nat → Reader (List FunctionDecl)
  | 0 => throw .outOfDepth
  | depth + 1 => do
    match (← peek).kind with
    | .endOfText | .rightBrace => return []
    | _ =>
      let method ← routine depth .method
      return method :: (← methods depth)

/-- A variable declaration after its keyword. -/
def varRest : Nat → Reader Stmt
  | 0 => throw .outOfDepth
  | depth + 1 => do
    let name ← require .variableName
    let initial ← following .equal (expression depth)
    let _ ← require .semicolonAfterVariable
    return .varDecl name initial

/-- A block after its opening brace. -/
def blockRest : Nat → Reader (List Stmt)
  | 0 => throw .outOfDepth
  | depth + 1 => do
    let body ← blockItems depth
    let _ ← require .braceAfterBlock
    return body

/-- The items of a block up to the closing brace. -/
def blockItems : Nat → Reader (List Stmt)
  | 0 => throw .outOfDepth
  | depth + 1 => do
    match (← peek).kind with
    | .endOfText | .rightBrace => return []
    | _ =>
      let item ← declaration depth
      return item :: (← blockItems depth)

/-- A statement that declares nothing. -/
def statement : Nat → Reader Stmt
  | 0 => throw .outOfDepth
  | depth + 1 => do
    match (← peek).kind with
    | .forWord => advance *> forRest depth
    | .ifWord => advance *> ifRest depth
    | .printWord =>
      let _ ← advance
      let value ← expression depth
      let _ ← require .semicolonAfterPrinted
      return .print value
    | .returnWord =>
      let keyword ← advance
      let value ← unlessNext .semicolon none (some <$> expression depth)
      let _ ← require .semicolonAfterReturned
      return .returns keyword value
    | .whileWord =>
      let _ ← advance
      let _ ← require .parenAfterWhile
      let condition ← expression depth
      let _ ← require .parenAfterWhileCondition
      return .loop condition (← statement depth)
    | .leftBrace => advance *> (.block <$> blockRest depth)
    | _ => expressionStatement depth

/-- An expression as a statement. -/
def expressionStatement : Nat → Reader Stmt
  | 0 => throw .outOfDepth
  | depth + 1 => do
    let value ← expression depth
    let _ ← require .semicolonAfterExpression
    return .expression value

/-- A counting loop after its keyword. -/
def forRest : Nat → Reader Stmt
  | 0 => throw .outOfDepth
  | depth + 1 => do
    let _ ← require .parenAfterFor
    let initial ← forInitial depth
    let condition ← unlessNext .semicolon none (some <$> expression depth)
    let _ ← require .semicolonAfterLoopCondition
    let increment ← unlessNext .rightParen none (some <$> expression depth)
    let _ ← require .parenAfterForClauses
    return forLoop initial condition increment (← statement depth)

/-- The first clause of a counting loop with the semicolon that ends it. -/
def forInitial : Nat → Reader (Option Stmt)
  | 0 => throw .outOfDepth
  | depth + 1 => do
    match (← peek).kind with
    | .semicolon => advance *> return none
    | .varWord => advance *> (some <$> varRest depth)
    | _ => some <$> expressionStatement depth

/-- A choice between statements after its keyword. -/
def ifRest : Nat → Reader Stmt
  | 0 => throw .outOfDepth
  | depth + 1 => do
    let _ ← require .parenAfterIf
    let condition ← expression depth
    let _ ← require .parenAfterIfCondition
    let consequent ← statement depth
    let alternative ← following .elseWord (statement depth)
    return .branch condition consequent alternative

end

/-- Declarations and statements up to the end token. -/
def items : Nat → Reader (List Stmt)
  | 0 => throw .outOfDepth
  | depth + 1 => do
    match (← peek).kind with
    | .endOfText => return []
    | _ =>
      let item ← declaration depth
      return item :: (← items depth)

/-- A single expression that is closed by the end token. -/
def loneExpression (depth : Nat) : Reader Expr := do
  let e ← expression depth
  let token ← peek
  if token.kind = .endOfText then return e else fail .trailingTokens token

/-- A depth that suffices for a row of tokens: between two tokens that are taken off,
the descent passes each production at most once. -/
def descent (tokens : List Token) : Nat := 24 * (tokens.length + 1)

/-- The program that a row of tokens is, with the tokens left where reading stopped. -/
def program (tokens : List Token) : Except Halt (List Stmt) × List Token :=
  (items (descent tokens)).read tokens

/-- The expression that a row of tokens is, with the tokens left where reading
stopped. -/
def wholeExpression (tokens : List Token) : Except Halt Expr × List Token :=
  (loneExpression (descent tokens)).read tokens

end TreeWalk.Grammar
