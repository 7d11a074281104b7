import TreeWalk.Report

/-!
# What the grammar requires

At most places the grammar requires a certain token. `Requirement` lists those
places; each has the kind of its token and a phrase for the message when another
token stands there.
-/

namespace TreeWalk

/-- The greatest number of parameters of a function and of arguments of a call. -/
def maxArguments : Nat := 255

/-- The two kinds of declarations with parameters and a name. -/
inductive Routine
  | function
  | method
  deriving DecidableEq

/-- The word for a kind of declaration in messages. -/
def Routine.word : Routine → String
  | .function => "function"
  | .method => "method"

/-- The places at which the grammar requires a certain token. -/
inductive Requirement
  | className
  | superclassName
  | variableName
  | parameterName
  | routineName (routine : Routine)
  | propertyName
  | superclassMethodName
  | braceBeforeClass
  | braceAfterClass
  | braceBeforeBody (routine : Routine)
  | braceAfterBlock
  | parenAfterRoutineName (routine : Routine)
  | parenAfterFun
  | parenAfterParameters
  | parenAfterFor
  | parenAfterForClauses
  | parenAfterIf
  | parenAfterIfCondition
  | parenAfterWhile
  | parenAfterWhileCondition
  | parenAfterArguments
  | parenAfterExpression
  | semicolonAfterLoopCondition
  | semicolonAfterPrinted
  | semicolonAfterReturned
  | semicolonAfterVariable
  | semicolonAfterExpression
  | colonAfterConsequent
  | dotAfterSuper
  deriving DecidableEq

namespace Requirement

/-- The kind of token that is required. -/
def kind : Requirement → TokenKind
  | className | superclassName | variableName | parameterName | routineName _
  | propertyName | superclassMethodName => .identifier
  | braceBeforeClass | braceBeforeBody _ => .leftBrace
  | braceAfterClass | braceAfterBlock => .rightBrace
  | parenAfterRoutineName _ | parenAfterFun | parenAfterFor | parenAfterIf
  | parenAfterWhile => .leftParen
  | parenAfterParameters | parenAfterForClauses | parenAfterIfCondition
  | parenAfterWhileCondition | parenAfterArguments | parenAfterExpression => .rightParen
  | semicolonAfterLoopCondition | semicolonAfterPrinted | semicolonAfterReturned
  | semicolonAfterVariable | semicolonAfterExpression => .semicolon
  | colonAfterConsequent => .colon
  | dotAfterSuper => .dot

/-- The words for what is required. -/
def phrase : Requirement → String
  | className => "class name"
  | superclassName => "superclass name"
  | variableName => "variable name"
  | parameterName => "parameter name"
  | routineName routine => routine.word ++ " name"
  | propertyName => "property name after '.'"
  | superclassMethodName => "superclass method name"
  | braceBeforeClass => "'\x7b' before class body"
  | braceAfterClass => "'\x7d' after class body"
  | braceBeforeBody routine => "'\x7b' before " ++ routine.word ++ " body"
  | braceAfterBlock => "'\x7d' after block"
  | parenAfterRoutineName routine => "'(' after " ++ routine.word ++ " name"
  | parenAfterFun => "'(' after 'fun'"
  | parenAfterParameters => "')' after parameters"
  | parenAfterFor => "'(' after 'for'"
  | parenAfterForClauses => "')' after for clauses"
  | parenAfterIf => "'(' after 'if'"
  | parenAfterIfCondition => "')' after if condition"
  | parenAfterWhile => "'(' after 'while'"
  | parenAfterWhileCondition => "')' after condition"
  | parenAfterArguments => "')' after arguments"
  | parenAfterExpression => "')' after expression"
  | semicolonAfterLoopCondition => "';' after loop condition"
  | semicolonAfterPrinted => "';' after value"
  | semicolonAfterReturned => "';' after return value"
  | semicolonAfterVariable => "';' after variable declaration"
  | semicolonAfterExpression => "';' after expression"
  | colonAfterConsequent => "':' after then branch of conditional expression"
  | dotAfterSuper => "'.' after 'super'"

end Requirement

/-- What there can be too many of. -/
inductive Plurality
  | parameters
  | arguments
  deriving DecidableEq

/-- The word for what there is too many of. -/
def Plurality.word : Plurality → String
  | .parameters => "parameters"
  | .arguments => "arguments"

/-- Why a row of tokens is no program. -/
inductive GrammarCause
  | missing (requirement : Requirement)
  | missingExpression
  | trailingTokens
  | invalidTarget
  | tooMany (items : Plurality)
  deriving DecidableEq

/-- The message for a cause. -/
def GrammarCause.message : GrammarCause → String
  | .missing requirement => "Expected " ++ requirement.phrase ++ "."
  | .missingExpression => "Expected expression."
  | .trailingTokens => "Expected end of expression."
  | .invalidTarget => "Invalid assignment target."
  | .tooMany items =>
    "Can't have more than " ++ toString maxArguments ++ " " ++ items.word ++ "."

/-- A violation of the grammar at a token. -/
structure GrammarError where
  cause : GrammarCause
  token : Token
  deriving DecidableEq

/-- What the user is told about a violation of the grammar. -/
def GrammarError.report (e : GrammarError) : Report :=
  .atToken .syntactic e.cause.message e.token

end TreeWalk
