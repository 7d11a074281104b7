import TreeWalk.Machine

/-!
# The clauses of an evaluator

What is done for every kind of expression, of statement and of callee, with the walk
further down the tree left open. An evaluator is made of these clauses by saying what it
does further down.

## Implementation notes

The clauses can be used for any kind of run that the steps of the machine are steps of.
`lift` makes them so.
-/

namespace TreeWalk

open Eval

/-- The number of arguments that a value takes; a value that cannot be called is an
error at the closing parenthesis. -/
def calleeArity (callee : Value) (paren : Token) : Eval Nat :=
  inspect fun m =>
    match m.heap.arity? callee with
    | some arity => .ok arity
    | none => .error (.error ⟨.notCallable callee.typeName, paren⟩)

/-- A new closure for a function that is declared or written in the current frame. -/
def closeOver (name : Option String) (params : List Token) (body : List Stmt) :
    Eval Value := do
  return .closure (← newClosure ⟨name, params, body, (← get).current, false⟩)

/-- How statements complete in a kind of run: normally or with a return, and what
becomes of the statements that follow. -/
structure Completing (μ : Type → Type) (κ : Type) where
  normal : κ
  returning : Value → μ κ
  andThen : μ κ → μ κ → μ κ

namespace Clauses

variable {μ : Type → Type} [Monad μ] {κ ρ : Type} (lift : {α : Type} → Eval α → μ α)

section Expressions

variable (value : Expr → μ Value) (values : List Expr → μ (List Value))
  (call : Value → List Value → μ Value)

/-- The value of an expression. -/
@[inline] def evaluate : Expr → μ Value
  | .literal scalar => return .scalar scalar
  | .variable reference => lift (readReference reference)
  | .assign reference e => do
    let v ← value e
    lift (writeReference reference v)
    return v
  | .this reference => lift (readReference reference)
  | .super reference method => lift (readSuper reference method)
  | .grouping inner => value inner
  | .unary operator operand => do
    let operand ← value operand
    lift (operate (Operators.unary operator operand))
  | .binary left operator right => do
    let left ← value left
    let right ← value right
    lift (operate (Operators.binary operator left right))
  | .logical left operator right => do
    let left ← value left
    let settled := if operator.kind = .orWord then left.isTruthy else !left.isTruthy
    if settled then return left else value right
  | .conditional condition consequent alternative => do
    let condition ← value condition
    if condition.isTruthy then value consequent else value alternative
  | .comma items => do
    let items ← values items
    return items.getLastD .nil
  | .call callee paren arguments => do
    let callee ← value callee
    let arity ← lift (calleeArity callee paren)
    if arguments.length ≠ arity then
      lift (raise (.argumentCount arity arguments.length) paren)
    else
      let arguments ← values arguments
      call callee arguments
  | .get object name => do
    match ← value object with
    | .object id => lift (readProperty id name)
    | _ => lift (raise .noProperties name)
  | .set object name e => do
    match ← value object with
    | .object id =>
      let v ← value e
      lift (writeField id name.lexeme v)
      return v
    | _ => lift (raise .noProperties name)
  | .lambda _ params body => lift (closeOver none params body)

/-- The values of expressions, in order. -/
@[inline] def evaluateEach : List Expr → μ (List Value)
  | [] => return []
  | item :: rest => do
    let v ← value item
    return v :: (← values rest)

end Expressions

section Calls

/-- The value of a call. Calling a class makes an object and runs its initializer, if
there is one, bound to the object. -/
@[inline] def apply (enter : Closure → List Value → μ Value) (callee : Value)
    (arguments : List Value) : μ Value :=
  match callee with
  | .closure id => do
    let closure ← lift (closureOf id)
    enter closure arguments
  | .classRef id => do
    let object ← lift (newObject id)
    match ← lift (findMethod id "init") with
    | none => return .object object
    | some initializer =>
      let bound ← lift (Eval.bind initializer (.object object))
      let closure ← lift (closureOf bound)
      let _ ← enter closure arguments
      return .object object
  | .clock => lift readClock
  | _ => lift (throw (.fault .dangling))

/-- Run the body of a closure in a frame inside one that binds the parameters. An
initializer gives the object it is bound to, however its body completes. -/
@[inline] def enter (inside : FrameId → List Stmt → μ ρ) (result : ρ → Value)
    (receiver : FrameId → μ Value) (closure : Closure) (arguments : List Value) :
    μ Value := do
  let outer ← lift (newFrame closure.frame)
  lift (defineEach outer closure.params arguments)
  let inner ← lift (newFrame outer)
  let completion ← inside inner closure.body
  if closure.isInitializer then receiver closure.frame else return result completion

end Calls

section Statements

variable (ends : Completing μ κ) (value : Expr → μ Value) (run : Stmt → μ κ)
  (inside : FrameId → List Stmt → μ κ)

/-- Run a statement. -/
@[inline] def execute : Stmt → μ κ
  | .expression e => do
    let _ ← value e
    return ends.normal
  | .print e => do
    let v ← value e
    let m ← lift get
    lift (print (m.heap.text v))
    return ends.normal
  | .varDecl name none => do
    lift (defineHere name.lexeme .nil)
    return ends.normal
  | .varDecl name (some initial) => do
    let v ← value initial
    lift (defineHere name.lexeme v)
    return ends.normal
  | .block body => do
    let m ← lift get
    let frame ← lift (newFrame m.current)
    inside frame body
  | .branch condition consequent alternative => do
    let condition ← value condition
    if condition.isTruthy then run consequent
    else
      match alternative with
      | none => return ends.normal
      | some statement => run statement
  | .loop condition body => do
    let v ← value condition
    if v.isTruthy then ends.andThen (run body) (run (.loop condition body))
    else return ends.normal
  | .functionDecl function => do
    let name := function.name.lexeme
    let v ← lift (closeOver (some name) function.params function.body)
    lift (defineHere name v)
    return ends.normal
  | .classDecl name parent methods => do
    lift (declareClass name parent methods)
    return ends.normal
  | .returns _ none => ends.returning .nil
  | .returns _ (some e) => do
    let v ← value e
    ends.returning v

/-- Run statements in order up to the first that returns. -/
@[inline] def executeEach (runEach : List Stmt → μ κ) : List Stmt → μ κ
  | [] => return ends.normal
  | statement :: rest => ends.andThen (run statement) (runEach rest)

end Statements

end Clauses

end TreeWalk
