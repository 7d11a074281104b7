import TreeWalk.Clauses

/-!
# Running programs

Expressions evaluate to values, and statements complete normally or with a return.
A return is handed upward through blocks, branches and loops to the call it ends.

## Implementation notes

The first argument is fuel: a bound on the depth of the walk, one unit per step down
or per pass of a loop. A run with too little of it stops and says so, and more fuel
never changes a run that ended otherwise.
-/

namespace TreeWalk

/-- How a statement completes. -/
inductive Completion
  | normal
  | returned (value : Value)
  deriving DecidableEq

/-- The value of a call whose body completes so. -/
def Completion.value : Completion → Value
  | .normal => .nil
  | .returned value => value

/-- Completions are handed upward: what follows a statement is run if it completes
normally. -/
@[inline] def Completion.handed : Completing Eval Completion where
  normal := .normal
  returning value := return .returned value
  andThen first next := do
    match ← first with
    | .normal => next
    | .returned value => return .returned value

@[simp] theorem Completion.handed_normal : handed.normal = .normal := rfl

open Eval

mutual

/-- The value of an expression. -/
def evaluate : Nat → Expr → Eval Value
  | 0, _ => throw .outOfFuel
  | fuel + 1, e =>
    Clauses.evaluate (fun act => act) (evaluate fuel) (evaluateEach fuel) (apply fuel) e

/-- The values of expressions, in order. -/
def evaluateEach : Nat → List Expr → Eval (List Value)
  | 0, _ => throw .outOfFuel
  | fuel + 1, items => Clauses.evaluateEach (evaluate fuel) (evaluateEach fuel) items

/-- The value of a call. -/
def apply : Nat → Value → List Value → Eval Value
  | 0, _, _ => throw .outOfFuel
  | fuel + 1, callee, arguments => Clauses.apply (fun act => act) (enter fuel) callee arguments

/-- Run the body of a closure. -/
def enter : Nat → Closure → List Value → Eval Value
  | 0, _, _ => throw .outOfFuel
  | fuel + 1, closure, arguments =>
    Clauses.enter (fun act => act) (fun frame body => inFrame frame (executeEach fuel body))
      Completion.value thisOf closure arguments

/-- Run a statement. -/
def execute : Nat → Stmt → Eval Completion
  | 0, _ => throw .outOfFuel
  | fuel + 1, statement =>
    Clauses.execute (fun act => act) Completion.handed (evaluate fuel) (execute fuel)
      (fun frame body => inFrame frame (executeEach fuel body)) statement

/-- Run statements in order up to the first that returns. -/
def executeEach : Nat → List Stmt → Eval Completion
  | 0, _ => throw .outOfFuel
  | fuel + 1, statements =>
    Clauses.executeEach Completion.handed (execute fuel) (executeEach fuel) statements

end

/-- Run the statements of a program. A return outside of every call ends nothing. -/
def interpret (fuel : Nat) (program : List Stmt) : Eval Unit :=
  program.forM fun statement => do
    let _ ← execute fuel statement

end TreeWalk
