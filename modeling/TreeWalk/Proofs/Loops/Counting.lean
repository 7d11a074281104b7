import TreeWalk.Proofs.Run.Extending

/-!
# Counting loops run as such

The grammar writes a counting loop as a loop whose passes are blocks: the body and behind it the
increment. Here such loops are run as counting loops. The condition is tested before each pass,
the body is run and then, unless the body returned, the increment is evaluated, all in the one
scope of the loop. A pass makes no frame. Everything else runs as it always does.

## Implementation notes

A loop that is written with such a block is the same tree as a counting loop without a first
clause, so it is run in this way too, provided that its body declares nothing where it stands.
The fuel is spent as if there were a block.
-/

namespace TreeWalk

open Eval

/-- Whether a statement declares nothing where it stands. -/
def Stmt.decidePlain : (s : Stmt) → Decidable s.IsPlain
  | .varDecl .. | .functionDecl _ | .classDecl .. => .isFalse id
  | .branch _ consequent none => consequent.decidePlain
  | .branch _ consequent (some alternative) =>
    @instDecidableAnd _ _ consequent.decidePlain alternative.decidePlain
  | .loop _ body => body.decidePlain
  | .expression _ | .print _ | .block _ | .returns _ _ => .isTrue trivial

instance (s : Stmt) : Decidable s.IsPlain := s.decidePlain

/-- The body and the increment of a counting loop, from the statements of a pass. -/
def Stmt.pass? : List Stmt → Option (Stmt × Expr)
  | [body, .expression step] => if body.IsPlain then some (body, step) else none
  | _ => none

/-- The statements of a pass are its body and its increment. -/
theorem Stmt.pass?_eq_some {items : List Stmt} {body : Stmt} {step : Expr} :
    Stmt.pass? items = some (body, step) ↔ items = [body, .expression step] ∧ body.IsPlain := by
  constructor
  · intro pass
    unfold pass? at pass
    split at pass
    next body' step' =>
      split at pass
      next plain =>
        cases pass
        exact ⟨rfl, plain⟩
      next => cases pass
    next => cases pass
  · rintro ⟨rfl, plain⟩
    exact if_pos plain

/-- The body and the increment of a counting loop, from what a loop runs. -/
def Stmt.counted? : Stmt → Option (Stmt × Expr)
  | .block items => Stmt.pass? items
  | _ => none

namespace Counting

mutual

/-- The value of an expression. -/
def evaluate : Nat → Expr → Eval Value
  | 0, _ => throw .outOfFuel
  | fuel + 1, e =>
    Clauses.evaluate (fun act => act) (evaluate fuel) (evaluateEach fuel) (apply fuel) e

/-- The values of expressions, in order. -/
def evaluateEach : Nat → List Expr → Eval (List Value)
  | 0, _ => throw .outOfFuel
  | fuel + 1, items => Clauses.evaluateEach (evaluate fuel) (evaluateEach fuel) items

/-- The value of a call. -/
def apply : Nat → Value → List Value → Eval Value
  | 0, _, _ => throw .outOfFuel
  | fuel + 1, callee, arguments => Clauses.apply (fun act => act) (enter fuel) callee arguments

/-- Run the body of a closure. -/
def enter : Nat → Closure → List Value → Eval Value
  | 0, _, _ => throw .outOfFuel
  | fuel + 1, closure, arguments =>
    Clauses.enter (fun act => act) (fun frame body => inFrame frame (executeEach fuel body))
      Completion.value thisOf closure arguments

/-- Run a statement. What a loop runs may be a pass of a counting loop. -/
def execute : Nat → Stmt → Eval Completion
  | 0, _ => throw .outOfFuel
  | fuel + 1, statement =>
    match statement with
    | .loop condition body => do
      let value ← evaluate fuel condition
      if value.isTruthy then
        match ← (match body.counted? with
          | some (body, step) => pass fuel body step
          | none => execute fuel body) with
        | .normal => execute fuel (.loop condition body)
        | .returned value => return .returned value
      else return .normal
    | statement =>
      Clauses.execute (fun act => act) Completion.handed (evaluate fuel) (execute fuel)
        (fun frame body => inFrame frame (executeEach fuel body)) statement

/-- Run statements in order up to the first that returns. -/
def executeEach : Nat → List Stmt → Eval Completion
  | 0, _ => throw .outOfFuel
  | fuel + 1, statements =>
    Clauses.executeEach Completion.handed (execute fuel) (executeEach fuel) statements

/-- A pass of a counting loop: its body and then, unless that returned, its increment, in the
scope of the loop. -/
def pass : Nat → Stmt → Expr → Eval Completion
  | fuel + 2, body, step => do
    match ← execute fuel body with
    | .normal => advance fuel step
    | .returned value => return .returned value
  | _, _, _ => throw .outOfFuel

/-- The increment of a counting loop. -/
def advance : Nat → Expr → Eval Completion
  | fuel + 2, step => do
    let _ ← evaluate fuel step
    return .normal
  | _, _ => throw .outOfFuel

end

/-- Run the statements of a program. -/
def interpret (fuel : Nat) (program : List Stmt) : Eval Unit :=
  program.forM fun statement => do
    let _ ← execute fuel statement

end Counting

end TreeWalk
