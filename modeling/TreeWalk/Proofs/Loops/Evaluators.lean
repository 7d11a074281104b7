import TreeWalk.Proofs.Loops.Counting
import TreeWalk.Grammar

/-!
# Evaluators of blocks and loops

A counting loop is run clause by clause: the first one once, in a scope of the whole loop if there
is one, then the condition before each pass, and in a pass the body and behind it the increment. A
loop without a condition goes on until its body returns. This is what becomes of the tree that the
grammar makes of such a loop.

## Implementation notes

What is run in a pass is where evaluators differ, so they are taken as a row of functions that
satisfy the equations of blocks and loops.
-/

namespace TreeWalk

open Eval

/-- What evaluates expressions and runs statements, blocks and loops as they are nested. A pass of
a loop may be run in a way of its own. -/
structure Evaluator where
  evaluate : Nat → Expr → Eval Value
  execute : Nat → Stmt → Eval Completion
  executeEach : Nat → List Stmt → Eval Completion
  round : Nat → Stmt → Eval Completion
  evaluate_zero : ∀ e, evaluate 0 e = throw .outOfFuel
  evaluate_literal : ∀ fuel scalar,
    evaluate (fuel + 1) (.literal scalar) = return .scalar scalar
  execute_zero : ∀ s, execute 0 s = throw .outOfFuel
  execute_block : ∀ fuel body, execute (fuel + 1) (.block body) = do
    let frame ← newFrame (← get).current
    inFrame frame (executeEach fuel body)
  execute_loop : ∀ fuel condition body, execute (fuel + 1) (.loop condition body) = do
    let value ← evaluate fuel condition
    if value.isTruthy then
      match ← round fuel body with
      | .normal => execute fuel (.loop condition body)
      | .returned value => return .returned value
    else return .normal
  executeEach_zero : ∀ body, executeEach 0 body = throw .outOfFuel
  executeEach_nil : ∀ fuel, executeEach (fuel + 1) [] = return .normal
  executeEach_cons : ∀ fuel s rest, executeEach (fuel + 1) (s :: rest) = do
    match ← execute fuel s with
    | .normal => executeEach fuel rest
    | .returned value => return .returned value

/-- What is run in a pass of the tree that is made of a counting loop. -/
def passTree (step : Option Expr) (body : Stmt) : Stmt :=
  match step with
  | none => body
  | some step => .block [body, .expression step]

namespace Evaluator

/-- Trees as they are nested. -/
def nested : Evaluator where
  evaluate := TreeWalk.evaluate
  execute := TreeWalk.execute
  executeEach := TreeWalk.executeEach
  round := TreeWalk.execute
  evaluate_zero _ := rfl
  evaluate_literal _ _ := rfl
  execute_zero _ := rfl
  execute_block _ _ := rfl
  execute_loop _ _ _ := rfl
  executeEach_zero _ := rfl
  executeEach_nil _ := rfl
  executeEach_cons _ _ _ := rfl

/-- Trees with counting loops without the frames of their passes. -/
def counting : Evaluator where
  evaluate := Counting.evaluate
  execute := Counting.execute
  executeEach := Counting.executeEach
  round fuel body :=
    match body.counted? with
    | some (body, step) => Counting.pass fuel body step
    | none => Counting.execute fuel body
  evaluate_zero _ := rfl
  evaluate_literal _ _ := rfl
  execute_zero _ := rfl
  execute_block _ _ := rfl
  execute_loop _ _ _ := rfl
  executeEach_zero _ := rfl
  executeEach_nil _ := rfl
  executeEach_cons _ _ _ := rfl

variable (r : Evaluator)

/-- Whether there is a pass: the condition, which is true if it is absent. -/
def test (condition : Option Expr) (fuel : Nat) : Eval Bool :=
  match condition with
  | none => if fuel = 0 then throw .outOfFuel else return true
  | some condition => Value.isTruthy <$> r.evaluate fuel condition

/-- The passes of a counting loop. -/
def rounds (condition : Option Expr) (pass : Nat → Eval Completion) : Nat → Eval Completion
  | 0 => throw .outOfFuel
  | fuel + 1 => do
    if ← r.test condition fuel then
      match ← pass fuel with
      | .normal => rounds condition pass fuel
      | .returned value => return .returned value
    else return .normal

/-- A counting loop with a first clause, in its scope. -/
def start (first : Stmt) (condition : Option Expr) (pass : Nat → Eval Completion) :
    Nat → Eval Completion
  | fuel + 2 => do
    match ← r.execute (fuel + 1) first with
    | .normal => r.rounds condition pass fuel
    | .returned value => return .returned value
  | _ => throw .outOfFuel

/-- A counting loop. -/
def forLoop (initial : Option Stmt) (condition : Option Expr) (pass : Nat → Eval Completion) :
    Nat → Eval Completion
  | 0 => throw .outOfFuel
  | fuel + 1 =>
    match initial with
    | none => r.rounds condition pass (fuel + 1)
    | some first => do
      let scope ← newFrame (← get).current
      inFrame scope (r.start first condition pass fuel)

variable {initial : Option Stmt} {condition step : Option Expr} {body : Stmt} {fuel : Nat}

theorem test_eq (condition : Option Expr) (fuel : Nat) :
    r.test condition fuel =
      Value.isTruthy <$> r.evaluate fuel (condition.getD (.literal (.boolean true))) := by
  cases condition with
  | some condition => rfl
  | none =>
      rw [test, Option.getD_none]
      cases fuel with
      | zero =>
          rw [r.evaluate_zero]
          rfl
      | succ fuel =>
          rw [r.evaluate_literal]
          rfl

/-- The passes of the tree that is made of a counting loop. -/
theorem execute_rounds (condition : Option Expr) (s : Stmt) (fuel : Nat) :
    r.execute fuel (.loop (condition.getD (.literal (.boolean true))) s) =
      r.rounds condition (r.round · s) fuel := by
  induction fuel with
  | zero => exact r.execute_zero _
  | succ fuel ih => rw [rounds, test_eq, bind_map_left, ← ih, r.execute_loop]

/-- A statement behind which there is nothing. -/
theorem executeEach_single (fuel : Nat) (s : Stmt) :
    r.executeEach (fuel + 1) [s] = r.execute fuel s := by
  cases fuel with
  | zero =>
      rw [r.executeEach_cons, r.execute_zero]
      rfl
  | succ fuel =>
      have done (completion : Completion) :
          (match completion with
            | .normal => r.executeEach (fuel + 1) []
            | .returned value => return .returned value) = (pure completion : Eval Completion) := by
        cases completion with
        | normal => exact r.executeEach_nil fuel
        | returned value => rfl
      calc r.executeEach (fuel + 2) [s] = r.execute (fuel + 1) s >>= pure :=
            (r.executeEach_cons _ _ _).trans (bind_congr done)
        _ = r.execute (fuel + 1) s := bind_pure _

theorem executeEach_start (first : Stmt) (condition : Option Expr) (s : Stmt) (fuel : Nat) :
    r.executeEach fuel [first, .loop (condition.getD (.literal (.boolean true))) s] =
      r.start first condition (r.round · s) fuel := by
  match fuel with
  | 0 => exact r.executeEach_zero _
  | 1 =>
      rw [r.executeEach_cons, r.execute_zero]
      rfl
  | fuel + 2 => rw [r.executeEach_cons, r.executeEach_single, r.execute_rounds, start]

/-- The tree that is made of a counting loop is run clause by clause. -/
theorem execute_forLoop (initial : Option Stmt) (condition step : Option Expr) (body : Stmt)
    (fuel : Nat) :
    r.execute fuel (Grammar.forLoop initial condition step body) =
      r.forLoop initial condition (r.round · (passTree step body)) fuel := by
  cases fuel with
  | zero => exact r.execute_zero _
  | succ fuel =>
      cases initial with
      | none => exact r.execute_rounds _ _ _
      | some first =>
          rw [forLoop, ← r.executeEach_start]
          exact r.execute_block _ _

end Evaluator

end TreeWalk
