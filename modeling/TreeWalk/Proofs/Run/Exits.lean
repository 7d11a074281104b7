import TreeWalk.Evaluation
import TreeWalk.Proofs.Gives

/-!
# Returns as jumps

An evaluator in which a return leaves whatever is being run at once, and only the call
that it ends catches it. Blocks, branches, loops and rows of statements know nothing of
returns. It agrees with the evaluator that hands completions upward: on every machine both
do the same, whether a run ends, breaks a rule or uses up its fuel.

## Implementation notes

The elementary steps are those of the machine. `lift` makes a step of this evaluator from
one of them, and `jump` a statement from one that gives a completion, so the agreement is
an equation for every function and follows by one induction on the fuel.
-/

namespace TreeWalk

/-- Why a run is left before its end. -/
inductive Exit
  | stop (stop : Stop)
  | returned (value : Value)

/-- A step of a run in which returns are jumps. -/
abbrev Jumping (α : Type) : Type := EStateM Exit Machine α

namespace Jumping

variable {α β : Type} {n : Nat}

/-- A step that returns nothing to jump over. -/
def lift (act : Eval α) : Jumping α := fun m =>
  match act m with
  | .ok a after => .ok a after
  | .error stop after => .error (.stop stop) after

/-- Run a step in another frame and come back, also if it is left by a jump. -/
def inFrame (frame : FrameId) (act : Jumping α) : Jumping α := fun m =>
  match act { m with current := frame } with
  | .ok a after => .ok a { after with current := m.current }
  | .error exit after => .error exit { after with current := m.current }

/-- The value that a call gets from a body: that of the return which leaves it, or nil. -/
def caught (body : Jumping Unit) : Jumping Value := fun m =>
  match body m with
  | .ok () after => .ok .nil after
  | .error (.returned value) after => .ok value after
  | .error (.stop stop) after => .error (.stop stop) after

/-- A return jumps, so what follows a statement is run unless the statement is left. -/
def leaving : Completing Jumping Unit where
  normal := ()
  returning value := throw (.returned value)
  andThen first next := do
    first
    next

mutual

/-- The value of an expression. -/
def evaluate : Nat → Expr → Jumping Value
  | 0, _ => throw (.stop .outOfFuel)
  | fuel + 1, e => Clauses.evaluate lift (evaluate fuel) (evaluateEach fuel) (apply fuel) e

/-- The values of expressions, in order. -/
def evaluateEach : Nat → List Expr → Jumping (List Value)
  | 0, _ => throw (.stop .outOfFuel)
  | fuel + 1, items => Clauses.evaluateEach (evaluate fuel) (evaluateEach fuel) items

/-- The value of a call. -/
def apply : Nat → Value → List Value → Jumping Value
  | 0, _, _ => throw (.stop .outOfFuel)
  | fuel + 1, callee, arguments => Clauses.apply lift (enter fuel) callee arguments

/-- Run the body of a closure, up to its end or to a return, which is caught here. -/
def enter : Nat → Closure → List Value → Jumping Value
  | 0, _, _ => throw (.stop .outOfFuel)
  | fuel + 1, closure, arguments =>
    Clauses.enter lift (fun frame body => caught (inFrame frame (executeEach fuel body)))
      (fun value => value) (fun frame => lift (Eval.thisOf frame)) closure arguments

/-- Run a statement. -/
def execute : Nat → Stmt → Jumping Unit
  | 0, _ => throw (.stop .outOfFuel)
  | fuel + 1, statement =>
    Clauses.execute lift leaving (evaluate fuel) (execute fuel)
      (fun frame body => inFrame frame (executeEach fuel body)) statement

/-- Run statements in order. -/
def executeEach : Nat → List Stmt → Jumping Unit
  | 0, _ => throw (.stop .outOfFuel)
  | fuel + 1, statements =>
    Clauses.executeEach leaving (execute fuel) (executeEach fuel) statements

end

/-- Run the statements of a program. -/
def interpret (fuel : Nat) (program : List Stmt) : Jumping Unit :=
  program.forM (execute fuel)

/-- A statement that hands its completion upward, as one that jumps. -/
def jump (act : Eval Completion) : Jumping Unit := fun m =>
  match act m with
  | .ok .normal after => .ok () after
  | .ok (.returned value) after => .error (.returned value) after
  | .error stop after => .error (.stop stop) after

theorem lift_pure (a : α) : lift (pure a) = pure a := rfl

theorem lift_bind (x : Eval α) (f : α → Eval β) :
    lift (x >>= f) = lift x >>= fun a => lift (f a) := by
  funext m
  simp only [lift, bind, EStateM.bind]
  cases x m <;> rfl

theorem lift_ite {p : Prop} [Decidable p] (x y : Eval α) :
    lift (if p then x else y) = if p then lift x else lift y :=
  apply_ite lift p x y

theorem jump_bind (x : Eval α) (f : α → Eval Completion) :
    jump (x >>= f) = lift x >>= fun a => jump (f a) := by
  funext m
  simp only [jump, lift, bind, EStateM.bind]
  cases x m <;> rfl

theorem jump_ite {p : Prop} [Decidable p] (x y : Eval Completion) :
    jump (if p then x else y) = if p then jump x else jump y :=
  apply_ite jump p x y

theorem jump_normal : jump (pure Completion.handed.normal) = pure leaving.normal := rfl

theorem jump_returning (value : Value) :
    jump (Completion.handed.returning value) = leaving.returning value := rfl

/-- What follows a statement is run if it completes normally. -/
theorem jump_andThen (first next : Eval Completion) :
    jump (Completion.handed.andThen first next) = leaving.andThen (jump first) (jump next) := by
  funext m
  simp only [jump, leaving, Completion.handed, bind, EStateM.bind]
  cases first m with
  | error => rfl
  | ok completion after => cases completion <;> rfl

theorem jump_inFrame (frame : FrameId) (x : Eval Completion) :
    jump (Eval.inFrame frame x) = inFrame frame (jump x) := by
  funext m
  simp only [jump, inFrame, Eval.inFrame]
  cases x { m with current := frame } with
  | error => rfl
  | ok completion after => cases completion <;> rfl

/-- A call gets the value that the completion of the body has. -/
theorem caught_jump (x : Eval Completion) : caught (jump x) = lift (Completion.value <$> x) := by
  funext m
  simp only [caught, jump, lift, Functor.map, EStateM.map]
  cases x m with
  | error => rfl
  | ok completion after => cases completion <;> rfl

/-- With this much fuel both evaluators do the same. -/
structure Agrees (n : Nat) : Prop where
  evaluate : ∀ e, evaluate n e = lift (TreeWalk.evaluate n e)
  evaluateEach : ∀ items, evaluateEach n items = lift (TreeWalk.evaluateEach n items)
  apply : ∀ callee arguments, apply n callee arguments = lift (TreeWalk.apply n callee arguments)
  enter : ∀ closure arguments, enter n closure arguments = lift (TreeWalk.enter n closure arguments)
  execute : ∀ s, execute n s = jump (TreeWalk.execute n s)
  executeEach : ∀ body, executeEach n body = jump (TreeWalk.executeEach n body)

theorem Agrees.evaluate_succ (ih : Agrees n) (e : Expr) :
    Jumping.evaluate (n + 1) e = lift (TreeWalk.evaluate (n + 1) e) := by
  cases e with
  | literal | «variable» | this | super | lambda => rfl
  | assign | unary | binary =>
      simp only [Jumping.evaluate, TreeWalk.evaluate, Clauses.evaluate, lift_bind, lift_pure,
        ih.evaluate]
  | comma =>
      simp only [Jumping.evaluate, TreeWalk.evaluate, Clauses.evaluate, lift_bind, lift_pure,
        ih.evaluateEach]
  | grouping inner => exact ih.evaluate inner
  | logical left operator right =>
      simp only [Jumping.evaluate, TreeWalk.evaluate, Clauses.evaluate, lift_bind, lift_ite,
        lift_pure, ih.evaluate]
  | conditional =>
      simp only [Jumping.evaluate, TreeWalk.evaluate, Clauses.evaluate, lift_bind, lift_ite,
        ih.evaluate]
  | call callee paren arguments =>
      simp only [Jumping.evaluate, TreeWalk.evaluate, Clauses.evaluate, lift_bind, lift_ite,
        ih.evaluate, ih.evaluateEach, ih.apply]
  | get object name =>
      simp only [Jumping.evaluate, TreeWalk.evaluate, Clauses.evaluate, lift_bind, ih.evaluate]
      refine bind_congr fun object => ?_
      cases object <;> rfl
  | set object name value =>
      simp only [Jumping.evaluate, TreeWalk.evaluate, Clauses.evaluate, lift_bind, ih.evaluate]
      refine bind_congr fun object => ?_
      cases object with
      | object id => simp only [lift_bind, lift_pure]
      | scalar | closure | classRef | clock => rfl

theorem Agrees.evaluateEach_succ (ih : Agrees n) (items : List Expr) :
    Jumping.evaluateEach (n + 1) items = lift (TreeWalk.evaluateEach (n + 1) items) := by
  cases items with
  | nil => rfl
  | cons item rest =>
      simp only [Jumping.evaluateEach, TreeWalk.evaluateEach, Clauses.evaluateEach, lift_bind,
        lift_pure, ih.evaluate, ih.evaluateEach]

theorem Agrees.apply_succ (ih : Agrees n) (callee : Value) (arguments : List Value) :
    Jumping.apply (n + 1) callee arguments = lift (TreeWalk.apply (n + 1) callee arguments) := by
  cases callee with
  | closure id => simp only [Jumping.apply, TreeWalk.apply, Clauses.apply, lift_bind, ih.enter]
  | classRef id =>
      simp only [Jumping.apply, TreeWalk.apply, Clauses.apply, lift_bind]
      refine bind_congr fun object => bind_congr fun initializer => ?_
      cases initializer with
      | none => rfl
      | some method => simp only [lift_bind, lift_pure, ih.enter]
  | scalar | object | clock => rfl

theorem Agrees.enter_succ (ih : Agrees n) (closure : Closure) (arguments : List Value) :
    Jumping.enter (n + 1) closure arguments =
      lift (TreeWalk.enter (n + 1) closure arguments) := by
  simp only [Jumping.enter, TreeWalk.enter, Clauses.enter, lift_bind, ih.executeEach,
    ← jump_inFrame, caught_jump]
  refine bind_congr fun outer => bind_congr fun _ => bind_congr fun inner => ?_
  rw [map_eq_pure_bind, lift_bind, bind_assoc]
  simp only [lift_ite, lift_pure, pure_bind]

theorem Agrees.execute_succ (ih : Agrees n) (s : Stmt) :
    Jumping.execute (n + 1) s = jump (TreeWalk.execute (n + 1) s) := by
  rcases s with _ | _ | ⟨_, _ | _⟩ | _ | ⟨_, _, alternative⟩ | _ | _ | _ | ⟨_, _ | _⟩
  case expression | print | varDecl.none | varDecl.some | functionDecl | classDecl =>
    simp only [Jumping.execute, TreeWalk.execute, Clauses.execute, jump_bind, jump_normal,
      ih.evaluate]
  case block body =>
    simp only [Jumping.execute, TreeWalk.execute, Clauses.execute, jump_bind, ih.executeEach,
      jump_inFrame]
  case branch condition consequent =>
    simp only [Jumping.execute, TreeWalk.execute, Clauses.execute, jump_bind, jump_ite,
      ih.evaluate, ih.execute]
    cases alternative <;> rfl
  case loop condition body =>
    simp only [Jumping.execute, TreeWalk.execute, Clauses.execute, jump_bind, jump_ite,
      jump_andThen, jump_normal, ih.evaluate, ih.execute]
  case returns.none => rfl
  case returns.some value =>
    simp only [Jumping.execute, TreeWalk.execute, Clauses.execute, jump_bind, jump_returning,
      ih.evaluate]

theorem Agrees.executeEach_succ (ih : Agrees n) (body : List Stmt) :
    Jumping.executeEach (n + 1) body = jump (TreeWalk.executeEach (n + 1) body) := by
  cases body with
  | nil => rfl
  | cons s rest =>
      simp only [Jumping.executeEach, TreeWalk.executeEach, Clauses.executeEach, jump_andThen,
        ih.execute, ih.executeEach]

/-- Whatever the fuel is, both evaluators do the same. -/
theorem agrees (fuel : Nat) : Agrees fuel := by
  induction fuel with
  | zero =>
      exact ⟨fun _ => rfl, fun _ => rfl, fun _ _ => rfl, fun _ _ => rfl, fun _ => rfl,
        fun _ => rfl⟩
  | succ n ih =>
      exact ⟨ih.evaluate_succ, ih.evaluateEach_succ, ih.apply_succ, ih.enter_succ, ih.execute_succ,
        ih.executeEach_succ⟩

end Jumping

end TreeWalk
