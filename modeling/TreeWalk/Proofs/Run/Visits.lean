import TreeWalk.Proofs.Run.Declarations

/-!
# What a run comes to

A visit is a task of the evaluator together with its fuel and the machine on which it
starts. `Starts` relates a visit to those that it starts directly, one after the other,
each on the machine that the ones before it left. A visit is admitted if the machine is
sound and the chain of its frames fits the place of its node.

## Implementation notes

While the initial value of a variable is computed, the variable is pending. A visit of a
declaration thus opens a pending name for what it starts.
-/

namespace TreeWalk

open Resolve Surroundings Eval

/-- What the evaluator can be asked to do. -/
inductive Task
  | evaluate (e : Expr)
  | evaluateEach (items : List Expr)
  | apply (callee : Value) (arguments : List Value)
  | enter (closure : Closure) (arguments : List Value)
  | execute (s : Stmt)
  | executeEach (body : List Stmt)

/-- A task that starts on a machine. -/
structure Visit where
  fuel : Nat
  task : Task
  machine : Machine

namespace Task

/-- The node of a task, if it is about one. -/
def node? : Task → Option Node
  | evaluate e => some (.expr e)
  | evaluateEach items => some (.exprs items)
  | execute s => some (.stmt s)
  | executeEach body => some (.stmts body)
  | apply .. | enter .. => none

/-- The names that are pending while a task runs in a frame. -/
def opens (frame : FrameId) : Task → Pending
  | execute (.varDecl name (some _)) => [(frame, name.lexeme)]
  | _ => []

end Task

/-- The names that are pending while a visit lasts. -/
def Visit.opens (v : Visit) : Pending := v.task.opens v.machine.current

/-- A visit starts another one directly. -/
inductive Starts : Visit → Visit → Prop
  | assigned {n m reference value} :
      Starts ⟨n + 1, .evaluate (.assign reference value), m⟩ ⟨n, .evaluate value, m⟩
  | grouping {n m inner} : Starts ⟨n + 1, .evaluate (.grouping inner), m⟩ ⟨n, .evaluate inner, m⟩
  | unary {n m operator operand} :
      Starts ⟨n + 1, .evaluate (.unary operator operand), m⟩ ⟨n, .evaluate operand, m⟩
  | binaryLeft {n m left operator right} :
      Starts ⟨n + 1, .evaluate (.binary left operator right), m⟩ ⟨n, .evaluate left, m⟩
  | binaryRight {n m m₁ left operator right v} : (evaluate n left).Gives m v m₁ →
      Starts ⟨n + 1, .evaluate (.binary left operator right), m⟩ ⟨n, .evaluate right, m₁⟩
  | logicalLeft {n m left operator right} :
      Starts ⟨n + 1, .evaluate (.logical left operator right), m⟩ ⟨n, .evaluate left, m⟩
  | logicalRight {n m m₁ left operator right v} : (evaluate n left).Gives m v m₁ →
      (if operator.kind = .orWord then v.isTruthy else !v.isTruthy) = false →
      Starts ⟨n + 1, .evaluate (.logical left operator right), m⟩ ⟨n, .evaluate right, m₁⟩
  | condition {n m condition consequent alternative} :
      Starts ⟨n + 1, .evaluate (.conditional condition consequent alternative), m⟩
        ⟨n, .evaluate condition, m⟩
  | consequent {n m m₁ condition consequent alternative v} : (evaluate n condition).Gives m v m₁ →
      v.isTruthy = true →
      Starts ⟨n + 1, .evaluate (.conditional condition consequent alternative), m⟩
        ⟨n, .evaluate consequent, m₁⟩
  | alternative {n m m₁ condition consequent alternative v} : (evaluate n condition).Gives m v m₁ →
      v.isTruthy = false →
      Starts ⟨n + 1, .evaluate (.conditional condition consequent alternative), m⟩
        ⟨n, .evaluate alternative, m₁⟩
  | items {n m items} : Starts ⟨n + 1, .evaluate (.comma items), m⟩ ⟨n, .evaluateEach items, m⟩
  | callee {n m callee paren arguments} :
      Starts ⟨n + 1, .evaluate (.call callee paren arguments), m⟩ ⟨n, .evaluate callee, m⟩
  | arguments {n m m₁ callee paren arguments f} : (evaluate n callee).Gives m f m₁ →
      m₁.heap.arity? f = some arguments.length →
      Starts ⟨n + 1, .evaluate (.call callee paren arguments), m⟩ ⟨n, .evaluateEach arguments, m₁⟩
  | called {n m m₁ m₂ callee paren arguments f values} : (evaluate n callee).Gives m f m₁ →
      m₁.heap.arity? f = some arguments.length →
      (evaluateEach n arguments).Gives m₁ values m₂ →
      Starts ⟨n + 1, .evaluate (.call callee paren arguments), m⟩ ⟨n, .apply f values, m₂⟩
  | getObject {n m object name} :
      Starts ⟨n + 1, .evaluate (.get object name), m⟩ ⟨n, .evaluate object, m⟩
  | setObject {n m object name value} :
      Starts ⟨n + 1, .evaluate (.set object name value), m⟩ ⟨n, .evaluate object, m⟩
  | setValue {n m m₁ object name value id} : (evaluate n object).Gives m (.object id) m₁ →
      Starts ⟨n + 1, .evaluate (.set object name value), m⟩ ⟨n, .evaluate value, m₁⟩
  | item {n m item rest} : Starts ⟨n + 1, .evaluateEach (item :: rest), m⟩ ⟨n, .evaluate item, m⟩
  | otherItems {n m m₁ item rest v} : (evaluate n item).Gives m v m₁ →
      Starts ⟨n + 1, .evaluateEach (item :: rest), m⟩ ⟨n, .evaluateEach rest, m₁⟩
  | closure {n m id closure arguments} : m.heap.closures[id]? = some closure →
      Starts ⟨n + 1, .apply (.closure id) arguments, m⟩ ⟨n, .enter closure arguments, m⟩
  | initializer {n m m₁ m₂ id method object bound closure arguments} :
      (newObject id).Gives m object m₁ → m₁.heap.method? id "init" = some method →
      (Eval.bind method (.object object)).Gives m₁ bound m₂ →
      m₂.heap.closures[bound]? = some closure →
      Starts ⟨n + 1, .apply (.classRef id) arguments, m⟩ ⟨n, .enter closure arguments, m₂⟩
  | body {n m m₁ m₂ m₃ closure arguments outer inner} : (newFrame closure.frame).Gives m outer m₁ →
      (defineEach outer closure.params arguments).Gives m₁ () m₂ →
      (newFrame outer).Gives m₂ inner m₃ →
      Starts ⟨n + 1, .enter closure arguments, m⟩
        ⟨n, .executeEach closure.body, { m₃ with current := inner }⟩
  | value {n m value} : Starts ⟨n + 1, .execute (.expression value), m⟩ ⟨n, .evaluate value, m⟩
  | printed {n m value} : Starts ⟨n + 1, .execute (.print value), m⟩ ⟨n, .evaluate value, m⟩
  | initial {n m name initial} :
      Starts ⟨n + 1, .execute (.varDecl name (some initial)), m⟩ ⟨n, .evaluate initial, m⟩
  | block {n m m₁ body frame} : (newFrame m.current).Gives m frame m₁ →
      Starts ⟨n + 1, .execute (.block body), m⟩ ⟨n, .executeEach body, { m₁ with current := frame }⟩
  | branchCondition {n m condition consequent alternative} :
      Starts ⟨n + 1, .execute (.branch condition consequent alternative), m⟩
        ⟨n, .evaluate condition, m⟩
  | branchConsequent {n m m₁ condition consequent alternative v} :
      (evaluate n condition).Gives m v m₁ → v.isTruthy = true →
      Starts ⟨n + 1, .execute (.branch condition consequent alternative), m⟩
        ⟨n, .execute consequent, m₁⟩
  | branchAlternative {n m m₁ condition consequent alternative v} :
      (evaluate n condition).Gives m v m₁ → v.isTruthy = false →
      Starts ⟨n + 1, .execute (.branch condition consequent (some alternative)), m⟩
        ⟨n, .execute alternative, m₁⟩
  | loopCondition {n m condition body} :
      Starts ⟨n + 1, .execute (.loop condition body), m⟩ ⟨n, .evaluate condition, m⟩
  | loopBody {n m m₁ condition body v} : (evaluate n condition).Gives m v m₁ → v.isTruthy = true →
      Starts ⟨n + 1, .execute (.loop condition body), m⟩ ⟨n, .execute body, m₁⟩
  | loopAgain {n m m₁ m₂ condition body v} : (evaluate n condition).Gives m v m₁ →
      v.isTruthy = true → (execute n body).Gives m₁ .normal m₂ →
      Starts ⟨n + 1, .execute (.loop condition body), m⟩ ⟨n, .execute (.loop condition body), m₂⟩
  | returned {n m keyword value} :
      Starts ⟨n + 1, .execute (.returns keyword (some value)), m⟩ ⟨n, .evaluate value, m⟩
  | statement {n m s rest} : Starts ⟨n + 1, .executeEach (s :: rest), m⟩ ⟨n, .execute s, m⟩
  | otherStatements {n m m₁ s rest} : (execute n s).Gives m .normal m₁ →
      Starts ⟨n + 1, .executeEach (s :: rest), m⟩ ⟨n, .executeEach rest, m₁⟩

theorem Starts.fuel {v v' : Visit} (h : Starts v v') : v.fuel = v'.fuel + 1 := by
  cases h <;> rfl

variable {W : Spot → Prop} {P : Pending}

/-- The frames of a machine fit the place of a node. -/
def FitsNode (W : Spot → Prop) (P : Pending) (node : Node) (m : Machine) : Prop :=
  ∃ place place', Placed W node place place' ∧ Fits P m.heap.frames place.views m.current

/-- The frames of a machine fit the place of a statement, and the current frame binds no
other names than the innermost scope there. -/
def FitsStatement (W : Spot → Prop) (P : Pending) (node : Node) (m : Machine) : Prop :=
  ∃ place place', Placed W node place place' ∧ Fits P m.heap.frames place.views m.current ∧
    Exact P m.heap.frames place.views m.current

/-- What a task that is about a node needs of the machine that it starts on, if the walk gave the
node at one of these spots. -/
def AdmitsIn (N : Spot → Prop) (P : Pending) (m : Machine) : Task → Prop
  | .evaluate e => FitsNode N P (.expr e) m
  | .evaluateEach items => FitsNode N P (.exprs items) m
  | .execute s => FitsStatement N P (.stmt s) m
  | .executeEach body => FitsStatement N P (.stmts body) m
  | .apply .. | .enter .. => False

/-- What a task needs of the machine that it starts on. -/
def Admits (W : Spot → Prop) (P : Pending) (m : Machine) : Task → Prop
  | .evaluate e => FitsNode W P (.expr e) m
  | .evaluateEach items => FitsNode W P (.exprs items) m
  | .apply callee arguments => m.heap.Valid W P callee ∧
      (∀ v ∈ arguments, m.heap.Valid W P v) ∧ m.heap.arity? callee = some arguments.length
  | .enter closure arguments => m.heap.Callable W P closure ∧
      (∀ v ∈ arguments, m.heap.Valid W P v) ∧ closure.params.length = arguments.length
  | .execute s => FitsStatement W P (.stmt s) m
  | .executeEach body => FitsStatement W P (.stmts body) m

theorem AdmitsIn.admits {m : Machine} {task : Task} (h : AdmitsIn W P m task) :
    Admits W P m task := by
  cases task with
  | evaluate | evaluateEach | execute | executeEach => exact h
  | apply | enter => exact h.elim

/-- What a task needs that is about a node of one of some spots, it has for one of them. -/
theorem AdmitsIn.at_spot {N : Spot → Prop} {m : Machine} {task : Task} (h : AdmitsIn N P m task) :
    ∃ spot, N spot ∧ AdmitsIn (· = spot) P m task := by
  cases task with
  | evaluate | evaluateEach =>
      obtain ⟨place, after, ⟨original, inside, made⟩, fits⟩ := h
      exact ⟨_, inside, place, after, ⟨original, rfl, made⟩, fits⟩
  | execute | executeEach =>
      obtain ⟨place, after, ⟨original, inside, made⟩, fits⟩ := h
      exact ⟨_, inside, place, after, ⟨original, rfl, made⟩, fits⟩
  | apply | enter => exact h.elim

/-- A visit of a task that has all that it needs. -/
structure Visit.Admitted (W : Spot → Prop) (P : Pending) (v : Visit) : Prop where
  sound : v.machine.heap.Sound W P
  admits : Admits W P v.machine v.task

theorem Visit.Admitted.admitsIn {v : Visit} {node : Node} (admitted : v.Admitted W P)
    (about : v.task.node? = some node) : AdmitsIn W P v.machine v.task := by
  obtain ⟨fuel, task, m⟩ := v
  cases task with
  | evaluate | evaluateEach | execute | executeEach => exact admitted.admits
  | apply | enter => cases about

/-- The postcondition of evaluating several expressions. -/
def GaveEach (W : Spot → Prop) (P : Pending) (m : Machine) (count : Nat) (values : List Value)
    (m' : Machine) : Prop :=
  m'.heap.Sound W P ∧ m.heap.Carries Nowhere P P m'.heap ∧
    (∀ v ∈ values, m'.heap.Valid W P v) ∧ values.length = count

/-- The postcondition of running statements in order. -/
def Ended (W : Spot → Prop) (P : Pending) (m : Machine) (completion : Completion) (m' : Machine) :
    Prop :=
  m'.heap.Sound W P ∧ m.heap.Carries (Inside m.current) P P m'.heap ∧
    ∀ v, completion = .returned v → m'.heap.Valid W P v

/-- Every admitted task that has this much fuel is safe and leaves what it should. -/
structure Keeps (W : Spot → Prop) (n : Nat) : Prop where
  evaluate : ∀ {P e m}, Visit.Admitted W P ⟨n, .evaluate e, m⟩ →
    Safe W (evaluate n e) m (Gave W P m)
  evaluateEach : ∀ {P items m}, Visit.Admitted W P ⟨n, .evaluateEach items, m⟩ →
    Safe W (evaluateEach n items) m (GaveEach W P m items.length)
  apply : ∀ {P callee arguments m}, Visit.Admitted W P ⟨n, .apply callee arguments, m⟩ →
    Safe W (apply n callee arguments) m (Gave W P m)
  enter : ∀ {P closure arguments m}, Visit.Admitted W P ⟨n, .enter closure arguments, m⟩ →
    Safe W (enter n closure arguments) m (Gave W P m)
  execute : ∀ {P s m}, Visit.Admitted W P ⟨n, .execute s, m⟩ →
    Safe W (execute n s) m (Completed W P m s.declared?)
  executeEach : ∀ {P body m}, Visit.Admitted W P ⟨n, .executeEach body, m⟩ →
    Safe W (executeEach n body) m (Ended W P m)

end TreeWalk
