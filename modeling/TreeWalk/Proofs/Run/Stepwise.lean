import TreeWalk.Evaluation
import TreeWalk.Proofs.Run.Declarations

/-!
# What holds of every run

If two runs are related whenever they are made of related runs in the same way, and every step of
the machine is related to itself, then whatever the evaluator does is related to itself. So there
is one walk over the clauses of the evaluator for all relations of this kind. A property of single
runs is a relation that does not look at the second run.

## Implementation notes

The steps are told apart by how much of the machine they see and change. What looks something up
sees the heap and the current frame, what changes the heap sees nothing else, and only the clock
is asked for a reading. The two runs may have different fuel.
-/

namespace TreeWalk

namespace Eval

/-- What is found on a machine is told from its heap and its current frame. -/
def Plainly {β : Type} (look : Machine → β) : Prop :=
  ∀ m output readings taken, look ⟨m.heap, m.current, output, readings, taken⟩ = look m

/-- A relation between runs that relates every step to itself, and what is made of related runs in
the same way. -/
structure Stepwise (R : {α : Type} → Eval α → Eval α → Prop) : Prop where
  pure : ∀ {α : Type} (a : α), R (Pure.pure a) (Pure.pure a)
  throw : ∀ {α : Type} (stop : Stop), R (throw stop : Eval α) (throw stop)
  bind : ∀ {α β : Type} {x y : Eval α} {f g : α → Eval β}, R x y → (∀ a, R (f a) (g a)) →
    R (x >>= f) (y >>= g)
  inFrame : ∀ {α : Type} (frame : FrameId) {x y : Eval α}, R x y →
    R (Eval.inFrame frame x) (Eval.inFrame frame y)
  inspect : ∀ {α : Type} {look : Machine → Except Stop α}, Plainly look →
    R (Eval.inspect look) (Eval.inspect look)
  change : ∀ {α : Type} {act : Eval α} (number : Heap → α) (f : Heap → Heap),
    (∀ m, act m = .ok (number m.heap) (m.mapHeap f)) → R act act
  print : ∀ line, R (print line) (print line)
  readClock : R readClock readClock

/-- A run is related to itself. -/
abbrev Own (R : {α : Type} → Eval α → Eval α → Prop) {α : Type} (act : Eval α) : Prop := R act act

/-- Runs that go the same way are related if they are related whichever way they go. -/
theorem related_ite {R : {α : Type} → Eval α → Eval α → Prop} {α : Type} {p : Prop} [Decidable p]
    {x x' y y' : Eval α} (yes : R x y) (no : R x' y') :
    R (if p then x else x') (if p then y else y') := by
  split
  · exact yes
  · exact no

namespace Stepwise

variable {R : {α : Type} → Eval α → Eval α → Prop} (c : Stepwise R) {α β : Type}

include c

protected theorem map {x y : Eval α} {f : α → β} (h : R x y) : R (f <$> x) (f <$> y) := by
  rw [map_eq_pure_bind, map_eq_pure_bind]
  exact c.bind h fun _ => c.pure _

/-- What goes on with the machine, but sees no more of it than a look does. -/
theorem get {f g : Machine → Eval α} (plainly : Plainly f) (plainly' : Plainly g)
    (h : ∀ m, R (f m) (g m)) : R (MonadState.get >>= f) (MonadState.get >>= g) := by
  have found : R (Eval.inspect fun m => .ok (m.heap, m.current)) _ := c.inspect fun _ _ _ _ => rfl
  have through {f : Machine → Eval α} (plainly : Plainly f) : (MonadState.get >>= f) =
      Eval.inspect (fun m => .ok (m.heap, m.current)) >>=
        fun (heap, current) => f ⟨heap, current, "", fun _ => 0, 0⟩ := by
    funext m
    exact congrFun (plainly m _ _ _).symm m
  rw [through plainly, through plainly']
  exact c.bind found fun _ => h _

theorem raise (cause : RuntimeCause) (token : Token) : Own R (raise cause token : Eval α) :=
  c.throw _

theorem operate (result : Except Stop Value) : Own R (operate result) := by
  cases result with
  | ok => exact c.pure _
  | error => exact c.throw _

theorem newFrame (parent : FrameId) : Own R (newFrame parent) :=
  c.change (·.frames.size)
    (fun heap => { heap with frames := heap.frames.push (some parent) }) fun _ => rfl

theorem define (frame : FrameId) (name : String) (value : Value) :
    Own R (define frame name value) :=
  c.change (fun _ => ())
    (fun heap => { heap with frames := heap.frames.define frame name value }) fun _ => rfl

theorem newClosure (closure : Closure) : Own R (newClosure closure) :=
  c.change (·.closures.size)
    (fun heap => { heap with closures := heap.closures.push closure }) fun _ => rfl

theorem newClass (record : ClassRecord) : Own R (newClass record) :=
  c.change (·.classes.size)
    (fun heap => { heap with classes := heap.classes.push record }) fun _ => rfl

theorem newObject (id : ClassId) : Own R (newObject id) :=
  c.change (·.objects.size)
    (fun heap => { heap with objects := heap.objects.push ⟨id, .empty⟩ }) fun _ => rfl

theorem writeField (id : ObjectId) (name : String) (value : Value) :
    Own R (writeField id name value) :=
  c.change (fun _ => ())
    (fun heap => { heap with objects := heap.objects.modify id fun record =>
      { record with fields := record.fields.put name value } }) fun _ => rfl

theorem defineHere (name : String) (value : Value) : Own R (defineHere name value) :=
  c.get (fun _ _ _ _ => rfl) (fun _ _ _ _ => rfl) fun _ => c.define _ _ _

theorem defineEach (frame : FrameId) (params : List Token) (arguments : List Value) :
    Own R (defineEach frame params arguments) := by
  induction params generalizing arguments with
  | nil => exact c.pure _
  | cons param params ih =>
      cases arguments with
      | nil => exact c.pure _
      | cons argument arguments => exact c.bind (c.define _ _ _) fun _ => ih arguments

theorem readReference (reference : Reference) : Own R (readReference reference) :=
  c.inspect fun _ _ _ _ => rfl

theorem writeReference (reference : Reference) (value : Value) :
    Own R (writeReference reference value) :=
  c.bind (c.inspect fun _ _ _ _ => rfl) fun _ => c.define _ _ _

theorem thisOf (frame : FrameId) : Own R (thisOf frame) := c.inspect fun _ _ _ _ => rfl

theorem closureOf (id : ClosureId) : Own R (closureOf id) := c.inspect fun _ _ _ _ => rfl

theorem bindMethod (method : ClosureId) (receiver : Value) : Own R (Eval.bind method receiver) :=
  c.bind (c.closureOf _) fun _ => c.bind (c.newFrame _) fun _ => c.bind (c.define _ _ _) fun _ =>
    c.newClosure _

theorem findMethod (id : ClassId) (name : String) : Own R (findMethod id name) :=
  c.inspect fun _ _ _ _ => rfl

theorem readProperty (id : ObjectId) (name : Token) : Own R (readProperty id name) := by
  refine c.bind (c.inspect fun _ _ _ _ => rfl) fun record => ?_
  split
  · exact c.pure _
  · refine c.bind (c.findMethod _ _) fun method => ?_
    cases method with
    | none => exact c.raise _ _
    | some method => exact c.bind (c.bindMethod _ _) fun _ => c.pure _

theorem readSuper (reference : Reference) (method : Token) :
    Own R (readSuper reference method) := by
  unfold Eval.readSuper
  cases reference.distance with
  | none => exact c.throw _
  | some distance =>
      refine c.bind (c.readReference _) fun parent => c.bind (c.inspect fun _ _ _ _ => rfl)
        fun frame => c.bind (c.thisOf _) fun receiver => ?_
      cases parent with
      | classRef id =>
          refine c.bind (c.findMethod _ _) fun found => ?_
          cases found with
          | none => exact c.raise _ _
          | some found => exact c.bind (c.bindMethod _ _) fun _ => c.pure _
      | scalar | closure | object | clock => exact c.throw _

theorem readClass (reference : Reference) : Own R (readClass reference) := by
  refine c.bind (c.readReference _) fun parent => ?_
  split
  · exact c.pure _
  · exact c.raise _ _

theorem methodFrame (parent : Option ClassId) : Own R (methodFrame parent) := by
  cases parent with
  | none => exact c.get (fun _ _ _ _ => rfl) (fun _ _ _ _ => rfl) fun _ => c.pure _
  | some parent =>
      exact c.get (fun _ _ _ _ => rfl) (fun _ _ _ _ => rfl) fun _ => c.bind (c.newFrame _) fun _ =>
        c.bind (c.define _ _ _) fun _ => c.pure _

theorem newMethods (frame : FrameId) (methods : List FunctionDecl) :
    Own R (newMethods frame methods) := by
  induction methods with
  | nil => exact c.pure _
  | cons method rest ih => exact c.bind (c.newClosure _) fun _ => c.bind ih fun _ => c.pure _

theorem superclassOf (parent : Option Reference) : Own R (superclassOf parent) := by
  cases parent with
  | none => exact c.pure _
  | some reference => exact c.map (c.readClass reference)

theorem declareClass (name : Token) (parent : Option Reference) (methods : List FunctionDecl) :
    Own R (declareClass name parent methods) := by
  rw [declareClass_eq]
  exact c.bind (c.defineHere _ _) fun _ => c.bind (c.superclassOf _) fun _ =>
    c.bind (c.methodFrame _) fun _ => c.bind (c.newMethods _ _) fun _ =>
    c.bind (c.newClass _) fun _ => c.bind (c.inspect fun _ _ _ _ => rfl) fun _ => c.define _ _ _

theorem calleeArity (callee : Value) (paren : Token) : Own R (calleeArity callee paren) :=
  c.inspect fun _ _ _ _ => rfl

theorem closeOver (name : Option String) (params : List Token) (body : List Stmt) :
    Own R (closeOver name params body) :=
  c.get (fun _ _ _ _ => rfl) (fun _ _ _ _ => rfl) fun _ => c.bind (c.newClosure _) fun _ => c.pure _

end Stepwise

end Eval

open Eval

/-- Every function of the evaluator with some fuel is related to itself with some other fuel. -/
structure HoldsAt (R : {α : Type} → Eval α → Eval α → Prop) (n k : Nat) : Prop where
  evaluate : ∀ e, R (evaluate n e) (evaluate k e)
  evaluateEach : ∀ items, R (evaluateEach n items) (evaluateEach k items)
  apply : ∀ callee arguments, R (apply n callee arguments) (apply k callee arguments)
  enter : ∀ closure arguments, R (enter n closure arguments) (enter k closure arguments)
  execute : ∀ s, R (execute n s) (execute k s)
  executeEach : ∀ body, R (executeEach n body) (executeEach k body)

namespace HoldsAt

variable {R : {α : Type} → Eval α → Eval α → Prop} {n k : Nat} (c : Stepwise R)
  (ih : HoldsAt R n k)

include c ih

theorem evaluate_succ (e : Expr) :
    R (TreeWalk.evaluate (n + 1) e) (TreeWalk.evaluate (k + 1) e) := by
  cases e with
  | literal => exact c.pure _
  | «variable» | this => exact c.readReference _
  | assign _ value =>
      exact c.bind (ih.evaluate value) fun _ => c.bind (c.writeReference _ _) fun _ => c.pure _
  | super => exact c.readSuper _ _
  | grouping inner => exact ih.evaluate inner
  | unary _ operand => exact c.bind (ih.evaluate operand) fun _ => c.operate _
  | binary left _ right =>
      exact c.bind (ih.evaluate left) fun _ => c.bind (ih.evaluate right) fun _ => c.operate _
  | logical left _ right =>
      exact c.bind (ih.evaluate left) fun _ => related_ite (c.pure _) (ih.evaluate right)
  | conditional condition consequent alternative =>
      exact c.bind (ih.evaluate condition) fun _ =>
        related_ite (ih.evaluate consequent) (ih.evaluate alternative)
  | comma items => exact c.bind (ih.evaluateEach items) fun _ => c.pure _
  | call callee _ arguments =>
      exact c.bind (ih.evaluate callee) fun _ => c.bind (c.calleeArity _ _) fun _ =>
        related_ite (c.raise _ _) (c.bind (ih.evaluateEach arguments) fun _ => ih.apply _ _)
  | get object name =>
      refine c.bind (ih.evaluate object) fun v => ?_
      cases v with
      | object id => exact c.readProperty _ _
      | scalar | closure | classRef | clock => exact c.raise _ _
  | set object name value =>
      refine c.bind (ih.evaluate object) fun v => ?_
      cases v with
      | object id =>
          exact c.bind (ih.evaluate value) fun _ => c.bind (c.writeField _ _ _) fun _ => c.pure _
      | scalar | closure | classRef | clock => exact c.raise _ _
  | lambda => exact c.closeOver _ _ _

theorem evaluateEach_succ (items : List Expr) :
    R (TreeWalk.evaluateEach (n + 1) items) (TreeWalk.evaluateEach (k + 1) items) := by
  cases items with
  | nil => exact c.pure _
  | cons item rest =>
      exact c.bind (ih.evaluate item) fun _ => c.bind (ih.evaluateEach rest) fun _ => c.pure _

theorem apply_succ (callee : Value) (arguments : List Value) :
    R (TreeWalk.apply (n + 1) callee arguments) (TreeWalk.apply (k + 1) callee arguments) := by
  cases callee with
  | closure id => exact c.bind (c.closureOf _) fun _ => ih.enter _ _
  | classRef id =>
      refine c.bind (c.newObject _) fun _ => c.bind (c.findMethod _ _) fun initializer => ?_
      cases initializer with
      | none => exact c.pure _
      | some method =>
          exact c.bind (c.bindMethod _ _) fun _ => c.bind (c.closureOf _) fun _ =>
            c.bind (ih.enter _ _) fun _ => c.pure _
  | clock => exact c.readClock
  | scalar | object => exact c.throw _

theorem enter_succ (closure : Closure) (arguments : List Value) :
    R (TreeWalk.enter (n + 1) closure arguments) (TreeWalk.enter (k + 1) closure arguments) :=
  c.bind (c.newFrame _) fun _ => c.bind (c.defineEach _ _ _) fun _ =>
    c.bind (c.newFrame _) fun _ => c.bind (c.inFrame _ (ih.executeEach _)) fun _ =>
    related_ite (c.thisOf _) (c.pure _)

theorem execute_succ (s : Stmt) :
    R (TreeWalk.execute (n + 1) s) (TreeWalk.execute (k + 1) s) := by
  rcases s with value | value | ⟨_, _ | initial⟩ | body | ⟨condition, consequent, alternative⟩ |
    ⟨condition, body⟩ | function | _ | ⟨_, _ | value⟩
  case expression => exact c.bind (ih.evaluate value) fun _ => c.pure _
  case print =>
    exact c.bind (ih.evaluate value) fun _ => c.get (fun _ _ _ _ => rfl) (fun _ _ _ _ => rfl)
      fun _ => c.bind (c.print _) fun _ => c.pure _
  case varDecl.none => exact c.bind (c.defineHere _ _) fun _ => c.pure _
  case varDecl.some =>
    exact c.bind (ih.evaluate initial) fun _ => c.bind (c.defineHere _ _) fun _ => c.pure _
  case block =>
    exact c.get (fun _ _ _ _ => rfl) (fun _ _ _ _ => rfl) fun _ => c.bind (c.newFrame _) fun _ =>
      c.inFrame _ (ih.executeEach body)
  case branch =>
    refine c.bind (ih.evaluate condition) fun _ => related_ite (ih.execute consequent) ?_
    cases alternative with
    | none => exact c.pure _
    | some statement => exact ih.execute statement
  case loop =>
    refine c.bind (ih.evaluate condition) fun _ => related_ite ?_ (c.pure _)
    refine c.bind (ih.execute body) fun completion => ?_
    cases completion with
    | normal => exact ih.execute _
    | returned => exact c.pure _
  case functionDecl =>
    exact c.bind (c.closeOver _ _ _) fun _ => c.bind (c.defineHere _ _) fun _ => c.pure _
  case classDecl => exact c.bind (c.declareClass _ _ _) fun _ => c.pure _
  case returns.none => exact c.pure _
  case returns.some => exact c.bind (ih.evaluate value) fun _ => c.pure _

theorem executeEach_succ (body : List Stmt) :
    R (TreeWalk.executeEach (n + 1) body) (TreeWalk.executeEach (k + 1) body) := by
  cases body with
  | nil => exact c.pure _
  | cons s rest =>
      refine c.bind (ih.execute s) fun completion => ?_
      cases completion with
      | normal => exact ih.executeEach rest
      | returned => exact c.pure _

end HoldsAt

/-- What relates every step to itself relates whatever the evaluator does to itself. -/
theorem HoldsAt.same {R : {α : Type} → Eval α → Eval α → Prop} (c : Stepwise R)
    (fuel : Nat) : HoldsAt R fuel fuel := by
  induction fuel with
  | zero =>
      exact ⟨fun _ => c.throw _, fun _ => c.throw _, fun _ _ => c.throw _, fun _ _ => c.throw _,
        fun _ => c.throw _, fun _ => c.throw _⟩
  | succ n ih =>
      exact ⟨ih.evaluate_succ c, ih.evaluateEach_succ c, ih.apply_succ c, ih.enter_succ c,
        ih.execute_succ c, ih.executeEach_succ c⟩

/-- The same with more fuel on the other side, if running out of it is related to everything. -/
theorem HoldsAt.more {R : {α : Type} → Eval α → Eval α → Prop} (c : Stepwise R)
    (out : ∀ {α : Type} (act : Eval α), R (throw .outOfFuel) act) (fuel extra : Nat) :
    HoldsAt R fuel (fuel + extra) := by
  induction fuel with
  | zero =>
      exact ⟨fun _ => out _, fun _ => out _, fun _ _ => out _, fun _ _ => out _, fun _ => out _,
        fun _ => out _⟩
  | succ n ih =>
      rw [Nat.add_right_comm]
      exact ⟨ih.evaluate_succ c, ih.evaluateEach_succ c, ih.apply_succ c, ih.enter_succ c,
        ih.execute_succ c, ih.executeEach_succ c⟩

/-- What holds of statements holds of a program of them. -/
theorem HoldsAt.interpret {R : {α : Type} → Eval α → Eval α → Prop} (c : Stepwise R) {n k : Nat}
    (h : HoldsAt R n k) (program : List Stmt) :
    R (TreeWalk.interpret n program) (TreeWalk.interpret k program) := by
  induction program with
  | nil => exact c.pure _
  | cons s rest ih => exact c.bind (c.bind (h.execute s) fun _ => c.pure _) fun _ => ih

end TreeWalk
