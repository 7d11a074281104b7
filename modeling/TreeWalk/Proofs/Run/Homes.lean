import TreeWalk.Proofs.Run.Declarations
import TreeWalk.Session

/-!
# Runs that keep book of receivers

An evaluator that does not look for `this` and `super` in frames. Code has a home: the
receiver of the method around it and the superclass that was recorded when the class
around it was declared. A closure keeps the home in which it was made, and a method that
is bound gets a home of its own. Properties are looked up in a book of the classes as they
were written.

## Implementation notes

All other steps are those of the machine, which is carried along. At every step that is
taken from the book, the step of the machine itself is compared with it, and at every
node all properties of all objects are. The outcome of the comparisons is part of the
state, so that they come out right says something about every single use of `this`, of
`super` and of a property.
-/

namespace TreeWalk

variable {α β : Type}

/-- Where code belongs: the receiver of the method around it and the superclass of the
class around that. -/
structure Home where
  receiver : Option Value
  superclass : Option ClassId

/-- The home of code outside of every method. -/
def Home.nowhere : Home := ⟨none, none⟩

/-- A class as it was declared: the superclass as of then, and the methods in the order in
which they are written. -/
structure Declared where
  superclass : Option ClassId
  methods : List (String × ClosureId)

/-- A machine with the home of the code that runs on it, and the book: the homes of all
closures and the declarations of all classes. -/
structure Scene where
  machine : Machine
  home : Home
  homes : Array Home
  classes : Array Declared
  /-- Every comparison of the book with the machine came out right so far. -/
  agreed : Prop

/-- The method of a name in the first class that declares it, from a class through those
it inherits from, with the superclass of the class that declares it. Of two methods of one
name the one written last counts. -/
def methodOf (classes : Array Declared) (c : ClassId) (name : String) :
    Option (ClosureId × Option ClassId) :=
  match classes[c]? with
  | none => none
  | some declared =>
    match declared.methods.reverse.lookup name with
    | some method => some (method, declared.superclass)
    | none =>
      match declared.superclass with
      | none => none
      | some parent => if parent < c then methodOf classes parent name else none
termination_by c

/-- A step of a run that keeps book. -/
abbrev Told (α : Type) : Type := EStateM Stop Scene α

namespace Told

/-- A step of the machine. -/
def lift (act : Eval α) : Told α := fun s =>
  match act s.machine with
  | .ok a m => .ok a { s with machine := m }
  | .error stop m => .error stop { s with machine := m }

/-- What a step does to the machine. -/
def onMachine (told : Told α) (s : Scene) : EStateM.Result Stop Machine α :=
  match told s with
  | .ok a s' => .ok a s'.machine
  | .error stop s' => .error stop s'.machine

/-- Take a step from the book and compare it with the one of the machine itself. -/
def compared (own : Eval α) (told : Told α) : Told α := fun s =>
  match told s with
  | .ok a s' => .ok a { s' with agreed := s'.agreed ∧ own s.machine = told.onMachine s }
  | .error stop s' =>
    .error stop { s' with agreed := s'.agreed ∧ own s.machine = told.onMachine s }

/-- Run a step in another frame, in code of some home, and come back. -/
def inside (frame : FrameId) (home : Home) (told : Told α) : Told α := fun s =>
  match told { s with machine := { s.machine with current := frame }, home := home } with
  | .ok a s' =>
    .ok a { s' with machine := { s'.machine with current := s.machine.current }, home := s.home }
  | .error stop s' =>
    .error stop
      { s' with machine := { s'.machine with current := s.machine.current }, home := s.home }

/-- The receiver of the method that a home belongs to. -/
def receiverOf (home : Home) : Told Value :=
  match home.receiver with
  | some value => return value
  | none => throw (.fault .missingThis)

/-- The home of a closure. -/
def homeOf (id : ClosureId) : Told Home := do
  match (← get).homes[id]? with
  | some home => return home
  | none => throw (.fault .dangling)

/-- Take note of the home of a new closure. -/
def note (home : Home) : Told Unit :=
  modify fun s => { s with homes := s.homes.push home }

/-- A new closure that keeps the home of the code that makes it. -/
def newClosure (closure : Closure) : Told ClosureId := do
  let id ← lift (Eval.newClosure closure)
  note (← get).home
  return id

/-- A new closure for a function that is declared or written in the current frame. -/
def closeOver (name : Option String) (params : List Token) (body : List Stmt) : Told Value := do
  return .closure (← newClosure ⟨name, params, body, (← get).machine.current, false⟩)

/-- A method bound to a receiver, at home there and in the class that declares it. -/
def bind (method : ClosureId) (superclass : Option ClassId) (receiver : Value) :
    Told ClosureId := do
  let bound ← lift (Eval.bind method receiver)
  note ⟨some receiver, superclass⟩
  return bound

/-- The method of a name for a class, bound to a receiver, if there is one. -/
def boundMethod (c : ClassId) (name : String) (receiver : Value) : Told (Option ClosureId) := do
  match methodOf (← get).classes c name with
  | some (method, superclass) => return some (← bind method superclass receiver)
  | none => return none

/-- A method of a class as a value, bound to a receiver. -/
def method (c : ClassId) (name : Token) (receiver : Value) : Told Value := do
  match ← boundMethod c name.lexeme receiver with
  | some bound => return .closure bound
  | none => lift (Eval.raise .undefinedProperty name)

/-- A property of an object: its own field, or else a method bound to the object. -/
def property (id : ObjectId) (name : Token) : Told Value := do
  let record ← lift (Eval.objectOf id)
  match record.fields.get? name.lexeme with
  | some value => return value
  | none => method record.classId name (.object id)

/-- Every property of every object is what the book says. -/
def propertiesAgree (s : Scene) : Prop :=
  ∀ id name, Eval.readProperty id name s.machine = (property id name).onMachine s

/-- Compare the properties of all objects. -/
def checkProperties : Told Unit :=
  modify fun s => { s with agreed := s.agreed ∧ propertiesAgree s }

/-- A method of the superclass of the class around the code, bound to the receiver of the
method around the code. -/
def superMethod (name : Token) : Told Value := do
  let home := (← get).home
  let receiver ← receiverOf home
  match home.superclass with
  | none => throw (.fault .superIsNoClass)
  | some parent => method parent name receiver

/-- The closures of the methods of a class, with their names. -/
def newMethods (frame : FrameId) : List FunctionDecl → Told (List (String × ClosureId))
  | [] => return []
  | method :: rest => do
    let name := method.name.lexeme
    let id ← newClosure ⟨some name, method.params, method.body, frame, name = "init"⟩
    return (name, id) :: (← newMethods frame rest)

/-- A new class, which is put into the book as it is declared. -/
def newClass (name : String) (declared : Declared) : Told ClassId := do
  let id ← lift (Eval.newClass ⟨name, declared.superclass, .ofList declared.methods⟩)
  modify fun s => { s with classes := s.classes.push declared }
  return id

/-- Declare a class. -/
def declareClass (name : Token) (parent : Option Reference) (methods : List FunctionDecl) :
    Told Unit := do
  lift (Eval.defineHere name.lexeme .nil)
  let superclass ← lift (superclassOf parent)
  let frame ← lift (Eval.methodFrame superclass)
  let methods ← newMethods frame methods
  let id ← newClass name.lexeme ⟨superclass, methods⟩
  let frame ← lift (Eval.inspect fun m => m.frames.target m.current name)
  lift (Eval.define frame name.lexeme (.classRef id))

/-- Completions are handed upward, as those of the machine are. -/
def handed : Completing Told Completion where
  normal := .normal
  returning value := return .returned value
  andThen first next := do
    match ← first with
    | .normal => next
    | .returned value => return .returned value

mutual

/-- The value of an expression. What is of `this`, of `super` and of a property is taken
from the book. -/
def evaluate : Nat → Expr → Told Value
  | 0, _ => throw .outOfFuel
  | fuel + 1, e => do
    checkProperties
    match e with
    | .this reference =>
      compared (Eval.readReference reference) do receiverOf (← get).home
    | .super reference method =>
      compared (Eval.readSuper reference method) (superMethod method)
    | .get object name => do
      match ← evaluate fuel object with
      | .object id => compared (Eval.readProperty id name) (property id name)
      | _ => lift (Eval.raise .noProperties name)
    | .lambda _ params body => closeOver none params body
    | e => Clauses.evaluate lift (evaluate fuel) (evaluateEach fuel) (apply fuel) e

/-- The values of expressions, in order. -/
def evaluateEach : Nat → List Expr → Told (List Value)
  | 0, _ => throw .outOfFuel
  | fuel + 1, items => Clauses.evaluateEach (evaluate fuel) (evaluateEach fuel) items

/-- The value of a call. A closure is run at its home. -/
def apply : Nat → Value → List Value → Told Value
  | 0, _, _ => throw .outOfFuel
  | fuel + 1, callee, arguments =>
    match callee with
    | .closure id => do
      let closure ← lift (Eval.closureOf id)
      enter fuel closure (← homeOf id) arguments
    | .classRef id => do
      let object ← lift (Eval.newObject id)
      match ← boundMethod id "init" (.object object) with
      | none => return .object object
      | some bound =>
        let closure ← lift (Eval.closureOf bound)
        let _ ← enter fuel closure (← homeOf bound) arguments
        return .object object
    | callee => Clauses.apply lift (fun _ _ => throw (.fault .dangling)) callee arguments

/-- Run the body of a closure at its home. -/
def enter : Nat → Closure → Home → List Value → Told Value
  | 0, _, _, _ => throw .outOfFuel
  | fuel + 1, closure, home, arguments =>
    Clauses.enter lift (fun frame body => inside frame home (executeEach fuel body))
      Completion.value (fun frame => compared (Eval.thisOf frame) (receiverOf home)) closure
      arguments

/-- Run a statement. What is declared is put into the book. -/
def execute : Nat → Stmt → Told Completion
  | 0, _ => throw .outOfFuel
  | fuel + 1, statement => do
    checkProperties
    match statement with
    | .functionDecl function => do
      let name := function.name.lexeme
      let value ← closeOver (some name) function.params function.body
      lift (Eval.defineHere name value)
      return .normal
    | .classDecl name parent methods => do
      declareClass name parent methods
      return .normal
    | statement =>
      Clauses.execute lift handed (evaluate fuel) (execute fuel)
        (fun frame body => do inside frame (← get).home (executeEach fuel body)) statement

/-- Run statements in order up to the first that returns. -/
def executeEach : Nat → List Stmt → Told Completion
  | 0, _ => throw .outOfFuel
  | fuel + 1, statements =>
    Clauses.executeEach handed (execute fuel) (executeEach fuel) statements

end

/-- Run the statements of a program. -/
def interpret (fuel : Nat) (program : List Stmt) : Told Unit :=
  program.forM fun statement => do
    let _ ← execute fuel statement

/-- Run a program some times over. -/
def interpretTimes (fuel : Nat) (program : List Stmt) : Nat → Told Unit
  | 0 => return ()
  | times + 1 => do
    interpret fuel program
    interpretTimes fuel program times

/-- What a step of a session runs, if its source has no fault. -/
def task (fuel : Nat) : Mode → String → Except Failure (Told (Option Value))
  | .run times, source => do
    let (program, _) ← (prepareSource source).result
    return do
      interpretTimes fuel program times
      return none
  | .runRaw times, source => do
    let program ← (parseSource source).result
    return do
      interpretTimes fuel program times
      return none
  | .evaluate, source => do
    let (e, _) ← parseExpression source >>= resolveExpression
    return some <$> evaluate fuel e
  | .evaluateRaw, source => do
    let e ← parseExpression source
    return some <$> evaluate fuel e

end Told

namespace Scene

/-- The scene before any program. -/
def initial (readings : Nat → Float) : Scene := ⟨.initial readings, .nowhere, #[], #[], True⟩

/-- Run a computation on the machine of a scene. -/
def run (s : Scene) (told : Told α) : Except Failure α × Scene :=
  match told s with
  | .ok a s' => (.ok a, s')
  | .error stop s' => (.error (.run stop), s')

/-- The scene before the computation of a step: nothing was printed in this step yet. -/
def silent (s : Scene) : Scene := { s with machine := { s.machine with output := "" } }

/-- A step of a session that keeps book: its result and the scene that it leaves. -/
def step (s : Scene) (fuel : Nat) (mode : Mode) (source : String) :
    Except Failure (Option Value) × Scene :=
  match Told.task fuel mode source with
  | .error e => (.error e, s.silent)
  | .ok told => s.silent.run told

end Scene

end TreeWalk
