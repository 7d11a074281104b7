import TreeWalk.Frames.Access
import TreeWalk.Operators

/-!
# The machine that programs run on

The state of a run and its elementary steps: making frames, closures, classes and
objects, and reading and changing variables and properties.

## Implementation notes

The current frame is part of the state. `inFrame` moves to another frame for a while
and comes back in every case, also when a step inside stops the run. A stopped run
keeps its state, so later programs see what it did.

The clock lies outside of the machine. What it shows is given as a row of readings, one
for each time that it is read, and nothing is known of how they follow on each other.
-/

namespace TreeWalk

/-- The state of a run. -/
structure Machine where
  heap : Heap
  current : FrameId
  /-- All that was printed. -/
  output : String
  /-- What the clock shows each time that it is read, in seconds. -/
  readings : Nat → Float
  /-- How many times the clock was read. -/
  taken : Nat

namespace Machine

/-- The outermost frame, which holds the global variables. -/
def globals : FrameId := 0

/-- The machine before any program: the clock is the only global variable. -/
def initial (readings : Nat → Float) : Machine :=
  { heap :=
      { Heap.initial with
        frames := Heap.initial.frames.define globals "clock" .clock }
    current := globals
    output := ""
    readings := readings
    taken := 0 }

/-- The frames of a machine. -/
def frames (m : Machine) : Frames Value := m.heap.frames

/-- Change the heap of a machine. -/
@[inline] def mapHeap (m : Machine) (f : Heap → Heap) : Machine :=
  { m with heap := f m.heap }

/-- Change the frames of a machine. -/
@[inline] def mapFrames (m : Machine) (f : Frames Value → Frames Value) : Machine :=
  m.mapHeap fun heap => { heap with frames := f heap.frames }

end Machine

/-- A step of a run. -/
abbrev Eval (α : Type) : Type := EStateM Stop Machine α

namespace Eval

variable {α : Type}

/-- Stop the run for a broken rule at a token. -/
def raise (cause : RuntimeCause) (token : Token) : Eval α :=
  throw (.error ⟨cause, token⟩)

/-- A computation that does not change the machine. -/
def inspect (f : Machine → Except Stop α) : Eval α := fun m =>
  match f m with
  | .ok a => .ok a m
  | .error stop => .error stop m

/-- The result of an operator. -/
def operate : Except Stop Value → Eval Value
  | .ok value => return value
  | .error stop => throw stop

/-- Run a step in another frame and come back. -/
def inFrame (frame : FrameId) (act : Eval α) : Eval α := fun m =>
  match act { m with current := frame } with
  | .ok a after => .ok a { after with current := m.current }
  | .error stop after => .error stop { after with current := m.current }

/-- Print a line. -/
def print (line : String) : Eval Unit :=
  modify fun m => { m with output := m.output ++ line ++ "\n" }

/-- Read the clock. -/
def readClock : Eval Value := fun m =>
  .ok (.number (m.readings m.taken)) { m with taken := m.taken + 1 }

/-- A new frame inside another one. -/
def newFrame (parent : FrameId) : Eval FrameId := fun m =>
  .ok m.frames.size (m.mapFrames (·.push (some parent)))

/-- Bind a name in a frame. -/
def define (frame : FrameId) (name : String) (value : Value) : Eval Unit :=
  modify fun m => m.mapFrames (·.define frame name value)

/-- Bind a name in the current frame. -/
def defineHere (name : String) (value : Value) : Eval Unit := do
  define (← get).current name value

/-- Bind parameters to arguments. -/
def defineEach (frame : FrameId) : List Token → List Value → Eval Unit
  | param :: params, argument :: arguments => do
    define frame param.lexeme argument
    defineEach frame params arguments
  | _, _ => return ()

/-- The value of a variable: a reference with a distance is looked up there, any other
among the globals. -/
def readReference (reference : Reference) : Eval Value :=
  inspect fun m =>
    match reference.distance with
    | some distance => m.frames.readAt m.current distance reference.name
    | none => m.frames.read Machine.globals reference.name

/-- Change a variable. -/
def writeReference (reference : Reference) (value : Value) : Eval Unit := do
  let frame ← inspect fun m =>
    match reference.distance with
    | some distance => m.frames.targetAt m.current distance reference.name
    | none => m.frames.target Machine.globals reference.name
  define frame reference.name.lexeme value

/-- What a frame itself binds to `this`. -/
def thisOf (frame : FrameId) : Eval Value :=
  inspect fun m =>
    match m.frames.local? frame "this" with
    | some value => .ok value
    | none => .error (.fault .missingThis)

/-- The closure of a number. -/
def closureOf (id : ClosureId) : Eval Closure :=
  inspect fun m =>
    match m.heap.closures[id]? with
    | some closure => .ok closure
    | none => .error (.fault .dangling)

/-- A new closure. -/
def newClosure (closure : Closure) : Eval ClosureId := fun m =>
  .ok m.heap.closures.size
    (m.mapHeap fun heap => { heap with closures := heap.closures.push closure })

/-- A new class. -/
def newClass (record : ClassRecord) : Eval ClassId := fun m =>
  .ok m.heap.classes.size
    (m.mapHeap fun heap => { heap with classes := heap.classes.push record })

/-- A new object without fields. -/
def newObject (classId : ClassId) : Eval ObjectId := fun m =>
  .ok m.heap.objects.size
    (m.mapHeap fun heap => { heap with objects := heap.objects.push ⟨classId, .empty⟩ })

/-- A method bound to a receiver: a closure of its own, made in a frame that binds
`this`. -/
def bind (method : ClosureId) (receiver : Value) : Eval ClosureId := do
  let closure ← closureOf method
  let frame ← newFrame closure.frame
  define frame "this" receiver
  newClosure { closure with frame := frame }

/-- The method of a name for a class, if there is one. -/
def findMethod (classId : ClassId) (name : String) : Eval (Option ClosureId) :=
  inspect fun m => .ok (m.heap.method? classId name)

/-- The record of an object. -/
def objectOf (id : ObjectId) : Eval ObjectRecord :=
  inspect fun m =>
    match m.heap.objects[id]? with
    | some record => .ok record
    | none => .error (.fault .dangling)

/-- A property of an object: a field, or else a method bound to the object. -/
def readProperty (id : ObjectId) (name : Token) : Eval Value := do
  let record ← objectOf id
  match record.fields.get? name.lexeme with
  | some value => return value
  | none =>
    match ← findMethod record.classId name.lexeme with
    | some method => return .closure (← bind method (.object id))
    | none => raise .undefinedProperty name

/-- Set a field of an object. -/
def writeField (id : ObjectId) (name : String) (value : Value) : Eval Unit :=
  modify fun m => m.mapHeap fun heap =>
    { heap with
      objects := heap.objects.modify id fun record =>
        { record with fields := record.fields.put name value } }

/-- A method of the superclass that was recorded around the current method, bound to
the receiver of that method. The frame that binds `this` lies just inside the one that
binds `super`. -/
def readSuper (reference : Reference) (method : Token) : Eval Value := do
  match reference.distance with
  | none => throw (.fault .unlocatedSuper)
  | some distance =>
    let parent ← readReference reference
    let frame ← inspect fun m => m.frames.ancestor m.current (distance - 1)
    let receiver ← thisOf frame
    match parent with
    | .classRef id =>
      match ← findMethod id method.lexeme with
      | some found => return .closure (← bind found receiver)
      | none => raise .undefinedProperty method
    | _ => throw (.fault .superIsNoClass)

/-- The class that a reference names. -/
def readClass (reference : Reference) : Eval ClassId := do
  match ← readReference reference with
  | .classRef id => return id
  | _ => raise .superclassIsNoClass reference.name

/-- The frame in which the methods of a class are made: with a superclass, a frame of
its own that binds `super`. -/
def methodFrame : Option ClassId → Eval FrameId
  | none => return (← get).current
  | some parent => do
    let frame ← newFrame (← get).current
    define frame "super" (.classRef parent)
    return frame

/-- The closures of the methods of a class, with their names. -/
def newMethods (frame : FrameId) : List FunctionDecl → Eval (List (String × ClosureId))
  | [] => return []
  | method :: rest => do
    let name := method.name.lexeme
    let id ← newClosure ⟨some name, method.params, method.body, frame, name = "init"⟩
    return (name, id) :: (← newMethods frame rest)

/-- Declare a class. While the superclass is looked up the name is bound to nil; of two
methods of one name the later one counts. -/
def declareClass (name : Token) (parent : Option Reference) (methods : List FunctionDecl) :
    Eval Unit := do
  defineHere name.lexeme .nil
  let superclass ← match parent with
    | none => pure none
    | some reference => some <$> readClass reference
  let frame ← methodFrame superclass
  let methods ← newMethods frame methods
  let id ← newClass ⟨name.lexeme, superclass, .ofList methods⟩
  let frame ← inspect fun m => m.frames.target m.current name
  define frame name.lexeme (.classRef id)

end Eval

end TreeWalk
