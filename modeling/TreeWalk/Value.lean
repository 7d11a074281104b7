import TreeWalk.Frames
import TreeWalk.Tree

/-!
# Values and the heap

A value is a scalar or refers to something on the heap: a closure, a class or an
object. The clock is the one function that is built in.

## Implementation notes

What a value refers to is known by its number, so two values are the same exactly if
their numbers are. A class comes after its superclass, which ends every search for a
method.
-/

namespace TreeWalk

/-- The number of a closure. -/
abbrev ClosureId : Type := Nat

/-- The number of a class. -/
abbrev ClassId : Type := Nat

/-- The number of an object. -/
abbrev ObjectId : Type := Nat

/-- The values of running programs. -/
inductive Value
  | scalar (s : Scalar)
  | closure (id : ClosureId)
  | classRef (id : ClassId)
  | object (id : ObjectId)
  | clock
  deriving DecidableEq, Inhabited

/-- A function together with the frame it was made in. -/
structure Closure where
  /-- The declared name; a lambda has none. -/
  name : Option String
  params : List Token
  body : List Stmt
  frame : FrameId
  /-- An initializer returns the object it is bound to. -/
  isInitializer : Bool

/-- A class: the methods it declares and the class it inherits from. -/
structure ClassRecord where
  name : String
  superclass : Option ClassId
  methods : Bindings ClosureId

/-- An object: its class and its fields. -/
structure ObjectRecord where
  classId : ClassId
  fields : Bindings Value

/-- All that values refer to. -/
structure Heap where
  frames : Frames Value
  closures : Array Closure
  classes : Array ClassRecord
  objects : Array ObjectRecord

namespace Value

/-- The value nil. -/
def nil : Value := .scalar .nil

/-- A boolean. -/
def boolean (b : Bool) : Value := .scalar (.boolean b)

/-- A number. -/
def number (x : Float) : Value := .scalar (.number x)

/-- The name of a value's type in error messages. -/
def typeName : Value → String
  | .scalar s => s.typeName
  | .closure _ | .clock => "function"
  | .classRef _ => "class"
  | .object _ => "instance"

/-- Everything but nil and false counts as true in a condition. -/
def isTruthy : Value → Bool
  | .scalar s => s.isTruthy
  | _ => true

/-- Equality as programs see it: scalars by their content, all else by identity. -/
def equals : Value → Value → Bool
  | .scalar a, .scalar b => a.equals b
  | .closure a, .closure b => a == b
  | .classRef a, .classRef b => a == b
  | .object a, .object b => a == b
  | .clock, .clock => true
  | _, _ => false

end Value

namespace Heap

/-- A heap with one frame, the outermost. -/
def initial : Heap := ⟨Frames.empty.push none, #[], #[], #[]⟩

instance : Inhabited Heap := ⟨initial⟩

/-- The class that a class inherits from. -/
def superclass? (h : Heap) (c : ClassId) : Option ClassId :=
  h.classes[c]?.bind ClassRecord.superclass

/-- A class and those it inherits from, nearest first. -/
def lineage (h : Heap) (c : ClassId) : List ClassId :=
  match h.superclass? c with
  | none => [c]
  | some parent => if parent < c then c :: h.lineage parent else [c]
termination_by c

/-- The method of a name that a class declares. -/
def ownMethod? (h : Heap) (c : ClassId) (name : String) : Option ClosureId :=
  h.classes[c]?.bind fun record => record.methods.get? name

/-- The method of a name in the nearest class of the lineage that declares it. -/
def method? (h : Heap) (c : ClassId) (name : String) : Option ClosureId :=
  (h.lineage c).findSome? fun d => h.ownMethod? d name

/-- The number of arguments that a closure takes. -/
def closureArity (h : Heap) (id : ClosureId) : Nat :=
  match h.closures[id]? with
  | some closure => closure.params.length
  | none => 0

/-- The number of arguments that a value takes, if it can be called. A class takes
those of its initializer. -/
def arity? (h : Heap) : Value → Option Nat
  | .closure id => some (h.closureArity id)
  | .classRef id =>
    match h.method? id "init" with
    | some initializer => some (h.closureArity initializer)
    | none => some 0
  | .clock => some 0
  | _ => none

/-- The name of a class. -/
def className (h : Heap) (c : ClassId) : String :=
  match h.classes[c]? with
  | some record => record.name
  | none => ""

/-- The text that printing a value gives. -/
def text (h : Heap) : Value → String
  | .scalar s => s.text
  | .closure id =>
    match h.closures[id]?.bind Closure.name with
    | some name => "<fn " ++ name ++ ">"
    | none => "<fn>"
  | .classRef id => h.className id
  | .object id =>
    match h.objects[id]? with
    | some record => h.className record.classId ++ " instance"
    | none => ""
  | .clock => "<native fn>"

/-- The fields of an object in the order of their names; other values have none. -/
def fields (h : Heap) : Value → List (String × Value)
  | .object id =>
    match h.objects[id]? with
    | some record => record.fields.sorted
    | none => []
  | _ => []

end Heap

end TreeWalk
