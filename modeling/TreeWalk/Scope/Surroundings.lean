import TreeWalk.Scope
import TreeWalk.Tree

/-!
# The surroundings of a place in a program

What the scope rules need to know at a place of a program, and the elementary steps of
a walk that keeps track of it: entering scopes, functions and classes, declaring names
and locating their uses.

## Implementation notes

A function is two scopes, its parameters and its body; the methods of a class stand in
one that binds `this`, and outside of it in one that binds `super` if there is a
superclass. Names declared outside every scope are global and are not tracked. The uses
found so far are kept also when a rule is violated, and scopes and contexts are left in
every case.
-/

namespace TreeWalk

/-- The function around a place of a program. -/
inductive FunctionContext
  | outside
  | function
  | method
  | initializer
  deriving DecidableEq, Inhabited

/-- The class around a place of a program. -/
inductive ClassContext
  | outside
  | base
  | derived
  deriving DecidableEq, Inhabited

/-- The ways of using a name. -/
inductive Use
  | variable
  | assign
  | this
  | super
  deriving DecidableEq, Inhabited

/-- A use of a local name with its distance from the declaring scope. -/
structure Located where
  use : Use
  name : Token
  distance : Nat
  deriving DecidableEq, Inhabited

/-- What is known at a place of a program: the scopes around it, innermost first, the
function and class it is in, and the local uses found before it. -/
structure Surroundings where
  scopes : List Scope
  functionContext : FunctionContext
  classContext : ClassContext
  found : Array Located
  deriving Inhabited

namespace Surroundings

/-- The state outside every scope, before any use. -/
def initial : Surroundings := ⟨[], .outside, .outside, #[]⟩

/-- The distance of the nearest scope that declares a name. -/
def distance? (place : Surroundings) (name : String) : Option Nat :=
  place.scopes.findIdx? (fun scope => scope.contains name)

/-- Change what the scope at a distance knows about a name. -/
def modifyAt (place : Surroundings) (distance : Nat) (name : String) (f : Binding → Binding) :
    Surroundings :=
  { place with scopes := place.scopes.modify distance (fun scope => scope.modify name f) }

end Surroundings

/-- A step of the walk. -/
abbrev Resolve (α : Type) : Type := EStateM ScopeError Surroundings α

namespace Resolve

variable {α : Type}

/-- What a walk gives, and the surroundings where it stopped. -/
def walk (act : Resolve α) (place : Surroundings) : Except ScopeError α × Surroundings :=
  match act place with
  | .ok a after => (.ok a, after)
  | .error e after => (.error e, after)

/-- Stop for a violation of a scope rule at a token. -/
def fail (cause : ScopeCause) (token : Token) : Resolve α :=
  throw ⟨cause, token⟩

/-- Walk inside a new scope that starts with some names. -/
def inScope (scope : Scope) (act : Resolve α) : Resolve α := fun place =>
  match act { place with scopes := scope :: place.scopes } with
  | .ok a after => .ok a { after with scopes := after.scopes.tail }
  | .error e after => .error e { after with scopes := after.scopes.tail }

/-- Walk inside a function. -/
def inFunction (context : FunctionContext) (act : Resolve α) : Resolve α := fun place =>
  match act { place with functionContext := context } with
  | .ok a after => .ok a { after with functionContext := place.functionContext }
  | .error e after => .error e { after with functionContext := place.functionContext }

/-- Walk inside a class. -/
def inClass (context : ClassContext) (act : Resolve α) : Resolve α := fun place =>
  match act { place with classContext := context } with
  | .ok a after => .ok a { after with classContext := place.classContext }
  | .error e after => .error e { after with classContext := place.classContext }

/-- Declare a name in the innermost scope, if there is one. -/
def declare (name : Token) : Resolve Unit := do
  match (← get).scopes with
  | [] => return ()
  | scope :: outer =>
    if scope.contains name.lexeme then fail .redeclared name
    else
      let binding := Binding.declared name false false
      modify fun place => { place with scopes := scope.put name.lexeme binding :: outer }

/-- Make a name of the innermost scope ready. -/
def settle (name : Token) : Resolve Unit :=
  modify fun place => place.modifyAt 0 name.lexeme Binding.settled

/-- Declare a name that is ready at once. -/
def declareReady (name : Token) : Resolve Unit := do
  declare name
  settle name

/-- A name may not be read while its own initial value is computed. -/
def checkReady (name : Token) : Resolve Unit := do
  match (← get).scopes with
  | [] => return ()
  | scope :: _ =>
    match scope.get? name.lexeme with
    | some binding => unless binding.isReady do fail .readInOwnInitializer name
    | none => return ()

/-- The reference with its distance, if a scope declares its name. Every use but an
assignment reads the name. -/
def locate (use : Use) (reference : Reference) : Resolve Reference := do
  let name := reference.name
  match (← get).distance? name.lexeme with
  | none => return ⟨name, none⟩
  | some distance =>
    modify fun place =>
      let located : Located := ⟨use, name, distance⟩
      let noted := { place with found := place.found.push located }
      if use = .assign then noted else noted.modifyAt distance name.lexeme Binding.read
    return ⟨name, some distance⟩

/-- A reference to a variable that is read. -/
def readVariable (reference : Reference) : Resolve Reference := do
  checkReady reference.name
  locate .variable reference

/-- Check the innermost scope before it closes. Inside a function every local name is
read somewhere; outside of functions blocks are not checked. -/
def checkBlock : Resolve Unit := do
  let place ← get
  match place.scopes with
  | [] => return ()
  | locals :: _ =>
    if place.functionContext = .outside then return ()
    else if let some e := Scope.fault? locals .empty then throw e

/-- Check the body of a function before it closes: every local name is read somewhere
and differs from the parameters. -/
def checkBody : Resolve Unit := do
  match (← get).scopes with
  | locals :: parameters :: _ =>
    if let some e := Scope.fault? locals parameters then throw e
  | _ => return ()

/-- A function: its parameters are a scope around that of its body. -/
def routine (context : FunctionContext) (params : List Token) (body : Resolve α) :
    Resolve α :=
  inFunction context <| inScope .empty do
    params.forM declareReady
    inScope .empty do
      let a ← body
      checkBody
      return a

/-- The scopes around the methods of a class. -/
def inClassScopes (hasSuperclass : Bool) (act : Resolve α) : Resolve α :=
  let inner := inScope (Scope.ofImplicit "this") act
  if hasSuperclass then inScope (Scope.ofImplicit "super") inner else inner

/-- The superclass of a class, which has to be another one. -/
def superclass (name : Token) : Option Reference → Resolve (Option Reference)
  | none => return none
  | some reference => do
    if name.lexeme = reference.name.lexeme then fail .inheritsFromItself reference.name
    else return some (← readVariable reference)

/-- A return is inside a function, and inside an initializer it has no value. -/
def checkReturn (keyword : Token) (hasValue : Bool) : Resolve Unit := do
  let context := (← get).functionContext
  if context = .outside then fail .returnAtTopLevel keyword
  else if hasValue && context = .initializer then fail .valueFromInitializer keyword

/-- A use of `this` is inside a class. -/
def checkThis (keyword : Token) : Resolve Unit := do
  if (← get).classContext = .outside then fail .thisOutsideClass keyword

/-- A use of `super` is inside a class with a superclass. -/
def checkSuper (keyword : Token) : Resolve Unit := do
  match (← get).classContext with
  | .outside => fail .superOutsideClass keyword
  | .base => fail .superWithoutSuperclass keyword
  | .derived => return ()

end Resolve

end TreeWalk
