import TreeWalk.Bindings
import TreeWalk.Report

/-!
# Scopes and the errors of scoping

A scope holds the names that a block, a function or the methods of a class bring
with them. A name is declared before its initial value is known and ready after.

## Implementation notes

The scopes around the methods of a class bind `this` and `super`. No token
declares these names and nothing is demanded of them, so their binding is implicit.
-/

namespace TreeWalk

/-- What a scope knows about a name. -/
inductive Binding
  | implicit
  | declared (site : Token) (ready used : Bool)
  deriving DecidableEq, Inhabited

namespace Binding

/-- Whether a name may be read. -/
def isReady : Binding → Bool
  | implicit => true
  | declared _ ready _ => ready

/-- The binding once the name may be read. -/
def settled : Binding → Binding
  | implicit => implicit
  | declared site _ used => declared site true used

/-- The binding once the name was read. -/
def read : Binding → Binding
  | implicit => implicit
  | declared site ready _ => declared site ready true

end Binding

/-- The names of one scope. -/
abbrev Scope : Type := Bindings Binding

/-- Why a program is not well scoped. -/
inductive ScopeCause
  | redeclared
  | readInOwnInitializer
  | neverUsed
  | conflictsWithParameter
  | returnAtTopLevel
  | valueFromInitializer
  | thisOutsideClass
  | superOutsideClass
  | superWithoutSuperclass
  | inheritsFromItself
  deriving DecidableEq

/-- A violation of the scope rules at a token. -/
structure ScopeError where
  cause : ScopeCause
  token : Token
  deriving DecidableEq

/-- The message for a violation; `name` is the text of the token it is found at. -/
def ScopeCause.message (name : String) : ScopeCause → String
  | .redeclared => "Already a variable with this name `" ++ name ++ "` in this scope."
  | .readInOwnInitializer => "Can't read local variable in its own initializer."
  | .neverUsed => "Local variable `" ++ name ++ "` is declared but never used."
  | .conflictsWithParameter => "Local variable `" ++ name ++ "` conflicts with parameter."
  | .returnAtTopLevel => "Can't return from top-level code."
  | .valueFromInitializer => "Can't return a value from an initializer."
  | .thisOutsideClass => "Can't use 'this' outside of a class."
  | .superOutsideClass => "Can't use 'super' outside of a class."
  | .superWithoutSuperclass => "Can't use 'super' in a class with no superclass."
  | .inheritsFromItself => "A class can't inherit from itself."

/-- What the user is told about a violation of the scope rules. -/
def ScopeError.report (e : ScopeError) : Report :=
  .atToken .scoping (e.cause.message e.token.lexeme) e.token

namespace Scope

/-- The first fault of a scope that is about to close, in the order of declaration: a
name that a parameter has too, or one that was never read. -/
def fault? (locals parameters : Scope) : Option ScopeError :=
  locals.entries.findSome? fun entry =>
    match entry.2 with
    | .implicit => none
    | .declared site _ used =>
      if parameters.contains entry.1 then some ⟨.conflictsWithParameter, site⟩
      else if used then none
      else some ⟨.neverUsed, site⟩

/-- The scope that binds one implicit name. -/
def ofImplicit (name : String) : Scope := Bindings.empty.put name .implicit

end Scope

end TreeWalk
