import TreeWalk.Frames
import TreeWalk.Stop

/-!
# Reading and changing variables by their tokens

A variable is looked up from a frame outward, or from the frame at a distance. A
name that is nowhere bound is a runtime error at its token; a distance that leads
past the outermost frame is a fault.
-/

namespace TreeWalk.Frames

variable {α : Type}

/-- The value of a variable, looked up from a frame outward. -/
def read (fs : Frames α) (i : FrameId) (name : Token) : Except Stop α :=
  match fs.get? i name.lexeme with
  | some value => .ok value
  | none => .error (.error ⟨.undefinedVariable, name⟩)

/-- The frame in which a variable changes, looked up from a frame outward. -/
def target (fs : Frames α) (i : FrameId) (name : Token) : Except Stop FrameId :=
  match fs.owner? i name.lexeme with
  | some j => .ok j
  | none => .error (.error ⟨.undefinedVariable, name⟩)

/-- Change a variable, looked up from a frame outward. -/
def write (fs : Frames α) (i : FrameId) (name : Token) (value : α) : Except Stop (Frames α) := do
  return fs.define (← fs.target i name) name.lexeme value

/-- The frame that lies some links outward. -/
def ancestor (fs : Frames α) (i : FrameId) (distance : Nat) : Except Stop FrameId :=
  match fs.ancestor? i distance with
  | some j => .ok j
  | none => .error (.fault (.noFrame distance))

/-- The value of a variable, looked up from the frame at a distance outward. -/
def readAt (fs : Frames α) (i : FrameId) (distance : Nat) (name : Token) : Except Stop α := do
  fs.read (← fs.ancestor i distance) name

/-- The frame in which a variable changes, looked up from the frame at a distance
outward. -/
def targetAt (fs : Frames α) (i : FrameId) (distance : Nat) (name : Token) :
    Except Stop FrameId := do
  fs.target (← fs.ancestor i distance) name

/-- Change a variable, looked up from the frame at a distance outward. -/
def writeAt (fs : Frames α) (i : FrameId) (distance : Nat) (name : Token) (value : α) :
    Except Stop (Frames α) := do
  return fs.define (← fs.targetAt i distance name) name.lexeme value

end TreeWalk.Frames
