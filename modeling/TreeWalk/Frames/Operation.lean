import TreeWalk.Frames.Access

/-!
# Operations on frames

What may be done with frames, one operation after another, and what each operation gives.
One that fails leaves the frames as they were.
-/

namespace TreeWalk.Frames

variable {α : Type}

/-- What may be done with frames. -/
inductive Operation (α : Type)
  | make (parent : Option FrameId)
  | define (frame : FrameId) (name : String) (value : α)
  | assign (frame : FrameId) (name : Token) (value : α)
  | assignAt (frame : FrameId) (distance : Nat) (name : Token) (value : α)
  | get (frame : FrameId) (name : Token)
  | getAt (frame : FrameId) (distance : Nat) (name : Token)
  | ancestor (frame : FrameId) (distance : Nat)

/-- What an operation gives. -/
inductive Result (α : Type)
  | nothing
  | frame (i : FrameId)
  | value (a : α)
  deriving DecidableEq

/-- What a change gives once it is made; a change that fails is not made. -/
def changed (fs : Frames α) (result : Result α) :
    Except Stop (Frames α) → Except Stop (Result α) × Frames α
  | .ok after => (.ok result, after)
  | .error stop => (.error stop, fs)

/-- Carry out an operation. -/
def perform (fs : Frames α) : Operation α → Except Stop (Result α) × Frames α
  | .make parent => (.ok (.frame fs.size), fs.push parent)
  | .define frame name value => (.ok .nothing, fs.define frame name value)
  | .assign frame name value => fs.changed .nothing (fs.write frame name value)
  | .assignAt frame distance name value =>
    fs.changed (.value value) (fs.writeAt frame distance name value)
  | .get frame name => ((fs.read frame name).map .value, fs)
  | .getAt frame distance name => ((fs.readAt frame distance name).map .value, fs)
  | .ancestor frame distance => ((fs.ancestor frame distance).map .frame, fs)

end TreeWalk.Frames
