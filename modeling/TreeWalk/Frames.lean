import TreeWalk.Bindings

/-!
# Frames

A frame holds the variables of one run of a block, a call or the top level, and
points at the frame around it. Frames are shared: whoever holds the number of a
frame sees the same variables.

## Implementation notes

Frames are numbered in the order in which they are made, so the frame around a frame
has a smaller number. That is why following the links outward ends.
-/

namespace TreeWalk

/-- The number of a frame. -/
abbrev FrameId : Type := Nat

/-- Variables and the frame around them. -/
structure Frame (α : Type) where
  bindings : Bindings α
  parent : Option FrameId

/-- All frames made so far. -/
structure Frames (α : Type) where
  all : Array (Frame α)

namespace Frames

variable {α : Type}

/-- No frames. -/
def empty : Frames α := ⟨#[]⟩

instance : Inhabited (Frames α) := ⟨empty⟩

/-- The number that the next frame gets. -/
def size (fs : Frames α) : FrameId := fs.all.size

/-- Add a frame without variables. -/
def push (fs : Frames α) (parent : Option FrameId) : Frames α :=
  ⟨fs.all.push ⟨.empty, parent⟩⟩

/-- The frame around a frame. -/
def parent? (fs : Frames α) (i : FrameId) : Option FrameId :=
  fs.all[i]?.bind Frame.parent

/-- The frames from one outward. -/
def chain (fs : Frames α) (i : FrameId) : List FrameId :=
  match fs.parent? i with
  | none => [i]
  | some p => if p < i then i :: fs.chain p else [i]
termination_by i

/-- The value of a name in one frame, whatever is around it. -/
def local? (fs : Frames α) (i : FrameId) (name : String) : Option α :=
  fs.all[i]?.bind fun frame => frame.bindings.get? name

/-- Bind a name in one frame, whatever it was bound to. -/
def define (fs : Frames α) (i : FrameId) (name : String) (value : α) : Frames α :=
  ⟨fs.all.modify i fun frame => { frame with bindings := frame.bindings.put name value }⟩

/-- The nearest frame outward that binds a name. -/
def owner? (fs : Frames α) (i : FrameId) (name : String) : Option FrameId :=
  (fs.chain i).find? fun j => (fs.local? j name).isSome

/-- The value of a name in the nearest frame outward that binds it. -/
def get? (fs : Frames α) (i : FrameId) (name : String) : Option α :=
  (fs.chain i).findSome? fun j => fs.local? j name

/-- The frame that lies some links outward. -/
def ancestor? (fs : Frames α) (i : FrameId) (distance : Nat) : Option FrameId :=
  (fs.chain i)[distance]?

@[simp] theorem size_push (fs : Frames α) (parent : Option FrameId) :
    (fs.push parent).size = fs.size + 1 := by
  simp [push, size]

@[simp] theorem size_define (fs : Frames α) (i : FrameId) (name : String) (value : α) :
    (fs.define i name value).size = fs.size := by
  simp [define, size]

/-- A new frame leaves the links of the others alone. -/
theorem parent?_push (fs : Frames α) (parent : Option FrameId) (i : FrameId) :
    (fs.push parent).parent? i = if i = fs.size then parent else fs.parent? i := by
  by_cases h : i = fs.all.size
  · simp [push, parent?, size, h]
  · simp [push, parent?, size, Array.getElem?_push, h]

/-- A new frame is without variables and leaves those of the others alone. -/
theorem local?_push (fs : Frames α) (parent : Option FrameId) (i : FrameId) (name : String) :
    (fs.push parent).local? i name = if i = fs.size then none else fs.local? i name := by
  by_cases h : i = fs.all.size
  · simp [push, local?, size, h]
  · simp [push, local?, size, Array.getElem?_push, h]

/-- Defining a variable moves no links. -/
@[simp] theorem parent?_define (fs : Frames α) (i j : FrameId) (name : String) (value : α) :
    (fs.define i name value).parent? j = fs.parent? j := by
  simp only [define, parent?, Array.getElem?_modify]
  split <;> cases fs.all[j]? <;> rfl

/-- Defining a variable changes one name of one frame. -/
theorem local?_define (fs : Frames α) (i j : FrameId) (name other : String) (value : α)
    (inside : i < fs.size) :
    (fs.define i name value).local? j other =
      if j = i ∧ other = name then some value else fs.local? j other := by
  simp only [define, local?, Array.getElem?_modify]
  grind [Frames.size, Bindings.get?_put]

end Frames

end TreeWalk
