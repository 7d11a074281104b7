import TreeWalk.Proofs.Loops.Erasing
import TreeWalk.Proofs.Counterparts.Machines
import TreeWalk.Proofs.Run.Evaluating
import TreeWalk.Proofs.Run.Links

/-!
# Machines without the frames of passes

Stripping a machine leaves out the frames of passes and thins the bodies of its closures.
Closures, classes and objects keep their numbers, and so values are the same on both sides.

## Implementation notes

The body of a method that is not bound yet is thinned as it will be seen from the frame that
binds it. That is why the erasure knows which closures are such methods, and no value is one.
-/

namespace TreeWalk

/-- The shape around a function, from that of its frame. There is one more frame around a method
that is yet to be bound. -/
def Shape.around (isMethod : Bool) (shape : Shape) : Shape :=
  if isMethod then false :: shape else shape

namespace Erasure

variable {E E' E'' : Erasure} {m m' m'' d : Machine}

/-- A closure whose body is thinned. -/
def strip (E : Erasure) (fs : Frames Value) (isMethod : Bool) (closure : Closure) : Closure :=
  { closure with
    body := Stmt.thinEach ((E.shape fs closure.frame).around isMethod).inRoutine closure.body
    frame := E.place closure.frame }

/-- The erasure with a further closure. -/
def withClosure (E : Erasure) (id : ClosureId) (isMethod : Bool) : Erasure :=
  { E with isMethod := Function.update E.isMethod id isMethod }

theorem isMethod_new (E : Erasure) {id : ClosureId} {isMethod : Bool} :
    (E.withClosure id isMethod).isMethod id = isMethod :=
  Function.update_self ..

theorem isMethod_old (E : Erasure) {id other : ClosureId} {isMethod : Bool} (apart : other ≠ id) :
    (E.withClosure id isMethod).isMethod other = E.isMethod other :=
  Function.update_of_ne apart ..

/-- A value that is no method which is yet to be bound. -/
def Ready (E : Erasure) (h : Heap) : Value → Prop
  | .closure id => id < h.closures.size ∧ E.isMethod id = false
  | .scalar _ | .classRef _ | .object _ | .clock => True

/-- A heap without the frames of passes. -/
structure Strips (E : Erasure) (h g : Heap) : Prop where
  frames : E.Erases h.frames g.frames
  rooted : Machine.globals < h.frames.size
  globals : E.place Machine.globals = Machine.globals
  size : g.closures.size = h.closures.size
  closures : ∀ id : ClosureId, g.closures[id]? =
    h.closures[id]?.map (E.strip h.frames (E.isMethod id))
  inside : ∀ {id : ClosureId} {closure}, h.closures[id]? = some closure →
    closure.frame < h.frames.size
  classes : g.classes = h.classes
  objects : g.objects = h.objects
  locals : ∀ {i x v}, h.frames.local? i x = some v → E.Ready h v
  fields : ∀ {o : ObjectId} {record x v}, h.objects[o]? = some record →
    record.fields.get? x = some v → E.Ready h v
  methods : ∀ {c : ClassId} {record name method}, h.classes[c]? = some record →
    record.methods.get? name = some method → method < h.closures.size ∧ E.isMethod method = true

/-- A machine without the frames of passes. -/
structure StripsMachine (E : Erasure) (m d : Machine) : Prop where
  heap : E.Strips m.heap d.heap
  inside : m.current < m.heap.frames.size
  current : d.current = E.place m.current
  output : d.output = m.output
  readings : d.readings = m.readings
  taken : d.taken = m.taken

/-- An erasure that goes on from another one, on a heap that goes on from the one before. -/
structure Later (E : Erasure) (h : Heap) (E' : Erasure) (h' : Heap) : Prop where
  size : h.frames.size ≤ h'.frames.size
  parent : ∀ i < h.frames.size, h'.frames.parent? i = h.frames.parent? i
  place : ∀ i < h.frames.size, E'.place i = E.place i
  isPass : ∀ i < h.frames.size, E'.isPass i = E.isPass i
  closures : h.closures.size ≤ h'.closures.size
  isMethod : ∀ id < h.closures.size, E'.isMethod id = E.isMethod id

namespace Later

variable {h h' h'' : Heap}

theorem refl (E : Erasure) (h : Heap) : E.Later h E h :=
  ⟨Nat.le_refl _, fun _ _ => rfl, fun _ _ => rfl, fun _ _ => rfl, Nat.le_refl _, fun _ _ => rfl⟩

theorem trans (one : E.Later h E' h') (other : E'.Later h' E'' h'') : E.Later h E'' h'' where
  size := Nat.le_trans one.size other.size
  parent i inside :=
    (other.parent i (Nat.lt_of_lt_of_le inside one.size)).trans (one.parent i inside)
  place i inside := (other.place i (Nat.lt_of_lt_of_le inside one.size)).trans (one.place i inside)
  isPass i inside :=
    (other.isPass i (Nat.lt_of_lt_of_le inside one.size)).trans (one.isPass i inside)
  closures := Nat.le_trans one.closures other.closures
  isMethod id inside :=
    (other.isMethod id (Nat.lt_of_lt_of_le inside one.closures)).trans (one.isMethod id inside)

theorem shape_eq (later : E.Later h E' h') {i : FrameId} (inside : i < h.frames.size) :
    E'.shape h'.frames i = E.shape h.frames i := by
  rw [shape, shape, Frames.chain_eq later.parent inside]
  exact List.map_congr_left fun j among =>
    later.isPass j (Nat.lt_of_le_of_lt (Frames.le_of_mem_chain among) inside)

theorem strip_eq (later : E.Later h E' h') {isMethod : Bool} {closure : Closure}
    (inside : closure.frame < h.frames.size) :
    E'.strip h'.frames isMethod closure = E.strip h.frames isMethod closure := by
  rw [strip, strip, later.shape_eq inside, later.place _ inside]

/-- Closures stay what they are. -/
theorem knows (later : E.Later h E' h') {id : ClosureId} {isMethod : Bool}
    (known : id < h.closures.size ∧ E.isMethod id = isMethod) :
    id < h'.closures.size ∧ E'.isMethod id = isMethod :=
  ⟨Nat.lt_of_lt_of_le known.1 later.closures, (later.isMethod id known.1).trans known.2⟩

theorem ready (later : E.Later h E' h') {v : Value} (ready : E.Ready h v) : E'.Ready h' v := by
  cases v with
  | closure id => exact later.knows ready
  | scalar | classRef | object | clock => trivial

/-- A heap of which only the frames change. -/
theorem ofFrames {fs : Frames Value} {j : FrameId} {isPass : Bool} (E : Erasure) (h : Heap)
    (size : h.frames.size ≤ fs.size)
    (parent : ∀ i < h.frames.size, fs.parent? i = h.frames.parent? i) :
    E.Later h (E.withFrame h.frames.size j isPass) { h with frames := fs } where
  size := size
  parent := parent
  place _ inside := place_old E (Nat.ne_of_lt inside)
  isPass _ inside := isPass_old E (Nat.ne_of_lt inside)
  closures := Nat.le_refl _
  isMethod _ _ := rfl

/-- A heap with a further closure. -/
theorem ofClosure (E : Erasure) (h : Heap) (closure : Closure) (isMethod : Bool) :
    E.Later h (E.withClosure h.closures.size isMethod)
      { h with closures := h.closures.push closure } where
  size := Nat.le_refl _
  parent _ _ := rfl
  place _ _ := rfl
  isPass _ _ := rfl
  closures := by simp
  isMethod _ inside := isMethod_old E (Nat.ne_of_lt inside)

end Later

namespace Strips

variable {h g : Heap}

theorem closureArity (strips : E.Strips h g) (id : ClosureId) :
    g.closureArity id = h.closureArity id := by
  rw [Heap.closureArity, Heap.closureArity, strips.closures]
  cases h.closures[id]? <;> rfl

theorem method? (strips : E.Strips h g) (c : ClassId) (name : String) :
    g.method? c name = h.method? c name := by
  unfold Heap.method? Heap.ownMethod?
  rw [Heap.lineage_eq strips.classes, strips.classes]

theorem arity? (strips : E.Strips h g) (v : Value) : g.arity? v = h.arity? v := by
  cases v with
  | closure id => exact congrArg some (strips.closureArity id)
  | classRef c =>
      rw [Heap.arity?, Heap.arity?, strips.method? c "init"]
      split
      · exact congrArg some (strips.closureArity _)
      · rfl
  | scalar | object | clock => rfl

theorem text (strips : E.Strips h g) (v : Value) : g.text v = h.text v := by
  cases v with
  | closure id =>
      rw [Heap.text, Heap.text, strips.closures]
      cases h.closures[id]? <;> rfl
  | classRef c => rw [Heap.text, Heap.text, Heap.className, Heap.className, strips.classes]
  | object o =>
      rw [Heap.text, Heap.text, strips.objects]
      unfold Heap.className
      rw [strips.classes]
  | scalar | clock => rfl

theorem isMethod_of_method? (strips : E.Strips h g) {c : ClassId} {name : String}
    {method : ClosureId} (found : h.method? c name = some method) :
    method < h.closures.size ∧ E.isMethod method = true := by
  obtain ⟨d, -, own⟩ := List.exists_of_findSome?_eq_some found
  obtain ⟨record, there, declared⟩ := Option.bind_eq_some_iff.1 own
  exact strips.methods there declared

/-- A stripped heap of which only the frames change. -/
theorem ofFrames {fs gs : Frames Value} (strips : E.Strips h g)
    (later : E.Later h E' { h with frames := fs })
    (frames : E'.Erases fs gs)
    (locals : ∀ {i x v}, fs.local? i x = some v → h.frames.local? i x = some v ∨ E.Ready h v) :
    E'.Strips { h with frames := fs } { g with frames := gs } where
  frames := frames
  rooted := Nat.lt_of_lt_of_le strips.rooted later.size
  globals := (later.place _ strips.rooted).trans strips.globals
  size := strips.size
  closures id := by
    rw [strips.closures]
    cases found : h.closures[id]? with
    | none => rfl
    | some closure =>
        rw [Option.map_some, Option.map_some, later.strip_eq (strips.inside found),
          later.isMethod id (Array.getElem?_eq_some_iff.1 found).1]
  inside found := Nat.lt_of_lt_of_le (strips.inside found) later.size
  classes := strips.classes
  objects := strips.objects
  locals found := by
    obtain old | ready := locals found
    · exact later.ready (strips.locals old)
    · exact later.ready ready
  fields found held := later.ready (strips.fields found held)
  methods found declared := later.knows (strips.methods found declared)

/-- A further closure. -/
theorem pushClosure {closure : Closure} {isMethod : Bool} (strips : E.Strips h g)
    (inside : closure.frame < h.frames.size) :
    (E.withClosure h.closures.size isMethod).Strips
      { h with closures := h.closures.push closure }
      { g with closures := g.closures.push (E.strip h.frames isMethod closure) } where
  frames := { strips.frames with }
  rooted := strips.rooted
  globals := strips.globals
  size := by simp [strips.size]
  closures id := by
    rw [Array.getElem?_push, Array.getElem?_push, strips.size]
    split
    next new => rw [new, Option.map_some, isMethod_new]; rfl
    next other =>
      rw [strips.closures, isMethod_old E other]
      rfl
  inside := by
    intro id old found
    rw [Array.getElem?_push] at found
    split at found
    next =>
      cases found
      exact inside
    next => exact strips.inside found
  classes := strips.classes
  objects := strips.objects
  locals found := (Later.ofClosure E h closure isMethod).ready (strips.locals found)
  fields found held := (Later.ofClosure E h closure isMethod).ready (strips.fields found held)
  methods found declared :=
    (Later.ofClosure E h closure isMethod).knows (strips.methods found declared)

/-- A further class, of which all methods are such. -/
theorem pushClass {record : ClassRecord} (strips : E.Strips h g)
    (methods : ∀ {name method}, record.methods.get? name = some method →
      method < h.closures.size ∧ E.isMethod method = true) :
    E.Strips { h with classes := h.classes.push record }
      { g with classes := g.classes.push record } :=
  { strips with
    frames := strips.frames
    inside := strips.inside
    classes := congrArg (Array.push · record) strips.classes
    locals := strips.locals
    fields := strips.fields
    methods := by
      intro c old name method found declared
      rw [Array.getElem?_push] at found
      split at found
      next =>
        cases found
        exact methods declared
      next => exact strips.methods found declared }

/-- A further object without fields. -/
theorem pushObject (strips : E.Strips h g) (c : ClassId) :
    E.Strips { h with objects := h.objects.push ⟨c, .empty⟩ }
      { g with objects := g.objects.push ⟨c, .empty⟩ } :=
  { strips with
    frames := strips.frames
    inside := strips.inside
    objects := congrArg (Array.push · _) strips.objects
    locals := strips.locals
    methods := strips.methods
    fields := by
      intro o record x v found held
      rw [Array.getElem?_push] at found
      split at found
      next =>
        cases found
        cases held
      next => exact strips.fields found held }

/-- A field that is set. -/
theorem setField {v : Value} (strips : E.Strips h g) (ready : E.Ready h v) (o : ObjectId)
    (x : String) : E.Strips (h.setField o x v) (g.setField o x v) :=
  { strips with
    frames := strips.frames
    inside := strips.inside
    objects := by
      unfold Heap.setField
      rw [strips.objects]
    locals := strips.locals
    methods := strips.methods
    fields := by
      intro o' record y w found held
      rw [Heap.setField, Array.getElem?_modify] at found
      split at found
      next =>
        obtain ⟨old, there, rfl⟩ := Option.map_eq_some_iff.1 found
        rw [Bindings.get?_put] at held
        split at held
        next =>
          cases held
          exact ready
        next => exact strips.fields there held
      next => exact strips.fields found held }

end Strips

end Erasure

end TreeWalk
