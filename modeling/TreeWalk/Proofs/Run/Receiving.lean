import TreeWalk.Proofs.Run.Aiming
import TreeWalk.Proofs.Run.Calling
import TreeWalk.Proofs.Run.Links

/-!
# Initializers that are bound

Every closure that is a value and counts as an initializer was bound: its own frame binds `this`,
to an object. What a class has in its table is not bound, but it never leaves the table without
being bound. All this is kept by the elementary steps of a run, whatever trees are run, and no
step changes what a frame binds to `this` or the class of an object.

## Implementation notes

Binding a method makes a frame and binds `this` in it. In between the frame does not bind `this`
yet, so these two are taken as one step.
-/

namespace TreeWalk

open Eval

namespace Frames

variable {fs fs' : Frames Value} {i j p : FrameId}

/-- How far outward the nearest frame lies that binds `this`. -/
def thisDepth (fs : Frames Value) (i : FrameId) : Option Nat :=
  (fs.chain i).findIdx? fun j => (fs.local? j "this").isSome

theorem findIdx?_congr {α : Type} {p q : α → Bool} {items : List α}
    (same : ∀ a ∈ items, p a = q a) : items.findIdx? p = items.findIdx? q := by
  induction items with
  | nil => rfl
  | cons a rest ih =>
      have others := ih fun b among => same b (List.mem_cons_of_mem _ among)
      rw [List.findIdx?_cons, List.findIdx?_cons, same a List.mem_cons_self, others]

theorem Keeps.thisDepth_eq (keeps : fs.Keeps fs') (inside : i < fs.size) :
    fs'.thisDepth i = fs.thisDepth i := by
  rw [thisDepth, thisDepth, keeps.chain_eq inside]
  exact findIdx?_congr fun j among => by
    rw [keeps.local?_eq_of_mem inside not_isPlainName_this among]

/-- A frame that does not bind `this` is one further from it than the one around it. -/
theorem thisDepth_inner (link : fs.parent? i = some p) (smaller : p < i)
    (unbound : fs.local? i "this" = none) : fs.thisDepth i = (fs.thisDepth p).map (· + 1) := by
  rw [thisDepth, chain_of_some link smaller, List.findIdx?_cons, unbound]
  rfl

theorem thisDepth_bound {value : Value} (bound : fs.local? i "this" = some value) :
    fs.thisDepth i = some 0 := by
  obtain ⟨rest, cut⟩ := chain_head fs i
  rw [thisDepth, cut, List.findIdx?_cons, bound]
  rfl

theorem thisDepth_push (inside : p < fs.size) :
    (fs.push (some p)).thisDepth fs.size = (fs.thisDepth p).map (· + 1) := by
  rw [← (Keeps.push (some p) : fs.Keeps _).thisDepth_eq inside]
  refine thisDepth_inner ?_ inside ?_
  · rw [parent?_push, if_pos rfl]
  · rw [local?_push, if_pos rfl]

/-- The frame at the depth of `this` binds what is the nearest `this`. -/
theorem local?_of_thisDepth {near : Nat} (depth : fs.thisDepth i = some near)
    (link : fs.ancestor? i near = some j) : fs.local? j "this" = fs.get? i "this" := by
  have general : ∀ items : List FrameId,
      items.findIdx? (fun k => (fs.local? k "this").isSome) = some near → items[near]? = some j →
      fs.local? j "this" = items.findSome? fun k => fs.local? k "this" := by
    intro items found
    clear depth link
    induction items generalizing near with
    | nil => cases found
    | cons k rest ih =>
        intro link
        rw [List.findIdx?_cons] at found
        rw [List.findSome?_cons]
        cases bound : fs.local? k "this" with
        | some value =>
            simp only [bound, Option.isSome_some, if_true, Option.some.injEq] at found
            subst found
            cases link
            exact bound
        | none =>
            simp only [bound, Option.isSome_none, Bool.false_eq_true, if_false] at found
            obtain ⟨before, earlier, rfl⟩ := Option.map_eq_some_iff.1 found
            exact ih earlier link
  exact general _ depth link

end Frames

theorem getElem?_push_of_some {α : Type} {xs : Array α} {i : Nat} {a b : α}
    (found : xs[i]? = some a) : (xs.push b)[i]? = some a := by
  have inside := (Array.getElem?_eq_some_iff.1 found).1
  rw [Array.getElem?_push, if_neg (Nat.ne_of_lt inside), found]

/-- A function that aims at the depth of the frame it is made in. -/
structure Closure.AimsFrom (closure : Closure) (depth : Option Nat) : Prop where
  params : ∀ param ∈ closure.params, param.IsPlain
  body : Stmt.AllAim (depth.map (· + 2)) closure.body

namespace Heap

variable {h h' h'' : Heap}

/-- Everything is there as before, but for the names of frames and the fields of objects. What
frames bind to `this` stays, too. -/
structure Retains (h h' : Heap) : Prop where
  frames : h.frames.Keeps h'.frames
  closures : ∀ {id : ClosureId} {closure}, h.closures[id]? = some closure →
    h'.closures[id]? = some closure
  classes : ∀ {c : ClassId} {record}, h.classes[c]? = some record → h'.classes[c]? = some record
  objects : ∀ {o : ObjectId} {c : ClassId}, (∃ fields, h.objects[o]? = some ⟨c, fields⟩) →
    ∃ fields, h'.objects[o]? = some ⟨c, fields⟩

namespace Retains

theorem refl (h : Heap) : h.Retains h := ⟨.refl, id, id, id⟩

theorem trans (one : h.Retains h') (other : h'.Retains h'') : h.Retains h'' where
  frames := one.frames.trans other.frames
  closures found := other.closures (one.closures found)
  classes found := other.classes (one.classes found)
  objects found := other.objects (one.objects found)

theorem ofFrames {fs : Frames Value} (keeps : h.frames.Keeps fs) :
    h.Retains { h with frames := fs } := ⟨keeps, id, id, id⟩

theorem pushClosure (closure : Closure) :
    h.Retains { h with closures := h.closures.push closure } :=
  ⟨.refl, getElem?_push_of_some, id, id⟩

theorem pushClass (record : ClassRecord) :
    h.Retains { h with classes := h.classes.push record } :=
  ⟨.refl, id, getElem?_push_of_some, id⟩

theorem pushObject (record : ObjectRecord) :
    h.Retains { h with objects := h.objects.push record } :=
  ⟨.refl, id, id, fun ⟨fields, found⟩ => ⟨fields, getElem?_push_of_some found⟩⟩

theorem setField (id : ObjectId) (x : String) (v : Value) : h.Retains (h.setField id x v) where
  frames := .refl
  closures found := found
  classes found := found
  objects := by
    rintro o c ⟨fields, found⟩
    rw [Heap.setField, Array.getElem?_modify]
    split
    next => exact ⟨fields.put x v, by rw [found]; rfl⟩
    next => exact ⟨fields, found⟩

end Retains

/-- A closure that may be entered: it aims where its frame is, and if it is an initializer its
frame binds `this` to an object. -/
structure CanRun (h : Heap) (closure : Closure) : Prop where
  inside : closure.frame < h.frames.size
  receiver : closure.isInitializer = true →
    ∃ o, h.frames.local? closure.frame "this" = some (.object o)
  aims : closure.AimsFrom (h.frames.thisDepth closure.frame)

/-- A closure in the table of a class under a name: it aims where it will be once it is bound. -/
structure IsMethod (h : Heap) (name : String) (closure : Closure) : Prop where
  inside : closure.frame < h.frames.size
  flagged : closure.isInitializer = decide (name = "init")
  aims : closure.AimsFrom (some 0)

/-- A value that may be called if it is a closure. -/
def Ready (h : Heap) : Value → Prop
  | .closure id => ∃ closure, h.closures[id]? = some closure ∧ h.CanRun closure
  | .scalar _ | .classRef _ | .object _ | .clock => True

/-- All that a heap holds as a value may be called, receivers are objects, and what is not
bound stands in the tables of classes. -/
structure Bound (h : Heap) : Prop where
  receivers : ∀ {i v}, h.frames.local? i "this" = some v → ∃ o, v = .object o
  locals : ∀ {i x v}, h.frames.local? i x = some v → h.Ready v
  fields : ∀ {o : ObjectId} {record x v}, h.objects[o]? = some record →
    record.fields.get? x = some v → h.Ready v
  methods : ∀ {c : ClassId} {record name method}, h.classes[c]? = some record →
    record.methods.get? name = some method →
    ∃ closure, h.closures[method]? = some closure ∧ h.IsMethod name closure

theorem CanRun.later {closure : Closure} (run : h.CanRun closure) (retains : h.Retains h') :
    h'.CanRun closure where
  inside := Nat.lt_of_lt_of_le run.inside retains.frames.size
  receiver initializer := by
    rw [retains.frames.implicit _ run.inside _ not_isPlainName_this]
    exact run.receiver initializer
  aims := by
    rw [retains.frames.thisDepth_eq run.inside]
    exact run.aims

theorem IsMethod.later {name : String} {closure : Closure} (method : h.IsMethod name closure)
    (retains : h.Retains h') : h'.IsMethod name closure :=
  ⟨Nat.lt_of_lt_of_le method.inside retains.frames.size, method.flagged, method.aims⟩

theorem Ready.later {v : Value} (ready : h.Ready v) (retains : h.Retains h') : h'.Ready v := by
  cases v with
  | closure id =>
      obtain ⟨closure, found, run⟩ := ready
      exact ⟨closure, retains.closures found, run.later retains⟩
  | scalar | classRef | object | clock => trivial

namespace Bound

/-- A heap that goes on from a bound one is bound if what is new on it is. -/
theorem later (bound : h.Bound) (retains : h.Retains h')
    (locals : ∀ {i x v}, h'.frames.local? i x = some v →
      h.frames.local? i x = some v ∨ h'.Ready v ∧ (x = "this" → ∃ o, v = .object o))
    (fields : ∀ {o : ObjectId} {record x v}, h'.objects[o]? = some record →
      record.fields.get? x = some v →
      (∃ before : ObjectRecord, h.objects[o]? = some before ∧ before.fields.get? x = some v) ∨
        h'.Ready v)
    (methods : ∀ {c : ClassId} {record name method}, h'.classes[c]? = some record →
      record.methods.get? name = some method →
      h.classes[c]? = some record ∨
        ∃ closure, h'.closures[method]? = some closure ∧ h'.IsMethod name closure) :
    h'.Bound where
  receivers found := by
    obtain old | ⟨-, object⟩ := locals found
    · exact bound.receivers old
    · exact object rfl
  locals found := by
    obtain old | ⟨ready, -⟩ := locals found
    · exact (bound.locals old).later retains
    · exact ready
  fields found held := by
    obtain ⟨before, old, held⟩ | ready := fields found held
    · exact (bound.fields old held).later retains
    · exact ready
  methods found declared := by
    obtain old | new := methods found declared
    · obtain ⟨closure, made, method⟩ := bound.methods old declared
      exact ⟨closure, retains.closures made, method.later retains⟩
    · exact new

/-- A heap in which only the frames change. -/
theorem ofFrames {fs : Frames Value} (bound : h.Bound) (keeps : h.frames.Keeps fs)
    (locals : ∀ {i x v}, fs.local? i x = some v →
      h.frames.local? i x = some v ∨ h.Ready v ∧ (x = "this" → ∃ o, v = .object o)) :
    Bound { h with frames := fs } := by
  have retains : h.Retains { h with frames := fs } := .ofFrames keeps
  apply bound.later retains
  · intro i x v found
    exact (locals found).imp id fun ⟨ready, object⟩ => ⟨ready.later retains, object⟩
  · exact fun found held => .inl ⟨_, found, held⟩
  · exact fun found _ => .inl found

theorem push (bound : h.Bound) (parent : Option FrameId) :
    Bound { h with frames := h.frames.push parent } := by
  apply bound.ofFrames (.push parent)
  intro i x v found
  rw [Frames.local?_push] at found
  split at found
  · cases found
  · exact .inl found

theorem define {i : FrameId} {x : String} {v : Value} (bound : h.Bound) (plain : IsPlainName x)
    (ready : h.Ready v) : Bound { h with frames := h.frames.define i x v } := by
  apply bound.ofFrames (.define v plain)
  intro j y w found
  by_cases inside : i < h.frames.size
  · rw [Frames.local?_define _ _ _ _ _ _ inside] at found
    split at found
    next same =>
      cases found
      exact .inr ⟨ready, fun this => absurd (same.2.symm.trans this) plain.1⟩
    next => exact .inl found
  · rw [Frames.define_outside inside] at found
    exact .inl found

/-- A frame that is made with a name. -/
theorem pushWith {x : String} {v : Value} (bound : h.Bound) (parent : Option FrameId)
    (ready : h.Ready v) (object : x = "this" → ∃ o, v = .object o) :
    Bound { h with frames := (h.frames.push parent).define h.frames.size x v } := by
  apply bound.ofFrames (.pushWith parent v)
  intro i y w found
  rw [Frames.local?_define _ _ _ _ _ _ (by simp)] at found
  split at found
  next same =>
    cases found
    exact .inr ⟨ready, fun this => object (same.2.symm.trans this)⟩
  next =>
    rw [Frames.local?_push] at found
    split at found
    · cases found
    · exact .inl found

theorem pushClosure (bound : h.Bound) (closure : Closure) :
    Bound { h with closures := h.closures.push closure } :=
  bound.later (.pushClosure closure) .inl (fun found held => .inl ⟨_, found, held⟩)
    fun found _ => .inl found

theorem pushClass {record : ClassRecord} (bound : h.Bound)
    (methods : ∀ {name method}, record.methods.get? name = some method →
      ∃ closure, h.closures[method]? = some closure ∧ h.IsMethod name closure) :
    Bound { h with classes := h.classes.push record } := by
  have retains : h.Retains { h with classes := h.classes.push record } := .pushClass record
  apply bound.later retains .inl (fun found held => .inl ⟨_, found, held⟩)
  intro c other name method found declared
  obtain old | ⟨-, rfl⟩ := some_of_push found
  · exact .inl old
  · obtain ⟨closure, made, isMethod⟩ := methods declared
    exact .inr ⟨closure, made, isMethod.later retains⟩

theorem pushObject (bound : h.Bound) (c : ClassId) :
    Bound { h with objects := h.objects.push ⟨c, .empty⟩ } := by
  apply bound.later (.pushObject _) .inl ?_ fun found _ => .inl found
  intro o record x v found held
  obtain old | ⟨-, rfl⟩ := some_of_push found
  · exact .inl ⟨_, old, held⟩
  · cases held

theorem setField {v : Value} (bound : h.Bound) (ready : h.Ready v) (id : ObjectId) (x : String) :
    (h.setField id x v).Bound := by
  have retains : h.Retains (h.setField id x v) := .setField id x v
  apply bound.later retains .inl ?_ fun found _ => .inl found
  intro o record y w found held
  simp only [Heap.setField, Array.getElem?_modify] at found
  split at found
  next =>
    obtain ⟨before, old, rfl⟩ := Option.map_eq_some_iff.1 found
    rw [Bindings.get?_put] at held
    split at held
    · cases held
      exact .inr (ready.later retains)
    · exact .inl ⟨before, old, held⟩
  next => exact .inl ⟨record, found, held⟩

end Bound

end Heap

end TreeWalk
