import TreeWalk.Proofs.Run.Growth
import TreeWalk.Proofs.Scope.Places

/-!
# Sound heaps

A heap is sound if everything that it holds can be used without a fault: every value
refers to something, and every closure that may be called has a body that was placed
inside of views which the frames around the closure fit.

## Implementation notes

The methods of a class are closures that nobody calls. They are made in a frame that
does not bind `this`, and binding a method makes another closure in a frame that does.
That is why what may be called and what may be bound are told apart.
-/

namespace TreeWalk

variable {W : Spot → Prop} {New New' : FrameId → String → Prop} {P P' P'' : Pending}
  {h h' h'' : Heap}

namespace Heap

/-- Chains keep fitting and everything that was on the heap stays there. -/
structure Carries (New : FrameId → String → Prop) (P : Pending) (h : Heap) (P' : Pending)
    (h' : Heap) : Prop where
  frames : TreeWalk.Carries New P h.frames P' h'.frames
  closures : ∀ {id : ClosureId} {closure}, h.closures[id]? = some closure →
    h'.closures[id]? = some closure
  classes : ∀ {id : ClassId} {record}, h.classes[id]? = some record →
    h'.classes[id]? = some record
  objects : h.objects.size ≤ h'.objects.size

theorem Carries.refl : Carries New P h P h :=
  ⟨.refl, id, id, Nat.le_refl _⟩

theorem Carries.mono (c : Carries New P h P' h') (more : ∀ i x, New i x → New' i x) :
    Carries New' P h P' h' :=
  { c with frames := c.frames.mono more }

theorem Carries.trans_of (c : Carries New P h P' h') (c' : Carries New' P' h' P'' h'')
    (old : ∀ i < h.frames.size, ∀ x, New' i x → New i x) : Carries New P h P'' h'' :=
  ⟨c.frames.trans_of c'.frames old, c'.closures ∘ c.closures, c'.classes ∘ c.classes,
    Nat.le_trans c.objects c'.objects⟩

theorem Carries.trans (c : Carries New P h P' h') (c' : Carries New P' h' P'' h'') :
    Carries New P h P'' h'' :=
  c.trans_of c' fun _ _ _ => id

theorem Carries.weaken (c : Carries New P h P' h')
    (fewer : ∀ i x, (i, x) ∈ P'' → (i, x) ∈ P) : Carries New P'' h P' h' :=
  { c with frames := c.frames.weaken fewer }

theorem Carries.extends (c : Carries New P h P' h') : h.Extends (fun i => ∃ x, New i x) h' where
  size := c.frames.size
  parent := c.frames.parent
  has := c.frames.has
  fresh i inside old x has := (c.frames.fresh i inside x has).resolve_right fun new => old ⟨x, new⟩
  closures := c.closures
  classes := c.classes
  objects := c.objects

/-- All but the frames is there as before on a heap that has grown. -/
theorem Carries.of_extends (frames : TreeWalk.Carries New P h.frames P' h'.frames)
    (grown : h.Grows h') : Carries New P h P' h' :=
  ⟨frames, grown.closures, grown.classes, grown.objects⟩

/-- What changes in nothing but the frames. -/
theorem Carries.ofFrames {fs : Frames Value} (c : TreeWalk.Carries New P h.frames P' fs) :
    Carries New P h P' { h with frames := fs } :=
  ⟨c, id, id, Nat.le_refl _⟩

/-- A closure that may be called: its body is placed inside of views that the chain of its
frame fits, and what it is bound to if it is an initializer is there. -/
def Callable (W : Spot → Prop) (P : Pending) (h : Heap) (closure : Closure) : Prop :=
  (∃ views, PlacedRoutine W views closure.params closure.body ∧
    Fits P h.frames views closure.frame) ∧
  (closure.isInitializer = true → h.frames.Has closure.frame "this")

/-- A closure that may be bound: its body is placed inside of a view that binds `this`. -/
def Bindable (W : Spot → Prop) (P : Pending) (h : Heap) (closure : Closure) : Prop :=
  ∃ views, PlacedRoutine W ((Scope.ofImplicit "this").view :: views) closure.params closure.body ∧
    Fits P h.frames views closure.frame

/-- A value that refers to something, which may be called if it is a closure. -/
def Valid (W : Spot → Prop) (P : Pending) (h : Heap) : Value → Prop
  | .closure id => ∃ closure, h.closures[id]? = some closure ∧ Callable W P h closure
  | .classRef id => id < h.classes.size
  | .object id => id < h.objects.size
  | .scalar _ | .clock => True

/-- Everything that a heap holds can be used. -/
structure Sound (W : Spot → Prop) (P : Pending) (h : Heap) : Prop where
  nonempty : 0 < h.frames.size
  rooted : h.frames.parent? Machine.globals = none
  locals : ∀ {i x v}, h.frames.local? i x = some v → Valid W P h v
  supers : ∀ {i v}, h.frames.local? i "super" = some v → ∃ id, v = .classRef id
  methods : ∀ {id : ClassId} {record : ClassRecord} {name method}, h.classes[id]? = some record →
    record.methods.get? name = some method →
    ∃ closure, h.closures[method]? = some closure ∧ Bindable W P h closure
  fields : ∀ {id : ObjectId} {record : ObjectRecord} {x v}, h.objects[id]? = some record →
    record.fields.get? x = some v → Valid W P h v
  pending : ∀ {i x}, (i, x) ∈ P → IsPlainName x ∧
    (i ≠ Machine.globals → i < h.frames.size ∧ ¬h.frames.Has i x)

theorem Valid.mono {W' : Spot → Prop} {v : Value} (valid : Valid W P h v)
    (more : ∀ spot, W spot → W' spot) : Valid W' P h v := by
  cases v with
  | closure id =>
      obtain ⟨closure, bound, ⟨views, placed, fits⟩, initializer⟩ := valid
      exact ⟨closure, bound, ⟨views, placed.mono more, fits⟩, initializer⟩
  | classRef | object => exact valid
  | scalar | clock => trivial

/-- A sound heap stays sound when more spots are known. -/
theorem Sound.mono {W' : Spot → Prop} (sound : Sound W P h) (more : ∀ spot, W spot → W' spot) :
    Sound W' P h where
  nonempty := sound.nonempty
  rooted := sound.rooted
  locals bound := (sound.locals bound).mono more
  supers := sound.supers
  methods bound found := by
    obtain ⟨closure, bound, views, placed, fits⟩ := sound.methods bound found
    exact ⟨closure, bound, views, placed.mono more, fits⟩
  fields bound found := (sound.fields bound found).mono more
  pending := sound.pending

theorem Callable.carry {closure : Closure} (callable : Callable W P h closure)
    (carries : Carries New P h P' h') : Callable W P' h' closure := by
  obtain ⟨⟨views, placed, fits⟩, bound⟩ := callable
  exact ⟨⟨views, placed, fits.carry carries.frames⟩,
    fun initializer => carries.frames.has _ _ (bound initializer)⟩

theorem Bindable.carry {closure : Closure} (bindable : Bindable W P h closure)
    (carries : Carries New P h P' h') : Bindable W P' h' closure := by
  obtain ⟨views, placed, fits⟩ := bindable
  exact ⟨views, placed, fits.carry carries.frames⟩

theorem Valid.carry {v : Value} (valid : Valid W P h v) (carries : Carries New P h P' h') :
    Valid W P' h' v := by
  cases v with
  | closure id =>
      obtain ⟨closure, bound, callable⟩ := valid
      exact ⟨closure, carries.closures bound, callable.carry carries⟩
  | classRef id => exact Nat.lt_of_lt_of_le valid carries.extends.classes_size
  | object id => exact Nat.lt_of_lt_of_le valid carries.objects
  | scalar | clock => trivial

theorem Valid.refers {v : Value} (valid : Valid W P h v) : h.Refers v := by
  cases v with
  | closure id =>
      obtain ⟨closure, bound, -⟩ := valid
      exact (Array.getElem?_eq_some_iff.1 bound).1
  | classRef | object => exact valid
  | scalar | clock => trivial

/-- A heap that carries a sound one over is sound if what it holds in addition is. -/
theorem Sound.extend (sound : Sound W P h) (carries : Carries New P h P' h')
    (locals : ∀ {i x v}, h'.frames.local? i x = some v → h.frames.local? i x = some v ∨
      Valid W P' h' v ∧ (x = "super" → ∃ id, v = .classRef id))
    (methods : ∀ {id : ClassId} {record : ClassRecord} {name method},
      h'.classes[id]? = some record → record.methods.get? name = some method →
      h.classes[id]? = some record ∨
      ∃ closure, h'.closures[method]? = some closure ∧ Bindable W P' h' closure)
    (fields : ∀ {id : ObjectId} {record : ObjectRecord} {x v}, h'.objects[id]? = some record →
      record.fields.get? x = some v → Valid W P' h' v ∨
        ∃ (id : ObjectId) (record : ObjectRecord), h.objects[id]? = some record ∧
          record.fields.get? x = some v)
    (pending : ∀ {i x}, (i, x) ∈ P' → IsPlainName x ∧
      (i ≠ Machine.globals → i < h'.frames.size ∧ ¬h'.frames.Has i x)) :
    Sound W P' h' where
  nonempty := Nat.lt_of_lt_of_le sound.nonempty carries.frames.size
  rooted := (carries.frames.parent _ sound.nonempty).trans sound.rooted
  locals bound := by
    obtain old | new := locals bound
    · exact (sound.locals old).carry carries
    · exact new.1
  supers bound := by
    obtain old | new := locals bound
    · exact sound.supers old
    · exact new.2 rfl
  methods bound found := by
    obtain old | new := methods bound found
    · obtain ⟨closure, bound, bindable⟩ := sound.methods old found
      exact ⟨closure, carries.closures bound, bindable.carry carries⟩
    · exact new
  fields bound found := by
    obtain new | ⟨id, record, old, found⟩ := fields bound found
    · exact new
    · exact (sound.fields old found).carry carries
  pending := pending

/-- A pending name of another frame than the global one is nowhere bound yet. -/
theorem Sound.absent {i : FrameId} {x : String} (sound : Sound W P h) (pending : (i, x) ∈ P)
    (i_ne : i ≠ Machine.globals) : ¬h.frames.Has i x :=
  ((sound.pending pending).2 i_ne).2

/-- A frame that is yet to be made has no pending names. -/
theorem Sound.not_pending_size {x : String} (sound : Sound W P h) :
    (h.frames.size, x) ∉ P := by
  intro pending
  have other : h.frames.size ≠ Machine.globals := Nat.ne_of_gt sound.nonempty
  exact absurd ((sound.pending pending).2 other).1 (Nat.lt_irrefl _)

theorem Sound.push (sound : Sound W P h) (parent : Option FrameId) :
    Sound W P { h with frames := h.frames.push parent } := by
  have carries : Carries Nowhere P h P { h with frames := h.frames.push parent } :=
    .ofFrames (.push parent)
  apply sound.extend carries
  · intro i x v bound
    rw [Frames.local?_push] at bound
    split at bound
    · cases bound
    · exact .inl bound
  · intro _ _ _ _ bound _
    exact .inl bound
  · intro id record x v bound found
    exact .inr ⟨id, record, bound, found⟩
  · intro i x pending
    obtain ⟨plain, absent⟩ := sound.pending pending
    refine ⟨plain, fun other => ?_⟩
    obtain ⟨inside, absent⟩ := absent other
    refine ⟨by simpa using Nat.lt_succ_of_lt inside, fun has => ?_⟩
    exact absent (Frames.has_push.1 has).2

/-- A new frame may start with any name that is not `super`, and with `super` if it is a
class. -/
theorem Sound.pushWith {x : String} {v : Value} (sound : Sound W P h) (parent : Option FrameId)
    (valid : Valid W P h v) (super : x = "super" → ∃ id, v = .classRef id) :
    Sound W P { h with frames := (h.frames.push parent).define h.frames.size x v } := by
  have carries : Carries Nowhere P h P
      { h with frames := (h.frames.push parent).define h.frames.size x v } :=
    .ofFrames (.pushWith parent v)
  have inside : h.frames.size < (h.frames.push parent).size := by simp
  apply sound.extend carries
  · intro i y w bound
    rw [Frames.local?_define _ _ _ _ _ _ inside] at bound
    split at bound
    next same =>
      obtain ⟨-, rfl⟩ := same
      obtain rfl := Option.some.inj bound
      exact .inr ⟨valid.carry carries, super⟩
    next =>
      rw [Frames.local?_push] at bound
      split at bound
      · cases bound
      · exact .inl bound
  · intro _ _ _ _ bound _
    exact .inl bound
  · intro id record x v bound found
    exact .inr ⟨id, record, bound, found⟩
  · intro i y pending
    obtain ⟨plain, absent⟩ := sound.pending pending
    refine ⟨plain, fun other => ?_⟩
    obtain ⟨old, absent⟩ := absent other
    refine ⟨by simpa using Nat.lt_succ_of_lt old, fun has => ?_⟩
    obtain ⟨rfl, -⟩ | has := (Frames.has_define inside).1 has
    · exact Nat.lt_irrefl _ old
    · exact absent (Frames.has_push.1 has).2

/-- A value may be bound to any name that is not `super`, also if the name was pending. -/
theorem Sound.define {i : FrameId} {x : String} {v : Value} (sound : Sound W P h)
    (inside : i < h.frames.size) (new : IsPlainName x ∨ h.frames.Has i x)
    (valid : Valid W P h v) (notSuper : x ≠ "super")
    (settles : ∀ j y, (j, y) ∈ P → (j, y) ∈ P' ∨ j = i ∧ y = x)
    (settled : ∀ j y, (j, y) ∈ P' → (j, y) ∈ P ∧ (j ≠ Machine.globals → ¬(j = i ∧ y = x))) :
    Sound W P' { h with frames := h.frames.define i x v } := by
  have carries : Carries (Inside i) P h P' { h with frames := h.frames.define i x v } :=
    .ofFrames (.define inside (new.imp_left fun plain => ⟨plain, rfl⟩) settles)
  apply sound.extend carries
  · intro j y w bound
    rw [Frames.local?_define _ _ _ _ _ _ inside] at bound
    split at bound
    next same =>
      obtain ⟨-, rfl⟩ := same
      obtain rfl := Option.some.inj bound
      exact .inr ⟨valid.carry carries, fun super => absurd super notSuper⟩
    next => exact .inl bound
  · intro _ _ _ _ bound _
    exact .inl bound
  · intro id record x v bound found
    exact .inr ⟨id, record, bound, found⟩
  · intro j y pending
    obtain ⟨old, other⟩ := settled j y pending
    obtain ⟨plain, absent⟩ := sound.pending old
    refine ⟨plain, fun notGlobal => ?_⟩
    obtain ⟨old, absent⟩ := absent notGlobal
    refine ⟨by simpa using old, fun has => ?_⟩
    obtain same | has := (Frames.has_define inside).1 has
    · exact other notGlobal same
    · exact absent has

/-- A value may be bound to a name that is not pending. -/
theorem Sound.define_settled {i : FrameId} {x : String} {v : Value} (sound : Sound W P h)
    (inside : i < h.frames.size) (new : IsPlainName x ∨ h.frames.Has i x)
    (valid : Valid W P h v) (notSuper : x ≠ "super")
    (settled : i ≠ Machine.globals → (i, x) ∉ P) :
    Sound W P { h with frames := h.frames.define i x v } := by
  apply sound.define inside new valid notSuper
  · exact fun _ _ => .inl
  · intro j y pending
    refine ⟨pending, ?_⟩
    rintro other ⟨rfl, rfl⟩
    exact settled other pending

/-- A name that is not bound yet may become pending. -/
theorem Sound.opens {i : FrameId} {x : String} (sound : Sound W P h) (plain : IsPlainName x)
    (absent : i ≠ Machine.globals → i < h.frames.size ∧ ¬h.frames.Has i x) :
    Sound W ((i, x) :: P) h := by
  have carries : Carries Nowhere P h ((i, x) :: P) h := .ofFrames (.opens _)
  apply sound.extend carries
  · intro _ _ _ bound
    exact .inl bound
  · intro _ _ _ _ bound _
    exact .inl bound
  · intro id record x v bound found
    exact .inr ⟨id, record, bound, found⟩
  · intro j y pending
    obtain same | pending := List.mem_cons.1 pending
    · obtain ⟨rfl, rfl⟩ := Prod.mk.inj same
      exact ⟨plain, absent⟩
    · exact sound.pending pending

theorem Carries.pushClosure (closure : Closure) :
    Carries New P h P { h with closures := h.closures.push closure } :=
  .of_extends .refl (.pushClosure h closure)

theorem Sound.pushClosure (sound : Sound W P h) (closure : Closure) :
    Sound W P { h with closures := h.closures.push closure } := by
  have carries : Carries Nowhere P h P { h with closures := h.closures.push closure } :=
    .pushClosure closure
  apply sound.extend carries
  · intro _ _ _ bound
    exact .inl bound
  · intro _ _ _ _ bound _
    exact .inl bound
  · intro id record x v bound found
    exact .inr ⟨id, record, bound, found⟩
  · exact sound.pending

theorem Carries.pushClass (record : ClassRecord) :
    Carries New P h P { h with classes := h.classes.push record } :=
  .of_extends .refl (.pushClass h record)

theorem Sound.pushClass {record : ClassRecord} (sound : Sound W P h)
    (methods : ∀ {name method}, record.methods.get? name = some method →
      ∃ closure, h.closures[method]? = some closure ∧ Bindable W P h closure) :
    Sound W P { h with classes := h.classes.push record } := by
  have carries : Carries Nowhere P h P { h with classes := h.classes.push record } :=
    .pushClass record
  apply sound.extend carries
  · intro _ _ _ bound
    exact .inl bound
  · intro id found name method bound declared
    dsimp only at bound
    rw [Array.getElem?_push] at bound
    split at bound
    next =>
      obtain rfl := Option.some.inj bound
      obtain ⟨closure, bound, bindable⟩ := methods declared
      exact .inr ⟨closure, bound, bindable.carry carries⟩
    next => exact .inl bound
  · intro id record x v bound found
    exact .inr ⟨id, record, bound, found⟩
  · exact sound.pending

theorem Carries.pushObject (record : ObjectRecord) :
    Carries New P h P { h with objects := h.objects.push record } :=
  .of_extends .refl (.pushObject h record)

theorem Sound.pushObject (sound : Sound W P h) (classId : ClassId) :
    Sound W P { h with objects := h.objects.push ⟨classId, .empty⟩ } := by
  have carries : Carries Nowhere P h P { h with objects := h.objects.push ⟨classId, .empty⟩ } :=
    .pushObject _
  apply sound.extend carries
  · intro _ _ _ bound
    exact .inl bound
  · intro _ _ _ _ bound _
    exact .inl bound
  · intro id record x v bound found
    dsimp only at bound
    rw [Array.getElem?_push] at bound
    split at bound
    next =>
      obtain rfl := Option.some.inj bound
      cases found
    next => exact .inr ⟨id, record, bound, found⟩
  · exact sound.pending

/-- The heap with a field of an object set. -/
def setField (h : Heap) (id : ObjectId) (name : String) (value : Value) : Heap :=
  { h with objects := h.objects.modify id fun record =>
      { record with fields := record.fields.put name value } }

theorem Carries.setField {id : ObjectId} {name : String} {v : Value} :
    Carries New P h P (h.setField id name v) :=
  .of_extends .refl (.modifyObject h id _)

theorem Sound.setField {id : ObjectId} {name : String} {v : Value} (sound : Sound W P h)
    (valid : Valid W P h v) : Sound W P (h.setField id name v) := by
  have carries : Carries Nowhere P h P (h.setField id name v) := .setField
  apply sound.extend carries
  · intro _ _ _ bound
    exact .inl bound
  · intro _ _ _ _ bound _
    exact .inl bound
  · intro other record x w bound found
    simp only [Heap.setField, Array.getElem?_modify] at bound
    split at bound
    next =>
      obtain ⟨old, before, rfl⟩ := Option.map_eq_some_iff.1 bound
      rw [Bindings.get?_put] at found
      split at found
      · obtain rfl := Option.some.inj found
        exact .inl (valid.carry carries)
      · exact .inr ⟨other, old, before, found⟩
    next => exact .inr ⟨other, record, bound, found⟩
  · exact sound.pending

end Heap

end TreeWalk
