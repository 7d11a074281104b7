import TreeWalk.Proofs.Run.Evaluating
import TreeWalk.Proofs.Run.Receiving

/-!
# Steps that keep initializers bound

A step maintains a bound machine if it leaves a bound machine in the same frame, on which all is
retained, whether it ends or stops the run. The rules follow the way in which steps are
composed, and there is one lemma for each elementary step.
-/

namespace TreeWalk

open Eval

variable {α β : Type} {m m' m₁ : Machine}

/-- A machine with a bound heap whose current frame is there. -/
structure Machine.Bound (m : Machine) : Prop where
  heap : m.heap.Bound
  inside : m.current < m.heap.frames.size

/-- How far outward from the current frame the nearest one lies that binds `this`. -/
def Machine.thisDepth (m : Machine) : Option Nat := m.heap.frames.thisDepth m.current

/-- A machine in the same frame on which all is retained. -/
structure Machine.Onward (m m' : Machine) : Prop where
  still : m'.current = m.current
  retains : m.heap.Retains m'.heap

namespace Machine.Onward

theorem refl (m : Machine) : m.Onward m := ⟨rfl, .refl _⟩

theorem trans {m'' : Machine} (one : m.Onward m') (other : m'.Onward m'') : m.Onward m'' :=
  ⟨other.still.trans one.still, one.retains.trans other.retains⟩

theorem thisDepth_eq (onward : m.Onward m') (bound : m.Bound) : m'.thisDepth = m.thisDepth := by
  rw [thisDepth, onward.still]
  exact onward.retains.frames.thisDepth_eq bound.inside

end Machine.Onward

theorem Machine.Bound.later (bound : m.Bound) (heap : m'.heap.Bound) (onward : m.Onward m') :
    m'.Bound := by
  refine ⟨heap, ?_⟩
  rw [onward.still]
  exact Nat.lt_of_lt_of_le bound.inside onward.retains.frames.size

namespace Eval

/-- A step leaves a bound machine that goes on from the one before, and what it gives has a
postcondition. -/
structure Maintains (act : Eval α) (m : Machine) (Q : α → Machine → Prop) : Prop where
  bound : (act.after m).Bound
  onward : m.Onward (act.after m)
  gives : ∀ {a m'}, act.Gives m a m' → Q a m'

/-- A step gives a value that may be called if it is a closure. -/
abbrev MaintainsValue (act : Eval Value) (m : Machine) : Prop :=
  act.Maintains m fun v m' => m'.heap.Ready v

namespace Maintains

variable {act : Eval α} {f : α → Eval β} {Q : α → Machine → Prop} {R : β → Machine → Prop}

theorem of_gives {a : α} (run : act.Gives m a m') (bound : m'.Bound) (onward : m.Onward m')
    (post : Q a m') : act.Maintains m Q where
  bound := by rwa [after_of_gives run]
  onward := by rwa [after_of_gives run]
  gives run' := by
    cases run'.symm.trans run
    exact post

theorem of_error {stop : Stop} (run : act m = .error stop m') (bound : m'.Bound)
    (onward : m.Onward m') : act.Maintains m Q where
  bound := by rwa [after_of_error run]
  onward := by rwa [after_of_error run]
  gives run' := by cases run'.symm.trans run

theorem bound_gives {a : α} (h : act.Maintains m Q) (run : act.Gives m a m') : m'.Bound := by
  have bound := h.bound
  rwa [after_of_gives run] at bound

theorem onward_gives {a : α} (h : act.Maintains m Q) (run : act.Gives m a m') : m.Onward m' := by
  have onward := h.onward
  rwa [after_of_gives run] at onward

theorem mono {Q' : α → Machine → Prop} (h : act.Maintains m Q) (more : ∀ a m', Q a m' → Q' a m') :
    act.Maintains m Q' :=
  ⟨h.bound, h.onward, fun run => more _ _ (h.gives run)⟩

theorem pure {a : α} (bound : m.Bound) (post : Q a m) : (Pure.pure a : Eval α).Maintains m Q :=
  of_gives rfl bound (.refl _) post

theorem done (bound : m.Bound) (a : α) : (Pure.pure a : Eval α).Maintains m fun _ _ => True :=
  .pure bound trivial

theorem throw (bound : m.Bound) (stop : Stop) : (throw stop : Eval α).Maintains m Q :=
  of_error rfl bound (.refl _)

theorem inspect {look : Machine → Except Stop α} (bound : m.Bound)
    (ok : ∀ {a}, look m = .ok a → Q a m) : (Eval.inspect look).Maintains m Q := by
  cases found : look m with
  | ok a =>
      have run : (Eval.inspect look).Gives m a m := by
        simp [EStateM.Gives, EStateM.run, Eval.inspect, found]
      exact of_gives run bound (.refl _) (ok found)
  | error stop => exact of_error (by rw [Eval.inspect, found]) bound (.refl _)

/-- What follows a step starts on a bound machine that goes on from the first one. -/
theorem bind (first : act.Maintains m Q)
    (next : ∀ {a m'}, m'.Bound → m.Onward m' → Q a m' → (f a).Maintains m' R) :
    (act >>= f).Maintains m R := by
  obtain ⟨bound, onward, gives⟩ := first
  cases run : act m with
  | error stop m₁ =>
      rw [after_of_error run] at bound onward
      exact of_error (bind_of_error run) bound onward
  | ok a m₁ =>
      have run : act.Gives m a m₁ := run
      rw [after_of_gives run] at bound onward
      obtain ⟨bound', onward', gives'⟩ := next bound onward (gives run)
      refine ⟨?_, ?_, fun run' => ?_⟩
      · rwa [after_bind_of_gives run]
      · rw [after_bind_of_gives run]
        exact onward.trans onward'
      · obtain ⟨b, mid, other, run'⟩ := bind_gives.1 run'
        cases other.symm.trans run
        exact gives' run'

/-- What follows a look at the machine starts on the same machine. -/
theorem inspect_bind {look : Machine → Except Stop α} (bound : m.Bound)
    (next : ∀ {a}, look m = .ok a → (f a).Maintains m R) :
    (Eval.inspect look >>= f).Maintains m R := by
  have looked : (Eval.inspect look).Maintains m fun a m' => m' = m ∧ look m = .ok a :=
    .inspect bound fun found => ⟨rfl, found⟩
  refine looked.bind fun _ _ ⟨same, found⟩ => ?_
  rw [same]
  exact next found

theorem map {g : α → β} (first : act.Maintains m fun a m' => R (g a) m') :
    (g <$> act).Maintains m R where
  bound := by
    rw [after_map]
    exact first.bound
  onward := by
    rw [after_map]
    exact first.onward
  gives run := by
    obtain ⟨a, run', rfl⟩ := map_gives.1 run
    exact first.gives run'

theorem get_bind {f : Machine → Eval β} (next : (f m).Maintains m R) :
    (get >>= f).Maintains m R := by
  have same : (get >>= f) m = f m m := get_bind_apply
  refine ⟨?_, ?_, fun run => ?_⟩
  · rw [after, same]
    exact next.bound
  · rw [after, same]
    exact next.onward
  · exact next.gives (get_bind_gives.1 run)

theorem ite {p : Prop} [Decidable p] {yes no : Eval α} (one : yes.Maintains m Q)
    (other : no.Maintains m Q) : (if p then yes else no).Maintains m Q := by
  split
  · exact one
  · exact other

/-- Behind a step in another frame the machine is in the frame it was in. -/
theorem inFrame {frame : FrameId} (bound : m.Bound)
    (h : act.Maintains { m with current := frame }
      fun a m' => Q a { m' with current := m.current }) :
    (Eval.inFrame frame act).Maintains m Q := by
  obtain ⟨bound', onward, gives⟩ := h
  have inside := Nat.lt_of_lt_of_le bound.inside onward.retains.frames.size
  cases run : act { m with current := frame } with
  | ok a m₁ =>
      rw [after_of_gives run] at bound' onward inside
      have moved : (Eval.inFrame frame act).Gives m a { m₁ with current := m.current } := by
        simp [EStateM.Gives, EStateM.run, Eval.inFrame, run]
      exact of_gives moved ⟨bound'.heap, inside⟩ ⟨rfl, onward.retains⟩ (gives run)
  | error stop m₁ =>
      rw [after_of_error run] at bound' onward inside
      have moved : Eval.inFrame frame act m = .error stop { m₁ with current := m.current } := by
        simp [Eval.inFrame, run]
      exact of_error moved ⟨bound'.heap, inside⟩ ⟨rfl, onward.retains⟩

/-- A step that ends well and changes nothing but the heap. -/
theorem of_heap {a : α} {change : Heap → Heap} (run : act.Gives m a (m.mapHeap change))
    (bound : m.Bound) (retains : m.heap.Retains (change m.heap)) (heap : (change m.heap).Bound)
    (post : Q a (m.mapHeap change)) : act.Maintains m Q := by
  have onward : m.Onward (m.mapHeap change) := ⟨rfl, retains⟩
  exact of_gives run (bound.later heap onward) onward post

end Maintains

theorem operate_maintains {result : Except Stop Value} (bound : m.Bound)
    (fair : Operators.Fair result) : (operate result).MaintainsValue m := by
  cases result with
  | ok value =>
      obtain ⟨s, rfl⟩ := fair
      exact .pure bound trivial
  | error => exact .throw bound _

theorem print_maintains (bound : m.Bound) (line : String) :
    (print line).Maintains m fun _ _ => True := by
  have run : (print line).Gives m () { m with output := m.output ++ line ++ "\n" } := rfl
  exact .of_gives run ⟨bound.heap, bound.inside⟩ ⟨rfl, .refl _⟩ trivial

theorem readClock_maintains (bound : m.Bound) : readClock.MaintainsValue m := by
  have run : readClock.Gives m (.number (m.readings m.taken)) { m with taken := m.taken + 1 } :=
    rfl
  exact .of_gives run ⟨bound.heap, bound.inside⟩ ⟨rfl, .refl _⟩ trivial

/-- A new frame is one further from the nearest `this` than the one around it. -/
theorem newFrame_maintains {p : FrameId} (bound : m.Bound) (inside : p < m.heap.frames.size) :
    (newFrame p).Maintains m fun frame m' => frame < m'.heap.frames.size ∧
      m'.heap.frames.thisDepth frame = (m.heap.frames.thisDepth p).map (· + 1) := by
  refine .of_heap (newFrame_gives p) bound (.ofFrames (.push _)) (bound.heap.push _) ⟨?_, ?_⟩
  · simp [Machine.mapHeap]
  · exact Frames.thisDepth_push inside

theorem define_maintains {v : Value} {x : String} (bound : m.Bound) (plain : IsPlainName x)
    (ready : m.heap.Ready v) (frame : FrameId) :
    (define frame x v).Maintains m fun _ _ => True :=
  .of_heap (define_gives frame x v) bound (.ofFrames (.define v plain))
    (bound.heap.define plain ready) trivial

theorem defineHere_maintains {v : Value} {x : String} (bound : m.Bound) (plain : IsPlainName x)
    (ready : m.heap.Ready v) : (defineHere x v).Maintains m fun _ _ => True :=
  .get_bind (define_maintains bound plain ready _)

theorem defineEach_maintains {params : List Token} {arguments : List Value} (bound : m.Bound)
    (plain : ∀ param ∈ params, param.IsPlain) (ready : ∀ v ∈ arguments, m.heap.Ready v)
    (frame : FrameId) : (defineEach frame params arguments).Maintains m fun _ _ => True := by
  induction params generalizing arguments m with
  | nil => exact .pure bound trivial
  | cons param params ih =>
      cases arguments with
      | nil => exact .pure bound trivial
      | cons v arguments =>
          have first := define_maintains bound (plain param List.mem_cons_self)
            (ready v List.mem_cons_self) frame
          refine first.bind fun bound₁ onward _ => ?_
          apply ih bound₁ fun other among => plain other (List.mem_cons_of_mem _ among)
          intro w among
          exact (ready w (List.mem_cons_of_mem _ among)).later onward.retains

theorem readReference_maintains (bound : m.Bound) (reference : Reference) :
    (readReference reference).MaintainsValue m := by
  refine .inspect bound fun {v} found => ?_
  have run : (readReference reference).Gives m v m := by
    simp only [EStateM.Gives, EStateM.run, readReference, Eval.inspect]
    rw [found]
  obtain ⟨i, x, held⟩ := local?_of_readReference run
  exact bound.heap.locals held

theorem writeReference_maintains {v : Value} {reference : Reference} (bound : m.Bound)
    (plain : reference.name.IsPlain) (ready : m.heap.Ready v) :
    (writeReference reference v).Maintains m fun _ _ => True :=
  .inspect_bind bound fun _ => define_maintains bound plain ready _

/-- What a frame binds to `this` is an object. -/
theorem thisOf_maintains (bound : m.Bound) (frame : FrameId) :
    (thisOf frame).Maintains m fun v m' => m' = m ∧ ∃ o, v = .object o ∧
      m.heap.frames.local? frame "this" = some (.object o) := by
  refine .inspect bound fun found => ⟨rfl, ?_⟩
  split at found
  next v held =>
    cases found
    obtain ⟨o, rfl⟩ := bound.heap.receivers held
    exact ⟨o, rfl, held⟩
  next => cases found

theorem closureOf_maintains (bound : m.Bound) (id : ClosureId) :
    (closureOf id).Maintains m fun closure m' => m'.heap.closures[id]? = some closure := by
  refine .inspect bound fun found => ?_
  split at found
  next closure held =>
    cases found
    exact held
  next => cases found

theorem newClosure_maintains (bound : m.Bound) (closure : Closure) :
    (newClosure closure).Maintains m fun id m' => m'.heap.closures[id]? = some closure :=
  .of_heap (newClosure_gives closure) bound (.pushClosure closure) (bound.heap.pushClosure closure)
    Array.getElem?_push_size

theorem newClass_maintains {record : ClassRecord} (bound : m.Bound)
    (methods : ∀ {name method}, record.methods.get? name = some method →
      ∃ closure, m.heap.closures[method]? = some closure ∧ m.heap.IsMethod name closure) :
    (newClass record).Maintains m fun _ _ => True :=
  .of_heap (newClass_gives record) bound (.pushClass record) (bound.heap.pushClass methods) trivial

theorem newObject_maintains (bound : m.Bound) (c : ClassId) :
    (newObject c).Maintains m fun _ _ => True :=
  .of_heap (newObject_gives c) bound (.pushObject _) (bound.heap.pushObject c) trivial

theorem writeField_maintains {v : Value} (bound : m.Bound) (ready : m.heap.Ready v) (id : ObjectId)
    (x : String) : (writeField id x v).Maintains m fun _ _ => True :=
  .of_heap (writeField_gives id x v) bound (.setField id x v) (bound.heap.setField ready id x)
    trivial

/-- What a class finds under a name is a method of that name. -/
theorem method_of_bound {h : Heap} {c : ClassId} {name : String} {method : ClosureId}
    (bound : h.Bound) (found : h.method? c name = some method) :
    ∃ closure, h.closures[method]? = some closure ∧ h.IsMethod name closure := by
  obtain ⟨d, -, own⟩ := List.exists_of_findSome?_eq_some found
  obtain ⟨record, there, declared⟩ := Option.bind_eq_some_iff.1 own
  exact bound.methods there declared

/-- A closure is a method of a name that was bound to an object. -/
structure BoundTo (h : Heap) (name : String) (o : ObjectId) (closure : Closure) : Prop where
  run : h.CanRun closure
  flagged : closure.isInitializer = decide (name = "init")
  receiver : h.frames.local? closure.frame "this" = some (.object o)

/-- A method that is bound may be called, and its frame binds `this` to the object. -/
theorem bind_maintains {id : ClosureId} {method : Closure} {name : String} (bound : m.Bound)
    (found : m.heap.closures[id]? = some method) (isMethod : m.heap.IsMethod name method)
    (o : ObjectId) :
    (Eval.bind id (.object o)).Maintains m fun id' m' =>
      ∃ closure, m'.heap.closures[id']? = some closure ∧ BoundTo m'.heap name o closure := by
  let fs := (m.heap.frames.push (some method.frame)).define m.heap.frames.size "this" (.object o)
  let closure : Closure := { method with frame := m.heap.frames.size }
  have framed : Heap.Bound { m.heap with frames := fs } :=
    bound.heap.pushWith _ trivial fun _ => ⟨o, rfl⟩
  have retains : m.heap.Retains { m.heap with frames := fs } := .ofFrames (.pushWith _ _)
  have this : fs.local? m.heap.frames.size "this" = some (.object o) :=
    Frames.local?_pushWith _ _ _ _
  refine .of_heap (bind_withMethod _ found) bound (retains.trans (.pushClosure closure))
    (framed.pushClosure closure) ⟨closure, withMethod_made _ _, ?_, isMethod.flagged, this⟩
  refine ⟨?_, fun _ => ⟨o, this⟩, ?_⟩
  · exact Frames.lt_size_pushWith _ _ _ _
  · have near : fs.thisDepth m.heap.frames.size = some 0 := Frames.thisDepth_bound this
    exact near.symm ▸ ⟨isMethod.aims.params, isMethod.aims.body⟩

/-- A value that is a method of a name bound to an object. -/
def IsBound (h : Heap) (name : String) (o : ObjectId) (v : Value) : Prop :=
  ∃ id closure, v = .closure id ∧ h.closures[id]? = some closure ∧ BoundTo h name o closure

theorem IsBound.ready {h : Heap} {name : String} {o : ObjectId} {v : Value}
    (isBound : IsBound h name o v) : h.Ready v := by
  obtain ⟨id, closure, rfl, found, binds⟩ := isBound
  exact ⟨closure, found, binds.run⟩

theorem boundMethod_maintains {id : ClosureId} {c : ClassId} {name : String} (bound : m.Bound)
    (found : m.heap.method? c name = some id) (o : ObjectId) :
    (do return .closure (← Eval.bind id (.object o)) : Eval Value).Maintains m fun v m' =>
      IsBound m'.heap name o v := by
  obtain ⟨closure, made, isMethod⟩ := method_of_bound bound.heap found
  refine (bind_maintains bound made isMethod o).bind fun {id' _} bound₁ _ post => .pure bound₁ ?_
  obtain ⟨closure', made', binds⟩ := post
  exact ⟨id', closure', rfl, made', binds⟩

/-- A property is a field of its name, or a method of its name that is bound to the object. -/
theorem readProperty_maintains (bound : m.Bound) (o : ObjectId) (name : Token) :
    (readProperty o name).Maintains m fun v m' => m'.heap.Ready v ∧
      ((∀ record : ObjectRecord, m.heap.objects[o]? = some record →
        record.fields.get? name.lexeme = none) → IsBound m'.heap name.lexeme o v) := by
  refine .inspect_bind bound fun {record} found => ?_
  have there : m.heap.objects[o]? = some record := by
    split at found
    next record held => rwa [← Except.ok.inj found]
    next => cases found
  split
  next v held =>
    refine .pure bound ⟨bound.heap.fields there held, fun noField => ?_⟩
    cases held.symm.trans (noField record there)
  next =>
    refine .inspect_bind bound fun {method} looked => ?_
    have looked := Except.ok.inj looked
    cases method with
    | none => exact .throw bound _
    | some method =>
        exact (boundMethod_maintains bound looked o).mono fun v m' isBound =>
          ⟨isBound.ready, fun _ => isBound⟩

/-- A use of `super` that aims well is a method of its name that is bound to the nearest `this`. -/
theorem readSuper_maintains {reference : Reference} (bound : m.Bound)
    (aims : reference.AimsPast m.thisDepth) (method : Token) :
    (readSuper reference method).Maintains m fun v m' => ∃ o,
      m.heap.frames.get? m.current "this" = some (.object o) ∧
        IsBound m'.heap method.lexeme o v := by
  unfold readSuper
  cases located : reference.distance with
  | none => exact .throw bound _
  | some distance =>
      obtain ⟨near, depth, rfl⟩ := aims distance located
      have looked : (readReference reference).Maintains m fun _ m' => m' = m :=
        .inspect bound fun _ => rfl
      refine looked.bind fun {parent _} _ _ same => ?_
      rw [same]
      refine .inspect_bind bound fun {frame} link => ?_
      have nearest : m.heap.frames.local? frame "this" = m.heap.frames.get? m.current "this" := by
        apply Frames.local?_of_thisDepth depth
        simp only [Frames.ancestor, Nat.add_sub_cancel] at link
        split at link
        next found => rwa [← Except.ok.inj link]
        next => cases link
      refine (thisOf_maintains bound frame).bind fun {receiver _} _ _ post => ?_
      obtain ⟨rfl, o, rfl, held⟩ := post
      rw [nearest] at held
      cases parent with
      | classRef id =>
          refine .inspect_bind bound fun {found} looked => ?_
          have looked := Except.ok.inj looked
          cases found with
          | none => exact .throw bound _
          | some found =>
              exact (boundMethod_maintains bound looked o).mono fun v m' isBound =>
                ⟨o, held, isBound⟩
      | scalar | closure | object | clock => exact .throw bound _

/-- A function that is made in the current frame may be called. -/
theorem closeOver_maintains {params : List Token} {body : List Stmt} (bound : m.Bound)
    (plain : ∀ param ∈ params, param.IsPlain)
    (aims : Stmt.AllAim (m.thisDepth.map (· + 2)) body) (name : Option String) :
    (closeOver name params body).MaintainsValue m := by
  refine .get_bind ((newClosure_maintains bound _).bind fun {id m'} bound₁ onward made =>
    .pure bound₁ ⟨_, made, ?_⟩)
  have run : m.heap.CanRun ⟨name, params, body, m.current, false⟩ :=
    ⟨bound.inside, nofun, plain, aims⟩
  exact run.later onward.retains

theorem superclassOf_maintains (bound : m.Bound) (parent : Option Reference) :
    (superclassOf parent).Maintains m fun _ _ => True := by
  cases parent with
  | none => exact .pure bound trivial
  | some reference =>
      refine .map ((readReference_maintains bound reference).bind fun {v _} bound₁ _ _ => ?_)
      cases v with
      | classRef id => exact .pure bound₁ trivial
      | scalar | closure | object | clock => exact .throw bound₁ _

theorem methodFrame_maintains (bound : m.Bound) (superclass : Option ClassId) :
    (methodFrame superclass).Maintains m fun frame m' => frame < m'.heap.frames.size := by
  cases superclass with
  | none => exact .get_bind (.pure bound bound.inside)
  | some parent =>
      have run : (methodFrame (some parent)).Gives m m.heap.frames.size
          (m.mapHeap fun heap => { heap with
            frames := (heap.frames.push (some m.current)).define heap.frames.size "super"
              (.classRef parent) }) := rfl
      exact .of_heap run bound (.ofFrames (.pushWith _ _))
        (bound.heap.pushWith _ trivial fun other => absurd other (by decide))
        (Frames.lt_size_pushWith _ _ _ _)

theorem newMethods_maintains {frame : FrameId} {methods : List FunctionDecl} (bound : m.Bound)
    (inside : frame < m.heap.frames.size) (aim : FunctionDecl.AllAim methods) :
    (newMethods frame methods).Maintains m fun made m' => ∀ pair ∈ made,
      ∃ closure, m'.heap.closures[pair.2]? = some closure ∧ m'.heap.IsMethod pair.1 closure := by
  induction methods generalizing m with
  | nil => exact .pure bound nofun
  | cons method rest ih =>
      obtain ⟨name, params, body⟩ := method
      obtain ⟨⟨plain, aims⟩, others⟩ := aim
      let closure : Closure := ⟨some name.lexeme, params, body, frame, name.lexeme = "init"⟩
      refine (newClosure_maintains bound closure).bind fun {id m₁} bound₁ onward₁ made => ?_
      have inside₁ := Nat.lt_of_lt_of_le inside onward₁.retains.frames.size
      refine (ih bound₁ inside₁ others).bind fun {rest' m₂} bound₂ onward₂ each =>
        .pure bound₂ ?_
      have isMethod : m₁.heap.IsMethod name.lexeme closure := ⟨inside₁, rfl, plain, aims⟩
      rintro pair (_ | ⟨_, among⟩)
      · exact ⟨closure, onward₂.retains.closures made, isMethod.later onward₂.retains⟩
      · exact each pair among

theorem finishClass_maintains {name : Token} {methods : List FunctionDecl} (bound : m.Bound)
    (plain : name.IsPlain) (aim : FunctionDecl.AllAim methods) (superclass : Option ClassId) :
    (finishClass name methods superclass).Maintains m fun _ _ => True := by
  refine (methodFrame_maintains bound superclass).bind fun bound₁ _ inside => ?_
  refine (newMethods_maintains bound₁ inside aim).bind fun {made m₂} bound₂ _ each => ?_
  have table : ∀ {x method}, (Bindings.ofList made).get? x = some method →
      ∃ closure, m₂.heap.closures[method]? = some closure ∧ m₂.heap.IsMethod x closure :=
    fun found => each _ (Bindings.mem_of_get?_ofList found)
  refine (newClass_maintains bound₂ table).bind fun {id _} bound₃ _ _ => ?_
  exact .inspect_bind bound₃ fun _ =>
    define_maintains (v := .classRef id) bound₃ plain trivial _

theorem declareClass_maintains {name : Token} {methods : List FunctionDecl} (bound : m.Bound)
    (plain : name.IsPlain) (aim : FunctionDecl.AllAim methods) (parent : Option Reference) :
    (declareClass name parent methods).Maintains m fun _ _ => True := by
  rw [declareClass_finish]
  refine (defineHere_maintains (v := .nil) bound plain trivial).bind fun bound₁ _ _ => ?_
  refine (superclassOf_maintains bound₁ parent).bind fun bound₂ _ _ => ?_
  exact finishClass_maintains bound₂ plain aim _

end Eval

end TreeWalk
