import TreeWalk.Evaluation
import TreeWalk.Proofs.Run.Safety

/-!
# The operations of the machine are safe

For each operation of the machine what it needs and what it leaves: a sound heap that
carries the one before over, and values that refer to something.

## Implementation notes

Reading a variable may break the rule that it is bound, but never leaves the frames:
its distance is that of a view, and there is a frame for each view.
-/

namespace TreeWalk

open Eval

variable {W : Spot → Prop} {P : Pending} {m m' : Machine} {views : List View}

namespace Eval

theorem newFrame_gives (parent : FrameId) :
    (newFrame parent).Gives m m.heap.frames.size (m.mapFrames (·.push (some parent))) := rfl

theorem define_gives (frame : FrameId) (x : String) (v : Value) :
    (define frame x v).Gives m () (m.mapFrames (·.define frame x v)) := rfl

theorem defineHere_gives (x : String) (v : Value) :
    (defineHere x v).Gives m () (m.mapFrames (·.define m.current x v)) := rfl

theorem newClosure_gives (closure : Closure) :
    (newClosure closure).Gives m m.heap.closures.size
      (m.mapHeap fun heap => { heap with closures := heap.closures.push closure }) := rfl

theorem newClass_gives (record : ClassRecord) :
    (newClass record).Gives m m.heap.classes.size
      (m.mapHeap fun heap => { heap with classes := heap.classes.push record }) := rfl

theorem newObject_gives (classId : ClassId) :
    (newObject classId).Gives m m.heap.objects.size
      (m.mapHeap fun heap => { heap with objects := heap.objects.push ⟨classId, .empty⟩ }) := rfl

theorem writeField_gives (id : ObjectId) (name : String) (v : Value) :
    (writeField id name v).Gives m () (m.mapHeap (·.setField id name v)) := rfl

theorem print_gives (line : String) :
    (print line).Gives m () { m with output := m.output ++ line ++ "\n" } := rfl

theorem readClock_gives :
    readClock.Gives m (.number (m.readings m.taken)) { m with taken := m.taken + 1 } := rfl

theorem findMethod_gives (id : ClassId) (name : String) :
    (findMethod id name).Gives m (m.heap.method? id name) m := rfl

theorem inspect_gives {α : Type} {look : Machine → Except Stop α} {a : α} :
    (inspect look).Gives m a m' ↔ look m = .ok a ∧ m' = m := by
  simp only [EStateM.Gives, EStateM.run, inspect]
  cases look m <;> simp [eq_comm]

theorem closureOf_gives {id : ClosureId} {closure : Closure}
    (found : m.heap.closures[id]? = some closure) : (closureOf id).Gives m closure m := by
  simp [EStateM.Gives, EStateM.run, closureOf, inspect, found]

theorem closureOf_of_gives {id : ClosureId} {closure : Closure}
    (run : (closureOf id).Gives m closure m') : m' = m ∧ m.heap.closures[id]? = some closure := by
  obtain ⟨found, rfl⟩ := inspect_gives.1 run
  split at found <;> cases found
  next bound => exact ⟨rfl, bound⟩

theorem objectOf_gives {id : ObjectId} {record : ObjectRecord}
    (found : m.heap.objects[id]? = some record) : (objectOf id).Gives m record m := by
  simp [EStateM.Gives, EStateM.run, objectOf, inspect, found]

theorem thisOf_gives {frame : FrameId} {v : Value}
    (found : m.heap.frames.local? frame "this" = some v) : (thisOf frame).Gives m v m := by
  simp [EStateM.Gives, EStateM.run, thisOf, inspect, Machine.frames, found]

end Eval

namespace Frames

variable {fs : Frames Value} {i j : FrameId} {name : Token} {distance : Nat}

theorem readAt_eq (near : fs.ancestor? i distance = some j) :
    fs.readAt i distance name = fs.read j name := by
  simp only [readAt, ancestor, near]
  rfl

theorem targetAt_eq (near : fs.ancestor? i distance = some j) :
    fs.targetAt i distance name = fs.target j name := by
  simp only [targetAt, ancestor, near]
  rfl

/-- A value that is read is bound somewhere. -/
theorem exists_of_read {v : Value} (h : fs.read i name = .ok v) :
    ∃ j, fs.local? j name.lexeme = some v := by
  unfold read at h
  split at h
  next found =>
    cases h
    exact exists_of_get? found
  next => cases h

theorem read_error {stop : Stop} (h : fs.read i name = .error stop) :
    stop = .error ⟨.undefinedVariable, name⟩ := by
  unfold read at h
  split at h <;> cases h
  rfl

theorem has_of_target (h : fs.target i name = .ok j) : fs.Has j name.lexeme := by
  unfold target at h
  split at h
  next found =>
    cases h
    exact has_of_owner? found
  next => cases h

theorem target_error {stop : Stop} (h : fs.target i name = .error stop) :
    stop = .error ⟨.undefinedVariable, name⟩ := by
  unfold target at h
  split at h <;> cases h
  rfl

end Frames

/-- The frame at the distance of a reference stands for a scope that binds the name. -/
theorem Fits.located {fs : Frames Value} {i : FrameId} {reference : Reference} {distance : Nat}
    (fits : Fits P fs views i) (rooted : fs.parent? Machine.globals = none)
    (located : reference.IsLocated views) (near : reference.distance = some distance) :
    ∃ j v, fs.ancestor? i distance = some j ∧ Holds P fs j v ∧ j ≠ Machine.globals ∧
      (v reference.name.lexeme).isSome := by
  rw [located] at near
  obtain ⟨inside, bound, -⟩ := List.findIdx?_eq_some_iff_getElem.1 near
  obtain ⟨j, link, holds, other⟩ := fits.ancestor rooted (List.getElem?_eq_getElem inside)
  exact ⟨j, _, link, holds, other, bound⟩

/-- A reference is looked up from some frame outward. -/
theorem Fits.lookup {fs : Frames Value} {i : FrameId} {reference : Reference}
    (fits : Fits P fs views i) (rooted : fs.parent? Machine.globals = none)
    (located : reference.IsLocated views) :
    ∃ j, (match reference.distance with
        | some distance => fs.readAt i distance reference.name
        | none => fs.read Machine.globals reference.name) = fs.read j reference.name ∧
      (match reference.distance with
        | some distance => fs.targetAt i distance reference.name
        | none => fs.target Machine.globals reference.name) = fs.target j reference.name := by
  cases near : reference.distance with
  | none => exact ⟨Machine.globals, rfl, rfl⟩
  | some distance =>
      obtain ⟨j, -, link, -⟩ := fits.located rooted located near
      exact ⟨j, Frames.readAt_eq link, Frames.targetAt_eq link⟩

theorem readReference_safe {reference : Reference} (sound : m.heap.Sound W P)
    (fits : Fits P m.heap.frames views m.current) (located : reference.IsLocated views) :
    Safe W (readReference reference) m fun v m' => m' = m ∧ m.heap.Valid W P v := by
  obtain ⟨j, same, -⟩ := fits.lookup sound.rooted located
  apply Safe.inspect sound
  · intro v found
    obtain ⟨k, bound⟩ := Frames.exists_of_read (same.symm.trans found)
    exact ⟨rfl, sound.locals bound⟩
  · rintro stop found fault rfl
    cases Frames.read_error (same.symm.trans found)

/-- A variable that is read has a value that some frame binds. -/
theorem local?_of_readReference {reference : Reference} {v : Value} {m m' : Machine}
    (run : (readReference reference).Gives m v m') : ∃ j x, m.frames.local? j x = some v := by
  simp only [readReference, EStateM.Gives, EStateM.run, inspect] at run
  split at run
  next look =>
    cases run
    split at look
    next distance _ =>
      unfold Frames.readAt at look
      cases near : m.frames.ancestor m.current distance with
      | error stop =>
          rw [near] at look
          cases look
      | ok j =>
          rw [near] at look
          exact (Frames.exists_of_read look).imp fun k bound => ⟨_, bound⟩
    next => exact (Frames.exists_of_read look).imp fun k bound => ⟨_, bound⟩
  next => cases run

/-- Changing a variable binds no new name. -/
theorem writeReference_safe {reference : Reference} {v : Value} (sound : m.heap.Sound W P)
    (fits : Fits P m.heap.frames views m.current) (located : reference.IsLocated views)
    (plain : reference.name.IsPlain) (valid : m.heap.Valid W P v) :
    Safe W (writeReference reference v) m fun _ m' =>
      m'.heap.Sound W P ∧ m.heap.Carries Nowhere P P m'.heap := by
  obtain ⟨j, -, same⟩ := fits.lookup sound.rooted located
  have target : Safe W (inspect fun m => match reference.distance with
      | some distance => m.frames.targetAt m.current distance reference.name
      | none => m.frames.target Machine.globals reference.name) m fun k m' =>
        m' = m ∧ m.heap.frames.Has k reference.name.lexeme := by
    apply Safe.inspect sound
    · intro k found
      exact ⟨rfl, Frames.has_of_target (same.symm.trans found)⟩
    · rintro stop found fault rfl
      cases Frames.target_error (same.symm.trans found)
  apply target.bind
  rintro k _ - - ⟨rfl, has⟩
  have inside := Frames.size_of_has has
  apply Safe.of_gives (define_gives k reference.name.lexeme v) rfl
  constructor
  · apply sound.define_settled inside (.inr has) valid plain.2
    intro other pending
    exact sound.absent pending other has
  · exact .ofFrames (.define inside (.inr has) fun _ _ => .inl)

/-- A method that is bound to a receiver may be called. -/
theorem bindMethod_gives {method : ClosureId} {closure : Closure} {receiver : Value}
    (sound : m.heap.Sound W P) (found : m.heap.closures[method]? = some closure)
    (bindable : m.heap.Bindable W P closure) (valid : m.heap.Valid W P receiver) :
    ∃ m' bound, (Eval.bind method receiver).Gives m m.heap.closures.size m' ∧
      m'.current = m.current ∧ m'.heap.Sound W P ∧ m.heap.Carries Nowhere P P m'.heap ∧
      m'.heap.closures[m.heap.closures.size]? = some bound ∧ m'.heap.Callable W P bound ∧
      bound.params = closure.params := by
  obtain ⟨views, placed, fits⟩ := bindable
  let bound : Closure := { closure with frame := m.heap.frames.size }
  let made : Heap := { m.heap with
    frames := (m.heap.frames.push (some closure.frame)).define m.heap.frames.size "this" receiver }
  have soundMade : made.Sound W P := sound.pushWith _ valid nofun
  have carriesMade : m.heap.Carries Nowhere P P made := .ofFrames (.pushWith _ _)
  have callable : made.Callable W P bound := by
    refine ⟨⟨_, placed, fits.pushWith sound.nonempty receiver⟩, fun _ => ?_⟩
    exact (Frames.has_define (by simp)).2 (.inl ⟨rfl, rfl⟩)
  have carries : made.Carries Nowhere P P { made with closures := made.closures.push bound } :=
    .pushClosure bound
  refine ⟨{ m with heap := { made with closures := made.closures.push bound } }, bound, ?_, rfl,
    soundMade.pushClosure bound, carriesMade.trans carries, by simp [made], callable.carry carries,
    rfl⟩
  simp only [Eval.bind, bind_gives]
  exact ⟨_, _, closureOf_gives found, _, _, newFrame_gives _, _, _, define_gives _ _ _, rfl⟩

theorem exists_of_method? {h : Heap} {id : ClassId} {name : String} {method : ClosureId}
    (sound : h.Sound W P) (found : h.method? id name = some method) :
    ∃ closure, h.closures[method]? = some closure ∧ h.Bindable W P closure := by
  obtain ⟨c, -, own⟩ := List.exists_of_findSome?_eq_some found
  obtain ⟨record, bound, declared⟩ := Option.bind_eq_some_iff.1 own
  exact sound.methods bound declared

/-- The postcondition of what gives a value and binds no names. -/
def Gave (W : Spot → Prop) (P : Pending) (m : Machine) (v : Value) (m' : Machine) : Prop :=
  m'.heap.Sound W P ∧ m.heap.Carries Nowhere P P m'.heap ∧ m'.heap.Valid W P v

theorem bindMethod_safe {method : ClosureId} {closure : Closure} {receiver : Value}
    (sound : m.heap.Sound W P) (found : m.heap.closures[method]? = some closure)
    (bindable : m.heap.Bindable W P closure) (valid : m.heap.Valid W P receiver) :
    Safe W (do return .closure (← Eval.bind method receiver)) m (Gave W P m) := by
  obtain ⟨m', bound, run, still, sound, carries, made, callable, -⟩ :=
    bindMethod_gives sound found bindable valid
  apply Safe.step run still
  exact Safe.pure ⟨sound, carries, bound, made, callable⟩

theorem readProperty_safe {id : ObjectId} {name : Token} (sound : m.heap.Sound W P)
    (valid : m.heap.Valid W P (.object id)) : Safe W (readProperty id name) m (Gave W P m) := by
  apply Safe.step (objectOf_gives (Array.getElem?_eq_getElem valid)) rfl
  split
  next v found =>
    exact Safe.pure ⟨sound, .refl, sound.fields (Array.getElem?_eq_getElem valid) found⟩
  next =>
    apply Safe.step (findMethod_gives _ _) rfl
    split
    next method found =>
      obtain ⟨closure, bound, bindable⟩ := exists_of_method? sound found
      exact bindMethod_safe sound bound bindable valid
    next => exact Safe.raise sound _ _

/-- Where `super` is used there are a frame that binds it to a class and, just inside, one
that binds `this`. -/
theorem Fits.super {h : Heap} {i : FrameId} {reference : Reference} (sound : h.Sound W P)
    (fits : Fits P h.frames views i) (located : reference.IsSuperOf views) :
    ∃ distance j k receiver id, reference.distance = some (distance + 1) ∧
      h.frames.ancestor? i distance = some j ∧ h.frames.local? j "this" = some receiver ∧
      h.frames.ancestor? i (distance + 1) = some k ∧
      h.frames.local? k "super" = some (.classRef id) := by
  obtain ⟨distance, this, super, near, atThis, bindsThis, atSuper, bindsSuper⟩ := located.inside
  obtain ⟨j, link, holds, -⟩ := fits.ancestor sound.rooted atThis
  obtain ⟨k, link', holds', -⟩ := fits.ancestor sound.rooted atSuper
  have hasThis : h.frames.Has j "this" := by
    obtain has | ⟨ready, -⟩ := holds.bound _ _ bindsThis.1
    · exact has
    · cases ready
  have hasSuper : h.frames.Has k "super" := by
    obtain has | ⟨ready, -⟩ := holds'.bound _ _ bindsSuper.1
    · exact has
    · cases ready
  obtain ⟨receiver, isThis⟩ := Option.isSome_iff_exists.1 hasThis
  obtain ⟨parent, isSuper⟩ := Option.isSome_iff_exists.1 hasSuper
  obtain ⟨id, rfl⟩ := sound.supers isSuper
  exact ⟨distance, j, k, receiver, id, near, link, isThis, link', isSuper⟩

theorem readReference_gives {reference : Reference} {distance : Nat} {j : FrameId} {v : Value}
    (near : reference.distance = some distance)
    (link : m.heap.frames.ancestor? m.current distance = some j)
    (bound : m.heap.frames.local? j reference.name.lexeme = some v) :
    (readReference reference).Gives m v m := by
  have has : m.heap.frames.Has j reference.name.lexeme := by
    rw [Frames.Has, bound]
    rfl
  have read : m.frames.readAt m.current distance reference.name = .ok v := by
    calc m.frames.readAt m.current distance reference.name
        = m.heap.frames.read j reference.name := Frames.readAt_eq link
      _ = .ok v := by rw [Frames.read, Frames.get?_of_has has, bound]
  simp [EStateM.Gives, EStateM.run, readReference, inspect, near, read]

theorem readSuper_safe {reference : Reference} {method : Token} (sound : m.heap.Sound W P)
    (fits : Fits P m.heap.frames views m.current) (located : reference.IsSuperOf views) :
    Safe W (readSuper reference method) m (Gave W P m) := by
  obtain ⟨distance, j, k, receiver, id, near, link, isThis, link', isSuper⟩ :=
    fits.super sound located
  rw [← located.word] at isSuper
  have frame : (inspect fun m => m.frames.ancestor m.current (distance + 1 - 1)).Gives m j m := by
    have found : m.frames.ancestor? m.current distance = some j := link
    simp [EStateM.Gives, EStateM.run, inspect, Frames.ancestor, found]
  simp only [readSuper, near]
  apply Safe.step (readReference_gives near link' isSuper) rfl
  apply Safe.step frame rfl
  apply Safe.step (thisOf_gives isThis) rfl
  apply Safe.step (findMethod_gives _ _) rfl
  split
  next found declared =>
    obtain ⟨closure, bound, bindable⟩ := exists_of_method? sound declared
    exact bindMethod_safe sound bound bindable (sound.locals isThis)
  next => exact Safe.raise sound _ _

theorem closeOver_safe {name : Option String} {params : List Token} {body : List Stmt}
    (sound : m.heap.Sound W P) (placed : PlacedRoutine W views params body)
    (fits : Fits P m.heap.frames views m.current) :
    Safe W (closeOver name params body) m (Gave W P m) := by
  let closure : Closure := ⟨name, params, body, m.current, false⟩
  have carries : m.heap.Carries Nowhere P P
      { m.heap with closures := m.heap.closures.push closure } := .pushClosure closure
  have callable : m.heap.Callable W P closure := ⟨⟨views, placed, fits⟩, nofun⟩
  apply Safe.get_bind
  apply Safe.step (newClosure_gives closure) rfl
  exact Safe.pure ⟨sound.pushClosure closure, carries, closure, by simp [Machine.mapHeap],
    callable.carry carries⟩

/-- What a call needs to know of its callee. -/
theorem calleeArity_of_gives {callee : Value} {paren : Token} {arity : Nat}
    (run : (calleeArity callee paren).Gives m arity m') :
    m' = m ∧ m.heap.arity? callee = some arity := by
  obtain ⟨found, rfl⟩ := inspect_gives.1 run
  split at found <;> cases found
  next takes => exact ⟨rfl, takes⟩

theorem calleeArity_safe {callee : Value} {paren : Token} (sound : m.heap.Sound W P) :
    Safe W (calleeArity callee paren) m fun arity m' =>
      m' = m ∧ m.heap.arity? callee = some arity := by
  apply Safe.inspect sound
  · intro arity found
    split at found
    next known =>
      cases found
      exact ⟨rfl, known⟩
    next => cases found
  · rintro stop found fault rfl
    split at found <;> cases found

/-- The class that a reference names is one. -/
theorem readClass_safe {reference : Reference} (sound : m.heap.Sound W P)
    (fits : Fits P m.heap.frames views m.current) (located : reference.IsLocated views) :
    Safe W (readClass reference) m fun id m' => m' = m ∧ id < m.heap.classes.size := by
  apply (readReference_safe sound fits located).bind
  rintro v _ - - ⟨rfl, valid⟩
  split
  next id => exact Safe.pure ⟨rfl, valid⟩
  next => exact Safe.raise sound _ _

/-- The views around the methods of a class, apart from the one that binds `this`. -/
def superViews (hasSuperclass : Bool) (views : List View) : List View :=
  if hasSuperclass then (Scope.ofImplicit "super").view :: views else views

theorem methodFrame_safe {parent : Option ClassId} (sound : m.heap.Sound W P)
    (fits : Fits P m.heap.frames views m.current)
    (valid : ∀ id ∈ parent, id < m.heap.classes.size) :
    Safe W (methodFrame parent) m fun frame m' => m'.heap.Sound W P ∧
      m.heap.Carries Nowhere P P m'.heap ∧
      Fits P m'.heap.frames (superViews parent.isSome views) frame := by
  cases parent with
  | none =>
      apply Safe.get_bind
      exact Safe.pure ⟨sound, .refl, fits⟩
  | some id =>
      apply Safe.get_bind
      apply Safe.step (newFrame_gives _) rfl
      apply Safe.step (define_gives _ _ _) rfl
      refine Safe.pure ⟨?_, .ofFrames (.pushWith _ _), fits.pushWith sound.nonempty _⟩
      exact sound.pushWith _ (valid id rfl) fun _ => ⟨id, rfl⟩

/-- The closures of methods may be bound. -/
theorem newMethods_safe {frame : FrameId} {methods : List FunctionDecl}
    {place place' : Surroundings} (known : Known W) (sound : m.heap.Sound W P)
    (placed : Placed W (.methods methods) place place')
    (within : place.views = (Scope.ofImplicit "this").view :: views)
    (fits : Fits P m.heap.frames views frame) :
    Safe W (newMethods frame methods) m fun made m' => m'.heap.Sound W P ∧
      m.heap.Carries Nowhere P P m'.heap ∧ ∀ entry ∈ made,
        ∃ closure, m'.heap.closures[entry.2]? = some closure ∧ m'.heap.Bindable W P closure := by
  induction methods generalizing m place with
  | nil => exact Safe.pure ⟨sound, .refl, nofun⟩
  | cons method rest ih =>
      obtain ⟨name, params, body⟩ := method
      obtain ⟨routine, mid, same, others⟩ := placed.methods_parts known
      rw [within] at routine
      let closure : Closure := ⟨some name.lexeme, params, body, frame, name.lexeme = "init"⟩
      have carries : m.heap.Carries Nowhere P P
          { m.heap with closures := m.heap.closures.push closure } := .pushClosure closure
      have bindable : m.heap.Bindable W P closure := ⟨views, routine, fits⟩
      have rest := ih (m := m.mapHeap fun heap =>
        { heap with closures := heap.closures.push closure }) (sound.pushClosure closure) others
        (same.trans within) (fits.carry carries.frames)
      apply Safe.step (newClosure_gives closure) rfl
      apply rest.bind
      rintro made m' - still ⟨sound, carries', made_bindable⟩
      refine Safe.pure ⟨sound, carries.trans carries', ?_⟩
      intro entry inside
      obtain rfl | inside := List.mem_cons.1 inside
      · refine ⟨closure, carries'.closures ?_, bindable.carry (carries.trans carries')⟩
        simp [Machine.mapHeap]
      · exact made_bindable entry inside

end TreeWalk
