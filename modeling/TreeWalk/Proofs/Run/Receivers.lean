import TreeWalk.Proofs.Run.Alongside
import TreeWalk.Proofs.Run.Sessions

/-!
# Receivers travel with closures

In a session whose trees all went through the scope rules, a run that keeps book and never
looks for `this` or `super` in a frame gives what the machine gives. So `this` is the
receiver of the method in whose class it is written, wherever and whenever the closure
around it is called, `super` is the class that was recorded when the class around it was
declared, and properties are fields or methods of the first class that declares them.

## Implementation notes

A scene is kept from step to step like the machine of a session, so closures that are
called in a later step are at home where they were made.
-/

namespace TreeWalk

open Surroundings

variable {α : Type} {W : Spot → Prop} {P : Pending} {fuel : Nat}

theorem interpret_mirrors {program : List Stmt} {place place' : Surroundings} {t : Scene}
    (known : Known W) (faithful : t.Faithful) (sound : t.machine.heap.Sound W P)
    (global : t.machine.current = Machine.globals) (placed : Placed W (.stmts program) place place')
    (top : place.views = []) :
    Mirrors (interpret fuel program) (Told.interpret fuel program) t := by
  induction program generalizing t place with
  | nil => exact .pure faithful _
  | cons s rest ih =>
      obtain ⟨mid, first, others⟩ := placed.stmts_parts known
      have admitted : Visit.Admitted W P ⟨fuel, .execute s, t.machine⟩ :=
        admitted_top sound global first top
      have step : Mirrors (do let _ ← execute fuel s) (do let _ ← Told.execute fuel s) t :=
        ((mirrorsAt known fuel).execute faithful admitted).bind fun _ _ _ _ _ h => .pure h _
      have safe : Safe W (do let _ ← execute fuel s) t.machine fun _ m => m.heap.Sound W P :=
        ((keeps known fuel).execute admitted).bind fun _ _ _ _ done => Safe.pure done.1
      refine step.bind fun _ t₁ _ run _ faithful₁ => ?_
      obtain ⟨still, sound₁⟩ := safe.gives run
      exact ih faithful₁ sound₁ (still.trans global) others (first.top known top)

theorem interpretTimes_mirrors {program : List Stmt} {place place' : Surroundings} {times : Nat}
    {t : Scene} (known : Known W) (faithful : t.Faithful) (sound : t.machine.heap.Sound W P)
    (global : t.machine.current = Machine.globals) (placed : Placed W (.stmts program) place place')
    (top : place.views = []) :
    Mirrors (Session.interpretTimes fuel program times) (Told.interpretTimes fuel program times)
      t := by
  induction times generalizing t with
  | zero => exact .pure faithful _
  | succ times ih =>
      have once : Mirrors (interpret fuel program) (Told.interpret fuel program) t :=
        interpret_mirrors known faithful sound global placed top
      rw [← List.append_nil program] at placed
      refine once.bind fun _ t₁ _ run _ faithful₁ => ?_
      obtain ⟨still, sound₁, -⟩ := (interpret_safe known sound global placed top).gives run
      exact ih faithful₁ sound₁ (still.trans global)

variable {readings : Nat → Float} {history : History} {s : Session} {t : Scene} {mode : Mode}
  {source : String}

/-- What mirrors a computation on the machine of a session gives its answer. -/
theorem Scene.run_eq {act : Eval α} {answer : α → Option Value} {told : Told (Option Value)}
    (same : t.machine = s.machine) (mirrors : Mirrors (answer <$> act) told t) :
    (t.run told).1 = (s.run act).1.map answer ∧ (t.run told).2.machine = (s.run act).2.machine ∧
      (t.run told).2.Faithful := by
  obtain ⟨equal, -, faithful⟩ := mirrors
  simp only [Told.leaves, Told.onMachine, same, Functor.map, EStateM.map] at equal faithful
  simp only [Scene.run, Session.run, EStateM.run]
  cases own : act s.machine <;> cases result : told t <;> simp_all [Except.map]

theorem Scene.Faithful.silent (h : t.Faithful) : t.silent.Faithful :=
  h.calm ⟨rfl, rfl, .refl, rfl⟩

/-- A step gives the same whether it keeps book or not, and it leaves the book right. -/
theorem Scene.step_eq (steady : s.Steady (WalkedIn history) P) (same : t.machine = s.machine)
    (faithful : t.Faithful) (resolved : mode.IsResolved) :
    (t.step fuel mode source).1 = (s.step fuel mode source).1.result ∧
      (t.step fuel mode source).2.machine = (s.step fuel mode source).2.machine ∧
      (t.step fuel mode source).2.Faithful := by
  have known := walkedIn_known ((mode, source) :: history)
  obtain ⟨sound, global⟩ := steady.mono fun _ inside => inside.later (mode, source)
  have silent : t.silent.machine = s.silent.machine := by rw [Scene.silent, same]; rfl
  rw [← same] at sound global
  cases mode with
  | runRaw | evaluateRaw => cases resolved
  | run times =>
      rcases prepared : prepareSource source with ⟨notes, e | ⟨program, uses⟩⟩
      · have task : Told.task fuel (.run times) source = .error e := by
          simp only [Told.task, prepared]
          rfl
        simp only [step, task, Session.step, prepared]
        exact ⟨trivial, silent, faithful.silent⟩
      · let told : Told (Option Value) := do Told.interpretTimes fuel program times; return none
        have task : Told.task fuel (.run times) source = .ok told := by
          simp only [Told.task, prepared]
          rfl
        obtain ⟨after, placed⟩ := placed_prepared (congrArg Noted.result prepared)
        have run : Mirrors (Session.interpretTimes fuel program times)
            (Told.interpretTimes fuel program times) t.silent :=
          interpretTimes_mirrors known faithful.silent sound global placed rfl
        have answer : Mirrors ((fun _ => none) <$> Session.interpretTimes fuel program times) told
            t.silent :=
          run.bind fun _ _ _ _ _ h => .pure h (none : Option Value)
        simp only [step, task, Session.step, prepared]
        exact Scene.run_eq (s := s.silent.addLocated uses) silent answer
  | evaluate =>
      rcases prepared : parseExpression source >>= resolveExpression with e | ⟨e, uses⟩
      · have task : Told.task fuel .evaluate source = .error e := by
          simp only [Told.task, prepared]
          rfl
        simp only [step, task, Session.step, prepared]
        exact ⟨trivial, silent, faithful.silent⟩
      · have task : Told.task fuel .evaluate source = .ok (some <$> Told.evaluate fuel e) := by
          simp only [Told.task, prepared]
          rfl
        obtain ⟨after, placed⟩ := placed_expression prepared
        have admitted : Visit.Admitted _ P ⟨fuel, .evaluate e, t.silent.machine⟩ :=
          ⟨sound, .initial, after, placed, global⟩
        have run := (mirrorsAt known fuel).evaluate faithful.silent admitted
        simp only [step, task, Session.step, prepared]
        exact Scene.run_eq (s := s.silent.addLocated uses) silent run.map

/-- A session and a scene that went through the same steps. -/
inductive Twins (readings : Nat → Float) : History → Session → Scene → Prop
  | initial : Twins readings [] (.initial readings) (.initial readings)
  | step {history : History} {s : Session} {t : Scene} {fuel : Nat} {mode : Mode}
      {source : String} : Twins readings history s t → mode.IsResolved →
      Twins readings ((mode, source) :: history) (s.step fuel mode source).2
        (t.step fuel mode source).2

theorem Twins.reached (h : Twins readings history s t) : Reached readings history s := by
  induction h with
  | initial => exact .initial
  | step _ resolved ih => exact .step ih resolved

theorem Reached.twins (h : Reached readings history s) : ∃ t, Twins readings history s t := by
  induction h with
  | initial => exact ⟨_, .initial⟩
  | step _ resolved ih =>
      obtain ⟨t, twins⟩ := ih
      exact ⟨_, twins.step resolved⟩

theorem Scene.initial_faithful : (Scene.initial readings).Faithful := by
  have rooted : (Scene.initial readings).machine.frames.parent? Machine.globals = none := rfl
  have alone :
      (Scene.initial readings).machine.frames.chain Machine.globals = [Machine.globals] := by
    rw [Frames.chain, rooted]
  refine ⟨trivial, rfl, rfl, ?_, ?_, ?_, Nat.one_pos, ⟨?_, ?_⟩, rfl⟩
  · intro id closure found
    simp [initial, Machine.initial, Heap.initial] at found
  · intro id record found
    simp [initial, Machine.initial, Heap.initial] at found
  · intro id declared found
    simp [initial] at found
  · show Frames.get? _ Machine.globals "this" = none
    rw [Frames.get?, alone]
    rfl
  · show Frames.superAround? _ Machine.globals = none
    rw [Frames.superAround?, Frames.owner?, alone]
    rfl

/-- Between two steps the machines of twins are the same, and the book is right. -/
theorem Twins.faithful (h : Twins readings history s t) : t.machine = s.machine ∧ t.Faithful := by
  induction h with
  | initial => exact ⟨rfl, Scene.initial_faithful⟩
  | step twins resolved ih =>
      obtain ⟨P, steady⟩ := twins.reached.steady
      exact (Scene.step_eq steady ih.1 ih.2 resolved).2

/-- A property of an object is its own field, or else the method of the first class that
declares it, bound to the object, or else there is none. -/
theorem Scene.Faithful.readProperty_eq (h : t.Faithful) {id : ObjectId} {record : ObjectRecord}
    (found : t.machine.heap.objects[id]? = some record) (name : Token) :
    Eval.readProperty id name t.machine =
      match record.fields.get? name.lexeme, methodOf t.classes record.classId name.lexeme with
      | some value, _ => .ok value t.machine
      | none, some (method, _) => (Value.closure <$> Eval.bind method (.object id)) t.machine
      | none, none => .error (.error ⟨.undefinedProperty, name⟩) t.machine := by
  have same := h.methodOf_eq record.classId name.lexeme
  have look : (Eval.findMethod record.classId name.lexeme).Gives t.machine _ t.machine :=
    Eval.findMethod_gives _ _
  rw [Eval.readProperty, bind_of_gives (Eval.objectOf_gives found)]
  cases record.fields.get? name.lexeme with
  | some value => rfl
  | none =>
      dsimp only
      rw [bind_of_gives look, ← same]
      cases methodOf t.classes record.classId name.lexeme with
      | none => rfl
      | some pair => rfl

/-- In every session whose trees all went through the scope rules, the steps of the machine
and those that take receivers, superclasses and methods from the book come to the same,
at every use of `this`, of `super` and of a property. Between the steps every superclass in
the book was declared before its class, every closure still knows the home in which it was
made, and the properties of every object are what the book says. -/
theorem receivers_travel (reached : Reached readings history s) :
    (∃ t, Twins readings history s t) ∧ ∀ t, Twins readings history s t →
      t.machine = s.machine ∧ t.agreed ∧
      (∀ (c : ClassId) (declared : Declared), t.classes[c]? = some declared →
        ∀ parent ∈ declared.superclass, parent < c) ∧
      (∀ (id : ClosureId) (closure : Closure), s.machine.heap.closures[id]? = some closure →
        ∃ home, t.homes[id]? = some home ∧ s.machine.frames.Knows closure.frame home) ∧
      (∀ (id : ObjectId) (record : ObjectRecord) (name : Token),
        s.machine.heap.objects[id]? = some record → Eval.readProperty id name s.machine =
          match record.fields.get? name.lexeme, methodOf t.classes record.classId name.lexeme with
          | some value, _ => .ok value s.machine
          | none, some (method, _) => (Value.closure <$> Eval.bind method (.object id)) s.machine
          | none, none => .error (.error ⟨.undefinedProperty, name⟩) s.machine) ∧
      ∀ fuel mode source, mode.IsResolved →
        (t.step fuel mode source).1 = (s.step fuel mode source).1.result ∧
          (t.step fuel mode source).2.machine = (s.step fuel mode source).2.machine ∧
          (t.step fuel mode source).2.agreed ∧
          ∀ fault, (t.step fuel mode source).1 ≠ .error (.run (.fault fault)) := by
  refine ⟨reached.twins, fun t twins => ?_⟩
  obtain ⟨same, faithful⟩ := twins.faithful
  obtain ⟨P, steady⟩ := reached.steady
  refine ⟨same, faithful.agreed, fun _ _ noted => faithful.ordered noted, ?_, ?_, ?_⟩
  · intro id closure found
    rw [← same] at found ⊢
    exact (faithful.closures found).2
  · intro id record name found
    rw [← same] at found ⊢
    exact faithful.readProperty_eq found name
  · intro fuel mode source resolved
    obtain ⟨result, machine, faithful'⟩ := Scene.step_eq steady same faithful resolved
    refine ⟨result, machine, faithful'.agreed, fun fault => ?_⟩
    rw [result]
    exact (Session.step_steady steady resolved).1 fault

/-- A source in which a function that uses `super` outlives the method around it and the
name of the superclass. -/
def escapingFunction : String :=
  "class A \x7b m() \x7b return this; \x7d \x7d class B < A \x7b m() \x7b fun f() " ++
    "\x7b return super.m(); \x7d return f; \x7d \x7d var f = B().m(); A = nil;"

/-- In a later step the function still calls the method of the superclass, bound to the
object on which the method was called. -/
theorem receivers_travel_escaping :
    let s := ((Session.initial fun _ => 0).step 40 (.run 1) escapingFunction).2
    Reached (fun _ => 0) [(.run 1, escapingFunction)] s ∧ Mode.IsResolved .evaluate ∧
      ∃ t, Twins (fun _ => 0) [(.run 1, escapingFunction)] s t ∧ t.agreed ∧
        (t.step 40 .evaluate "f()").1 = .ok (some (.object 0)) ∧
        (t.step 40 .evaluate "f()").2.agreed := by
  intro s
  have reached : Reached (fun _ => 0) [(.run 1, escapingFunction)] s := .step .initial trivial
  have resolved : Mode.IsResolved .evaluate := trivial
  have result : (s.step 40 .evaluate "f()").1.result = .ok (some (.object 0)) := by decide +kernel
  obtain ⟨⟨t, twins⟩, all⟩ := receivers_travel reached
  obtain ⟨-, agreed, -, -, -, steps⟩ := all t twins
  obtain ⟨same, -, agreed', -⟩ := steps 40 .evaluate "f()" resolved
  exact ⟨reached, resolved, t, twins, agreed, same.trans result, agreed'⟩

end TreeWalk
