import TreeWalk.Proofs.Run.Lasting
import TreeWalk.Proofs.Run.Passing

/-!
# What initializers give

A call of a class that completes gives a new object of the class, and has run the initializer
that the lineage of the class declares first. And whoever calls an initializer gets the object
that it is bound to, whatever its body does and however it ends, with the scope rules or without
them.

## Implementation notes

All steps of a session start at the top level, where no frame binds `this`, so whatever they come
to is poised. A closure and the object to which it is bound are the same on all machines that a
session passes, since both are retained to the last one.
-/

namespace TreeWalk

open Eval

variable {n : Nat} {m m' m₁ : Machine}

/-- A bound machine around whose frame no frame binds `this`. -/
structure Machine.AtTop (m : Machine) : Prop where
  bound : m.Bound
  depth : m.thisDepth = none

theorem Machine.AtTop.later (atTop : m.AtTop) (bound : m'.Bound) (onward : m.Onward m') :
    m'.AtTop := by
  refine ⟨bound, ?_⟩
  rw [onward.thisDepth_eq atTop.bound]
  exact atTop.depth

theorem interpret_maintains {fuel : Nat} {body : List Stmt} (atTop : m.AtTop)
    (aims : ∀ s ∈ body, s.Aims none) : (interpret fuel body).Maintains m fun _ _ => True := by
  induction body generalizing m with
  | nil => exact .done atTop.bound ()
  | cons s rest ih =>
      have here : s.Aims m.thisDepth := by
        rw [atTop.depth]
        exact aims s List.mem_cons_self
      rw [interpret_cons]
      refine ((maintainsAt fuel).execute atTop.bound here).bind fun bound₁ onward _ => ?_
      exact ih (atTop.later bound₁ onward) fun t among => aims t (List.mem_cons_of_mem _ among)

/-- The work of a step maintains a machine at the top level. -/
theorem Step.act_maintains (step : Step) (atTop : m.AtTop) :
    (step.work.act step.fuel).Maintains m fun _ _ => True := by
  cases work : step.work with
  | statements body => exact interpret_maintains atTop (step.statements_aim work)
  | expression e =>
      have aims : e.Aims m.thisDepth := by
        rw [atTop.depth]
        exact step.expression_aims work
      exact .map (((maintainsAt step.fuel).evaluate atTop.bound aims).mono fun _ _ _ => trivial)

theorem Heap.initial_bound : Heap.initial.Bound := by
  have nothing {i : FrameId} {x : String} : Heap.initial.frames.local? i x = none := by
    show (Frames.empty.push none).local? i x = none
    rw [Frames.local?_push]
    split <;> rfl
  constructor
  case receivers | locals =>
    intros
    next found => cases nothing.symm.trans found
  case fields | methods =>
    intros
    next found _ => cases found

theorem Machine.initial_atTop (readings : Nat → Float) : (Machine.initial readings).AtTop := by
  have plain : IsPlainName "clock" := ⟨by decide, by decide⟩
  have rooted : (Machine.initial readings).heap.frames.parent? Machine.globals = none := rfl
  constructor
  case bound =>
    refine ⟨Heap.initial_bound.define (v := .clock) plain trivial, ?_⟩
    simp [initial, Heap.initial, Machine.globals]
  case depth =>
    show Frames.thisDepth _ Machine.globals = none
    rw [Frames.thisDepth, Frames.chain_of_none rooted]
    rfl

/-- A value is an initializer that is bound to an object. -/
def Heap.Initializes (h : Heap) (v : Value) (o : ObjectId) : Prop :=
  ∃ id closure, v = .closure id ∧ h.closures[id]? = some closure ∧ closure.isInitializer = true ∧
    h.frames.local? closure.frame "this" = some (.object o)

theorem Eval.IsBound.initializes {h : Heap} {name : String} {o : ObjectId} {v : Value}
    (isBound : IsBound h name o v) (init : name = "init") : h.Initializes v o := by
  obtain ⟨id, closure, rfl, found, binds⟩ := isBound
  exact ⟨id, closure, rfl, found, binds.flagged.trans (decide_eq_true init), binds.receiver⟩

/-- If all that is on two heaps is retained on a third one, a value on both of them is bound to
the same object on both. -/
theorem Heap.Initializes.elsewhere {h h' last : Heap} {v : Value} {o : ObjectId}
    (init : h.Initializes v o) (ready : h'.Ready v) (retains : h.Retains last)
    (retains' : h'.Retains last) : h'.Initializes v o := by
  obtain ⟨id, closure, rfl, found, flagged, held⟩ := init
  obtain ⟨closure', found', run⟩ := ready
  cases (retains.closures found).symm.trans (retains'.closures found')
  have inside : closure.frame < h.frames.size := Frames.size_of_has (Option.isSome_of_eq_some held)
  refine ⟨id, closure, rfl, found', flagged, ?_⟩
  rw [← retains'.frames.implicit _ run.inside _ not_isPlainName_this,
    retains.frames.implicit _ inside _ not_isPlainName_this, held]

section Calls

variable {c : ClassId} {o : ObjectId} {callee : Expr} {paren : Token} {arguments : List Expr}
  {v w : Value} {values : List Value}

/-- A call that gives something has counted and evaluated its arguments and applied its callee. -/
theorem call_gives (run : (evaluate (n + 1) (.call callee paren arguments)).Gives m w m') :
    ∃ f m₁ values m₂, (evaluate n callee).Gives m f m₁ ∧
      m₁.heap.arity? f = some arguments.length ∧ (evaluateEach n arguments).Gives m₁ values m₂ ∧
      (apply n f values).Gives m₂ w m' := by
  obtain ⟨f, m₁, called, rest⟩ := bind_gives.1 run
  obtain ⟨arity, m₂, counted, rest'⟩ := bind_gives.1 rest
  obtain ⟨rfl, takes⟩ := calleeArity_of_gives counted
  by_cases same : arguments.length = arity
  · rw [if_neg (not_not.2 same)] at rest'
    obtain ⟨values, m₂, each, applied⟩ := bind_gives.1 rest'
    rw [← same] at takes
    exact ⟨f, _, values, m₂, called, takes, each, applied⟩
  · rw [if_pos same] at rest'
    exact (throw_gives.1 rest').elim

/-- What is given by an initializer that is applied is the object that it is bound to. -/
theorem Visit.Poised.initializes (poised : Visit.Poised ⟨n, .apply v values, m⟩)
    (init : m.heap.Initializes v o) (run : (apply n v values).Gives m w m') : w = .object o := by
  obtain ⟨id, closure, rfl, found, flagged, held⟩ := init
  obtain ⟨closure', found', canRun⟩ := poised.suits.1
  cases found.symm.trans found'
  cases n with
  | zero => exact (throw_gives.1 run).elim
  | succ n =>
      obtain ⟨_, _, looked, run⟩ := bind_gives.1 run
      cases looked.symm.trans (closureOf_gives found)
      have given := ((maintainsAt n).enter poised.bound canRun poised.suits.2).gives run
      cases held.symm.trans (given.2 flagged)
      rfl

/-- A class is applied with an object: one that was not there, of the class. If an initializer
is declared in its lineage, the one of the nearest class is entered, bound to the object, and
nothing else, and it gives the object. If there is none, nothing is entered. -/
structure Instantiates (n : Nat) (c : ClassId) (values : List Value) (m : Machine) (o : ObjectId)
    (m' : Machine) : Prop where
  fresh : m.heap.objects[o]? = none
  isOf : ∃ fields, m'.heap.objects[o]? = some ⟨c, fields⟩
  initializes : (∀ d ∈ m.heap.lineage c, m.heap.ownMethod? d "init" = none) ∧
      (∀ v, ¬Starts ⟨n, .apply (.classRef c) values, m⟩ v) ∨
    ∃ method bound mid k, m.heap.Runs (.classRef c) method ∧
      bound.params = method.params ∧ bound.body = method.body ∧ bound.isInitializer = true ∧
      mid.heap.frames.local? bound.frame "this" = some (.object o) ∧
      (∀ v, Starts ⟨n, .apply (.classRef c) values, m⟩ v ↔ v = ⟨k, .enter bound values, mid⟩) ∧
      (enter k bound values).Gives mid (.object o) m'

/-- Applying a class enters nothing but the initializer of its lineage that is bound to the new
object. -/
theorem starts_of_method? {id : ClosureId} {method : Closure} (inside : c < m.heap.classes.size)
    (declared : m.heap.method? c "init" = some id) (found : m.heap.closures[id]? = some method)
    (v : Visit) :
    Starts ⟨n + 1, .apply (.classRef c) values, m⟩ v ↔
      v = ⟨n, .enter { method with frame := m.heap.frames.size } values,
        (m.withObject c).withMethod method (.object m.heap.objects.size)⟩ := by
  have same : (m.withObject c).heap.method? c "init" = some id := by
    rw [← declared]
    exact (m.withObject_carries (P := []) c).extends.method?_eq inside
  have bound := bind_withMethod (m := m.withObject c) (.object m.heap.objects.size) found
  have made := withMethod_made (m := m.withObject c) method (.object m.heap.objects.size)
  constructor
  · intro starts
    cases starts with
    | initializer new declared' run found' =>
        cases new.symm.trans (newObject_gives c)
        cases declared'.symm.trans same
        cases run.symm.trans bound
        cases found'.symm.trans made
        rfl
  · rintro rfl
    exact .initializer (newObject_gives c) same bound made

/-- A class that is applied and gives something gives a new object. -/
theorem Visit.Poised.instantiates (poised : Visit.Poised ⟨n, .apply (.classRef c) values, m⟩)
    (inside : c < m.heap.classes.size) (run : (apply n (.classRef c) values).Gives m w m') :
    w = .object m.heap.objects.size ∧ Instantiates n c values m m.heap.objects.size m' := by
  cases n with
  | zero => exact (throw_gives.1 run).elim
  | succ n =>
      obtain ⟨object, m₁, made, rest⟩ := bind_gives.1 run
      cases made.symm.trans (newObject_gives c)
      obtain ⟨initializer, m₂, looked, rest'⟩ := bind_gives.1 rest
      cases looked.symm.trans (findMethod_gives _ _)
      have new := newObject_maintains poised.bound c
      have bound₁ := new.bound_gives (newObject_gives c)
      have same : (m.withObject c).heap.method? c "init" = m.heap.method? c "init" :=
        (m.withObject_carries (P := []) c).extends.method?_eq inside
      have fresh : m.heap.objects[m.heap.objects.size]? = none :=
        Array.getElem?_eq_none (Nat.le_refl _)
      have isNew : ∃ fields,
          (m.withObject c).heap.objects[m.heap.objects.size]? = some ⟨c, fields⟩ :=
        ⟨_, Array.getElem?_push_size⟩
      rw [← Machine.withObject, same] at rest'
      cases declared : m.heap.method? c "init" with
      | none =>
          rw [declared] at rest'
          obtain ⟨rfl, rfl⟩ := pure_gives.1 rest'
          refine ⟨rfl, fresh, isNew, .inl ⟨List.findSome?_eq_none_iff.1 declared, ?_⟩⟩
          intro v starts
          cases starts with
          | initializer new declared' =>
              cases new.symm.trans (newObject_gives c)
              cases (declared'.symm.trans same).trans declared
      | some id =>
          obtain ⟨method, found, isMethod⟩ := method_of_bound bound₁.heap (same.trans declared)
          let mid := (m.withObject c).withMethod method (.object m.heap.objects.size)
          have starts (v : Visit) : Starts ⟨n + 1, .apply (.classRef c) values, m⟩ v ↔
              v = ⟨n, .enter { method with frame := m.heap.frames.size } values, mid⟩ :=
            starts_of_method? inside declared found v
          rw [declared] at rest'
          obtain ⟨entered, m₂, bound, rest⟩ := bind_gives.1 rest'
          cases bound.symm.trans (bind_withMethod _ found)
          obtain ⟨closure, m₃, looked', rest'⟩ := bind_gives.1 rest
          cases looked'.symm.trans (closureOf_gives (withMethod_made _ _))
          obtain ⟨w', m₄, enters, done⟩ := bind_gives.1 rest'
          obtain ⟨rfl, rfl⟩ := pure_gives.1 done
          obtain ⟨⟨bound₂, canRun, each⟩, -⟩ := ((starts _).2 rfl).poised poised
          have maintained := (maintainsAt n).enter bound₂ canRun each
          have flagged : method.isInitializer = true := isMethod.flagged.trans (decide_eq_true rfl)
          have held : mid.heap.frames.local? m.heap.frames.size "this" =
              some (.object m.heap.objects.size) := Frames.local?_pushWith _ _ _ _
          have gave := held.symm.trans ((maintained.gives enters).2 flagged)
          refine ⟨rfl, fresh, (maintained.onward_gives enters).retains.objects isNew, .inr ?_⟩
          rw [← Option.some.inj gave] at enters
          exact ⟨method, { method with frame := m.heap.frames.size }, mid, n,
            .of_method? declared found, rfl, rfl, flagged, held, starts, enters⟩

end Calls

namespace Session

variable {s : Session} {steps : List Step} {v : Visit}

theorem silent_atTop (atTop : s.machine.AtTop) : s.silent.machine.AtTop :=
  ⟨⟨atTop.bound.heap, atTop.bound.inside⟩, atTop.depth⟩

theorem next_atTop (step : Step) (atTop : s.machine.AtTop) :
    (s.next step).machine.AtTop ∧ s.machine.heap.Retains (s.next step).machine.heap := by
  have done := step.act_maintains (silent_atTop atTop)
  rw [next_machine]
  exact ⟨(silent_atTop atTop).later done.bound done.onward, done.onward.retains⟩

theorem sequel_atTop (steps : List Step) (atTop : s.machine.AtTop) :
    (s.sequel steps).machine.AtTop ∧ s.machine.heap.Retains (s.sequel steps).machine.heap := by
  induction steps generalizing s with
  | nil => exact ⟨atTop, .refl _⟩
  | cons step steps ih =>
      obtain ⟨atTop₁, retains⟩ := next_atTop step atTop
      obtain ⟨atTop₂, retains'⟩ := ih atTop₁
      exact ⟨atTop₂, retains.trans retains'⟩

/-- What there is at the end of a step is retained to the end of the steps that it is one of. -/
theorem step_retained (before : List Step) (step : Step) (after : List Step)
    (atTop : s.machine.AtTop) : ((s.sequel before).next step).machine.heap.Retains
      (s.sequel (before ++ step :: after)).machine.heap := by
  have atTop₁ := (next_atTop step (sequel_atTop before atTop).1).1
  rw [sequel_append]
  exact (sequel_atTop after atTop₁).2

/-- A statement at the top level is run on a machine at the top level, and what there is behind it
is retained to the end of the step. -/
theorem RunsTop.retained {step : Step} {statement : Stmt} (h : s.RunsTop step statement m)
    (atTop : s.machine.AtTop) : Visit.Poised ⟨step.fuel, .execute statement, m⟩ ∧
      ((execute step.fuel statement).after m).heap.Retains (s.next step).machine.heap := by
  obtain ⟨_, work, before, after, rfl, gives⟩ := h
  have aims := step.statements_aim work
  have first : (interpret step.fuel before).Maintains s.silent.machine fun _ _ => True :=
    interpret_maintains (silent_atTop atTop) fun t among => aims t (List.mem_append_left _ among)
  have atTop₁ := (silent_atTop atTop).later (first.bound_gives gives) (first.onward_gives gives)
  have here : statement.Aims m.thisDepth := by
    rw [atTop₁.depth]
    exact aims statement (List.mem_append_right _ List.mem_cons_self)
  refine ⟨⟨atTop₁.bound, here⟩, ?_⟩
  have split : step.work.act step.fuel = interpret step.fuel before >>= fun _ =>
      execute step.fuel statement >>= fun _ => interpret step.fuel after := by
    rw [work, Work.act, ← interpret_cons]
    exact List.forM_append
  rw [next_machine, split]
  apply Seals.next gives
  apply Seals.first ((maintainsAt step.fuel).execute atTop₁.bound here)
  intro _ m₂ bound₂ onward _
  exact interpret_maintains (atTop₁.later bound₂ onward)
    fun t among => aims t (List.mem_append_right _ (List.mem_cons_of_mem _ among))

/-- Whatever steps come to is poised, and what there is at its end is retained to the end. -/
theorem Comes.retained (h : s.Comes steps v) (atTop : s.machine.AtTop) :
    v.Poised ∧ v.after.heap.Retains (s.sequel steps).machine.heap := by
  induction h with
  | @statement before step after statement m cut runs =>
      subst cut
      obtain ⟨poised, retained⟩ := runs.retained (sequel_atTop before atTop).1
      exact ⟨poised, retained.trans (step_retained before step after atTop)⟩
  | @expression before step after e cut work =>
      subst cut
      have atTop₁ := silent_atTop (sequel_atTop before atTop).1
      have aims : e.Aims (s.sequel before).silent.machine.thisDepth := by
        rw [atTop₁.depth]
        exact step.expression_aims work
      refine ⟨⟨atTop₁.bound, aims⟩, ?_⟩
      refine Heap.Retains.trans ?_ (step_retained before step after atTop)
      rw [next_machine, work, Work.act, after_map]
      exact .refl _
  | on _ starts ih => exact ⟨(starts.poised ih.1).1, (starts.seals ih.1).trans ih.2⟩

/-- Whatever machine steps pass, it is bound, and all that there is on it is retained to the end. -/
theorem Passed.retained (h : s.Passed steps m) (atTop : s.machine.AtTop) :
    m.Bound ∧ m.heap.Retains (s.sequel steps).machine.heap := by
  cases h with
  | @between before after cut =>
      have atTop₁ := (sequel_atTop before atTop).1
      rw [cut, sequel_append]
      exact ⟨atTop₁.bound, (sequel_atTop after atTop₁).2⟩
  | start comes =>
      obtain ⟨poised, retained⟩ := comes.retained atTop
      exact ⟨poised.bound, poised.after.2.retains.trans retained⟩
  | finish comes =>
      obtain ⟨poised, retained⟩ := comes.retained atTop
      exact ⟨poised.after.1, retained⟩
  | @declaring fuel name parent methods mid comes =>
      obtain ⟨⟨bound, plain, aim⟩, retained⟩ := comes.retained atTop
      have first := defineHere_maintains (v := .nil) bound plain trivial
      refine ⟨first.bound, Heap.Retains.trans ?_ retained⟩
      have whole : (execute (fuel + 1) (.classDecl name parent methods)).after mid =
          (declareClass name parent methods).after mid := after_bind_pure _ _ _
      show ((defineHere name.lexeme .nil).after mid).heap.Retains
        ((execute (fuel + 1) (.classDecl name parent methods)).after mid).heap
      rw [whole, declareClass_finish]
      exact Seals.first first fun bound₁ _ _ =>
        (superclassOf_maintains bound₁ parent).bind fun bound₂ _ _ =>
          finishClass_maintains bound₂ plain aim _

/-- Every call of a value that completes gives the object, whatever expression the value comes
from and whenever it is called. -/
def Yields (s : Session) (steps : List Step) (f : Value) (o : ObjectId) : Prop :=
  ∀ n callee paren arguments m m₁ w m',
    s.Comes steps ⟨n + 1, .evaluate (.call callee paren arguments), m⟩ →
    (evaluate n callee).Gives m f m₁ →
    (evaluate (n + 1) (.call callee paren arguments)).Gives m w m' → w = .object o

/-- An initializer that is bound to an object on some machine gives it wherever it is called. -/
theorem Passed.yields {f : Value} {o : ObjectId} (passed : s.Passed steps m)
    (atTop : s.machine.AtTop) (init : m.heap.Initializes f o) : s.Yields steps f o := by
  intro n callee paren arguments m₁ m₂ w m' comes called run
  obtain ⟨f', m₃, values, m₄, called', takes, each, applied⟩ := call_gives run
  cases called.symm.trans called'
  obtain ⟨poised, -⟩ := (comes.on (.called called takes each)).retained atTop
  have retained := ((Passed.start (comes.on (.called called takes each))).retained atTop).2
  have elsewhere := init.elsewhere poised.suits.1 (passed.retained atTop).2 retained
  exact poised.initializes elsewhere applied

/-- An initializer that an expression gives gives its object wherever it is called. -/
theorem Comes.yields {n : Nat} {e : Expr} {f : Value} {o : ObjectId}
    (comes : s.Comes steps ⟨n, .evaluate e, m⟩) (atTop : s.machine.AtTop)
    (gives : (evaluate n e).Gives m f m') (init : m'.heap.Initializes f o) :
    s.Yields steps f o := by
  have passed : s.Passed steps (Visit.after ⟨n, .evaluate e, m⟩) := .finish comes
  have left : Visit.after ⟨n, .evaluate e, m⟩ = m' := after_of_gives gives
  rw [left] at passed
  exact passed.yields atTop init

/-- Whatever steps a session takes, with the scope rules or without them:
a call of a class that completes gives a new object of the class, bound to which it has entered
just once the initializer that the lineage of the class declares first;
the initializer of an object that has no field of its name gives the object whenever it is
called, one that `super` gives does so for the nearest `this`, and so does every initializer
that is bound to an object on any machine;
and no initializer is ever entered whose frame does not bind `this` to an object, which it gives. -/
theorem initializers_yield (readings : Nat → Float) (steps : List Step) :
    (∀ n callee paren arguments m c m₁ w m',
      (initial readings).Comes steps ⟨n + 1, .evaluate (.call callee paren arguments), m⟩ →
      (evaluate n callee).Gives m (.classRef c) m₁ →
      (evaluate (n + 1) (.call callee paren arguments)).Gives m w m' →
      ∃ o values m₂, w = .object o ∧ m.heap.objects[o]? = none ∧
        (evaluateEach n arguments).Gives m₁ values m₂ ∧ Instantiates n c values m₂ o m') ∧
    (∀ n object name m o m₁ f m₂,
      (initial readings).Comes steps ⟨n + 1, .evaluate (.get object name), m⟩ →
      name.lexeme = "init" → (evaluate n object).Gives m (.object o) m₁ →
      (∀ record : ObjectRecord, m₁.heap.objects[o]? = some record →
        record.fields.get? "init" = none) →
      (evaluate (n + 1) (.get object name)).Gives m f m₂ → (initial readings).Yields steps f o) ∧
    (∀ n reference method m f m₁,
      (initial readings).Comes steps ⟨n, .evaluate (.super reference method), m⟩ →
      method.lexeme = "init" → (evaluate n (.super reference method)).Gives m f m₁ →
      ∃ o, m.heap.frames.get? m.current "this" = some (.object o) ∧
        (initial readings).Yields steps f o) ∧
    (∀ m f o, (initial readings).Passed steps m → m.heap.Initializes f o →
      (initial readings).Yields steps f o) ∧
    ∀ n closure values m, (initial readings).Comes steps ⟨n, .enter closure values, m⟩ →
      closure.isInitializer = true →
      ∃ o, m.heap.frames.local? closure.frame "this" = some (.object o) ∧
        ∀ w m', (enter n closure values).Gives m w m' → w = .object o := by
  have atTop : (initial readings).machine.AtTop := Machine.initial_atTop readings
  have linked : (initial readings).machine.Linked := Machine.initial_linked readings
  refine ⟨?_, ?_, ?_, fun m f o passed => passed.yields atTop, ?_⟩
  · intro n callee paren arguments m c m₁ w m' comes called run
    obtain ⟨f, m₁', values, m₂, called', takes, each, applied⟩ := call_gives run
    cases called.symm.trans called'
    have applies := comes.on (.called called takes each)
    have grown := ((evaluate_grown n callee).gives called).objects.trans
      ((evaluateEach_grown n arguments).gives each).objects
    have inside : c < m₂.heap.classes.size := (applies.ready linked).there.1
    obtain ⟨rfl, instantiates⟩ := (applies.retained atTop).1.instantiates inside applied
    exact ⟨_, values, m₂, rfl, Array.getElem?_eq_none grown, each, instantiates⟩
  · intro n object name m o m₁ f m₂ comes init gives noField run
    obtain ⟨⟨bound, aims⟩, -⟩ := comes.retained atTop
    obtain ⟨v, m₃, gives', read⟩ := bind_gives.1 run
    cases gives.symm.trans gives'
    have bound₁ := (evaluate_bound gives bound aims).1
    have isBound := ((readProperty_maintains bound₁ o name).gives read).2
    rw [init] at isBound
    exact comes.yields atTop run ((isBound noField).initializes rfl)
  · intro n reference method m f m₁ comes init run
    obtain ⟨⟨bound, aims⟩, -⟩ := comes.retained atTop
    cases n with
    | zero => exact (throw_gives.1 run).elim
    | succ n =>
        obtain ⟨o, near, isBound⟩ := (readSuper_maintains bound aims method).gives run
        exact ⟨o, near, comes.yields atTop run (isBound.initializes init)⟩
  · intro n closure values m comes flagged
    obtain ⟨⟨bound, canRun, each⟩, -⟩ := comes.retained atTop
    obtain ⟨o, held⟩ := canRun.receiver flagged
    refine ⟨o, held, fun w m' run => ?_⟩
    have gave := (((maintainsAt n).enter bound canRun each).gives run).2 flagged
    exact Option.some.inj (gave.symm.trans held)

namespace EarlyReturn

open TokenKind (word)

/-- A class whose initializer returns early, and a call of the initializer of a new object. -/
def step : Step :=
  ⟨20, .runRaw 1, "class A \x7b init() \x7b return; \x7d \x7d A().init();"⟩

/-- The name of the class. -/
def A : Token := word .identifier "A"

/-- The name of its initializer. -/
def init : Token := word .identifier "init"

/-- The parenthesis that closes the parameters and the arguments. -/
def paren : Token := word .rightParen ")"

/-- The class. -/
def declaration : Stmt :=
  .classDecl A none [.mk init [] [.returns (word .returnWord "return") none]]

/-- The call of the class. -/
def new : Expr := .call (.variable (.ofToken A)) paren []

/-- The initializer of the new object. -/
def property : Expr := .get new init

/-- The call of the initializer. -/
def call : Expr := .call property paren []

theorem step_work : step.work = .statements [declaration, .expression call] := by
  let tokens : List Token :=
    [word .classWord "class", A, word .leftBrace "\x7b", init, word .leftParen "(", paren,
      word .leftBrace "\x7b", word .returnWord "return", word .semicolon ";",
      word .rightBrace "\x7d", word .rightBrace "\x7d", A, word .leftParen "(", paren,
      word .dot ".", init, word .leftParen "(", paren, word .semicolon ";", .endOfText 1]
  have scanned : (scanSource step.source).result = .ok tokens := by decide +kernel
  have read : (Grammar.program tokens).1 = .ok [declaration, .expression call] := rfl
  simp only [step] at scanned
  simp only [step, Step.work, parseSource, Noted.andThen, scanned, read, Noted.done]
  rfl

/-- The machine on which the class was declared. -/
def declared : Machine := (execute 20 declaration).after (initial fun _ => 0).silent.machine

/-- The call of the class gives a new object, and every call of its initializer does so, too. -/
theorem initializers_yield_early :
    ∃ m₁ m f m', (initial fun _ => 0).Comes [step] ⟨17, .evaluate new, declared⟩ ∧
      (evaluate 17 new).Gives declared (.object 0) m ∧ Instantiates 16 0 [] m₁ 0 m ∧
      (evaluate 18 property).Gives declared f m' ∧ (initial fun _ => 0).Yields [step] f 0 := by
  have classDeclared :
      (execute 20 declaration).Gives (initial fun _ => 0).silent.machine .normal declared :=
    gives_after (by decide +kernel)
  have runs : (initial fun _ => 0).RunsTop step (.expression call) declared := by
    refine ⟨_, step_work, [declaration], [], rfl, ?_⟩
    rw [interpret_cons]
    exact bind_gives.2 ⟨_, _, classDeclared, rfl⟩
  have statement : (initial fun _ => 0).Comes [step] ⟨20, .execute (.expression call), declared⟩ :=
    .statement (List.nil_append [step]).symm runs
  have comes := (statement.on .value).on .callee
  have isClass : (evaluate 16 (.variable (.ofToken A))).Gives declared (.classRef 0) _ :=
    gives_after (by decide +kernel)
  have gives : (evaluate 17 new).Gives declared (.object 0) _ := gives_after (by decide +kernel)
  have given : (evaluate 18 property).Gives declared (.closure 2) _ :=
    gives_after (by decide +kernel)
  have noField : (((evaluate 17 new).after declared).heap.objects[0]?.bind
      (·.fields.get? "init")) = none := by decide +kernel
  obtain ⟨classes, properties, -⟩ := initializers_yield (fun _ => 0) [step]
  obtain ⟨o, values, m₁, same, -, each, instantiates⟩ :=
    classes _ _ _ _ _ _ _ _ _ (comes.on .getObject) isClass gives
  cases same
  have yields := properties _ _ _ _ _ _ _ _ comes rfl gives
    (fun record found => by rwa [found] at noField) given
  have none : values = [] := by
    cases each.symm.trans (rfl : (evaluateEach 16 []).Gives _ [] _)
    rfl
  subst none
  exact ⟨m₁, _, _, _, comes.on .getObject, gives, instantiates, given, yields⟩

end EarlyReturn

/-- A source that puts a function in the field of an object that has the name of its initializer. -/
def shadowing : String :=
  "class A \x7b init() \x7b\x7d \x7d var a = A(); a.init = fun () \x7b return true; \x7d;"

/-- A source in which an initializer calls itself once on its object. -/
def repeating : String :=
  "var once = false; var twice = false; class A \x7b init() \x7b " ++
    "if (once) twice = true; else \x7b once = true; this.init(); \x7d \x7d \x7d A();"

/-- A field that has the name of the initializer is called in its place, and an initializer that
calls itself has run more than once on the object of one call of the class. -/
theorem initializer_shadowed_and_repeated :
    let s := ((initial fun _ => 0).step 40 (.run 1) shadowing).2
    let r := ((initial fun _ => 0).step 40 (.run 1) repeating).2
    (s.step 40 .evaluate "a").1.result = .ok (some (.object 0)) ∧
      (s.step 40 .evaluate "a.init()").1.result = .ok (some (.boolean true)) ∧
      (r.step 40 .evaluate "twice").1.result = .ok (some (.boolean true)) := by
  decide +kernel

end Session

end TreeWalk
