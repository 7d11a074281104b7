import TreeWalk.Proofs.Run.Containing
import TreeWalk.Proofs.Run.Sequels
import TreeWalk.Proofs.Run.Upholding

/-!
# Links of all machines that are passed

On every machine that a session passes, also in the midst of a step that fails, the links
of frames and classes end and no class is changed. So a value that is called takes as many
arguments after they were evaluated as it took before.

## Implementation notes

A machine is passed if a step starts or ends on it, or any task that a step comes to. In
between a task changes nothing but what it is itself about to use, apart from a class
declaration: while its superclass is looked up its name is bound to nil. This machine is
counted among those passed.
-/

namespace TreeWalk

open Eval

variable {m : Machine}

/-- What a task is about is on a heap. -/
def Task.IsThere (h : Heap) : Task → Prop
  | .apply callee arguments => h.Refers callee ∧ ∀ v ∈ arguments, h.Refers v
  | .enter closure arguments =>
    closure.frame < h.frames.size ∧ ∀ v ∈ arguments, h.Refers v
  | _ => True

/-- A visit starts on a linked machine that has what its task is about. -/
structure Visit.Ready (v : Visit) : Prop where
  linked : v.machine.Linked
  there : v.task.IsThere v.machine.heap

theorem Visit.Ready.after {v : Visit} (h : v.Ready) : v.after.Linked := by
  obtain ⟨n, task, m⟩ := v
  obtain ⟨linked, there⟩ := h
  cases task with
  | evaluate e => exact ((upholdsAt n).evaluate e linked).linked
  | evaluateEach items => exact ((upholdsAt n).evaluateEach items linked).linked
  | apply => exact ((upholdsAt n).apply linked there.1 there.2).linked
  | enter => exact ((upholdsAt n).enter linked there.1 there.2).linked
  | execute s => exact ((upholdsAt n).execute s linked).linked
  | executeEach body => exact ((upholdsAt n).executeEach body linked).linked

/-- What a ready visit starts is ready too. -/
theorem Starts.ready {v v' : Visit} (h : Starts v v') (ready : v.Ready) : v'.Ready := by
  obtain ⟨linked, there⟩ := ready
  cases h with
  | binaryRight run | logicalRight run | consequent run | alternative run | arguments run
  | setValue run | otherItems run | branchConsequent run | branchAlternative run | loopBody run =>
      exact ⟨((upholdsAt _).evaluate _ linked).linked_gives run, trivial⟩
  | otherStatements run => exact ⟨((upholdsAt _).execute _ linked).linked_gives run, trivial⟩
  | @called n m _ _ callee _ arguments _ _ run _ run' =>
      have first := (upholdsAt n).evaluate callee linked
      have others := (upholdsAt n).evaluateEach arguments (first.linked_gives run)
      exact ⟨others.linked_gives run', (first.gives run).later (others.grows_gives run'),
        others.gives run'⟩
  | closure found =>
      exact ⟨linked, linked.heap.closures found, there.2⟩
  | @initializer _ _ _ _ _ method _ _ _ _ made _ run found =>
      have object := newObject_upholds linked there.1
      have bound := bind_upholds (object.linked_gives made) (object.gives made) method
      have linked' := bound.linked_gives run
      have grows := (object.grows_gives made).trans (bound.grows_gives run)
      exact ⟨linked', linked'.heap.closures found, fun v among => (there.2 v among).later grows⟩
  | @body _ _ _ _ _ closure arguments frame _ first second third =>
      have outer := newFrame_upholds linked there.1
      have each : ∀ v ∈ arguments, _ := fun v among =>
        (there.2 v among).later (outer.grows_gives first)
      have params := defineEach_upholds (outer.linked_gives first) each frame closure.params
      have inside := Nat.lt_of_lt_of_le (outer.gives first) (params.grows_gives second).size
      have inner := newFrame_upholds (params.linked_gives second) inside
      have inside' := inner.gives third
      exact ⟨⟨(inner.linked_gives third).heap, inside'⟩, trivial⟩
  | block made =>
      have frame := newFrame_upholds linked linked.inside
      have inside := frame.gives made
      exact ⟨⟨(frame.linked_gives made).heap, inside⟩, trivial⟩
  | loopAgain run _ run' =>
      have linked' := ((upholdsAt _).evaluate _ linked).linked_gives run
      exact ⟨((upholdsAt _).execute _ linked').linked_gives run', trivial⟩
  | _ => exact ⟨linked, trivial⟩

theorem interpret_grown (fuel : Nat) (body : List Stmt) : (interpret fuel body).Leaves Grown :=
  ((Work.statements body).act_here fuel).grown

theorem interpret_upholds (fuel : Nat) (body : List Stmt) (linked : m.Linked) :
    (interpret fuel body).Upholds m fun _ _ => True := by
  induction body generalizing m with
  | nil => exact .pure linked trivial
  | cons s rest ih =>
      rw [interpret_cons]
      exact ((upholdsAt fuel).execute s linked).bind fun linked₁ _ _ => ih linked₁

theorem Work.act_upholds (work : Work) (fuel : Nat) (linked : m.Linked) :
    (work.act fuel).Upholds m fun _ _ => True := by
  cases work with
  | statements body => exact interpret_upholds fuel body linked
  | expression e =>
      have value := (upholdsAt fuel).evaluate e linked
      exact .map ⟨value.linked, value.grows, fun _ => trivial⟩

theorem Heap.initial_linked : Heap.initial.Linked := by
  have link (i : FrameId) : Heap.initial.frames.parent? i = none := by
    show (Frames.empty.push none).parent? i = none
    rw [Frames.parent?_push]
    split <;> rfl
  constructor
  case nonempty => exact Nat.one_pos
  case parent =>
    intro i p found
    cases (link i).symm.trans found
  case outermost =>
    intro i inside
    exact iff_of_true (link i) (Nat.lt_one_iff.1 inside)
  case locals =>
    intro i x v bound
    change (Frames.empty.push none).local? i x = some v at bound
    rw [Frames.local?_push] at bound
    split at bound <;> cases bound
  all_goals
    intro id _ found
    cases found

theorem Machine.initial_linked (readings : Nat → Float) : (Machine.initial readings).Linked where
  heap := Heap.initial_linked.define (v := .clock) trivial _ _
  inside := by simp [initial, Heap.initial, Machine.globals]

namespace Session

variable {s : Session} {steps : List Step}

theorem silent_linked (linked : s.machine.Linked) : s.silent.machine.Linked :=
  ⟨linked.heap, linked.inside⟩

theorem next_linked (step : Step) (linked : s.machine.Linked) : (s.next step).machine.Linked := by
  rw [next_machine]
  exact (step.work.act_upholds step.fuel (silent_linked linked)).linked

theorem sequel_linked (steps : List Step) (linked : s.machine.Linked) :
    (s.sequel steps).machine.Linked := by
  induction steps generalizing s with
  | nil => exact linked
  | cons step steps ih => exact ih (next_linked step linked)

theorem sequel_grown (s : Session) (steps : List Step) :
    s.machine.heap.Grows (s.sequel steps).machine.heap :=
  (s.sequel_here steps).heap.mono fun _ _ => trivial

/-- A step lies within the steps that it is one of. -/
theorem step_lies (s : Session) (before : List Step) (step : Step) (after : List Step) :
    Lies s.machine (s.sequel (before ++ step :: after)).machine (s.sequel before).silent.machine
      ((s.sequel before).next step).machine where
  before := s.sequel_grown before
  behind := by
    rw [sequel_append]
    exact ((s.sequel before).next step).sequel_grown after

/-- What steps of a session come to, each in any mode: the statements of a program, as often
as they are run, or an expression, and what these start. -/
inductive Comes (s : Session) (steps : List Step) : Visit → Prop
  | statement {before step after statement mid} : steps = before ++ step :: after →
      (s.sequel before).RunsTop step statement mid →
      Comes s steps ⟨step.fuel, .execute statement, mid⟩
  | expression {before step after e} : steps = before ++ step :: after →
      step.work = .expression e →
      Comes s steps ⟨step.fuel, .evaluate e, (s.sequel before).silent.machine⟩
  | on {v v'} : Comes s steps v → Starts v v' → Comes s steps v'

/-- The machines that steps of a session pass: those between two steps, those on which a
task starts and ends, and those on which the superclass of a class is looked up. -/
inductive Passed (s : Session) (steps : List Step) : Machine → Prop
  | between {before after} : steps = before ++ after → Passed s steps (s.sequel before).machine
  | start {v} : s.Comes steps v → Passed s steps v.machine
  | finish {v} : s.Comes steps v → Passed s steps v.after
  | declaring {fuel name parent methods mid} :
      s.Comes steps ⟨fuel + 1, .execute (.classDecl name parent methods), mid⟩ →
      Passed s steps (mid.binding name.lexeme .nil)

variable {v : Visit}

theorem RunsTop.contained {step : Step} {statement : Stmt} (h : s.RunsTop step statement m) :
    (step.work.act step.fuel).Contains s.silent.machine (execute step.fuel statement) m := by
  obtain ⟨_, work, before, after, rfl, gives⟩ := h
  have split : step.work.act step.fuel = interpret step.fuel before >>= fun _ =>
      execute step.fuel statement >>= fun _ => interpret step.fuel after := by
    rw [work, Work.act, ← interpret_cons]
    exact List.forM_append
  rw [split]
  exact .next gives (interpret_grown _ _) (.first .self fun _ => interpret_grown _ _)

/-- Whatever steps come to lies within them. -/
theorem Comes.lies (h : s.Comes steps v) :
    Lies s.machine (s.sequel steps).machine v.machine v.after := by
  induction h with
  | @statement before step after statement m cut runs =>
      subst cut
      have contained := runs.contained
      rw [Contains, ← next_machine] at contained
      exact (s.step_lies before step after).trans contained
  | @expression before step after e cut work =>
      subst cut
      refine (s.step_lies before step after).trans ⟨.refl _ _, ?_⟩
      rw [next_machine, work, Work.act, after_map]
      exact .refl _ _
  | on _ starts ih => exact ih.trans starts.lies

theorem Comes.ready (h : s.Comes steps v) (linked : s.machine.Linked) : v.Ready := by
  induction h with
  | @statement before _ _ _ _ _ runs =>
      obtain ⟨_, _, before', _, _, gives⟩ := runs
      have linked' := silent_linked (sequel_linked before linked)
      exact ⟨(interpret_upholds _ before' linked').linked_gives gives, trivial⟩
  | @expression before => exact ⟨silent_linked (sequel_linked before linked), trivial⟩
  | on _ starts ih => exact starts.ready ih

/-- While the superclass of a class is looked up the machine lies within the declaration. -/
theorem declaring_grown (n : Nat) (name : Token) (parent : Option Reference)
    (methods : List FunctionDecl) (m : Machine) :
    (m.binding name.lexeme .nil).heap.Grows
      ((execute (n + 1) (.classDecl name parent methods)).after m).heap := by
  let rest : Eval Unit := do finishClass name methods (← superclassOf parent)
  have grown : rest.Leaves Grown :=
    .bind (Leaves.of_quiet (superclassOf_quiet _)) fun _ =>
      Leaves.of_quiet (finishClass_quiet _ _ _)
  have whole : (execute (n + 1) (.classDecl name parent methods)).after m =
      rest.after (m.binding name.lexeme .nil) := by
    simp only [execute, Clauses.execute]
    rw [after_bind_pure, declareClass_finish]
    rfl
  rw [whole]
  exact grown _

theorem Passed.linked (h : s.Passed steps m) (linked : s.machine.Linked) : m.Linked := by
  cases h with
  | @between before => exact sequel_linked before linked
  | start comes => exact (comes.ready linked).linked
  | finish comes => exact (comes.ready linked).after
  | declaring comes =>
      exact (defineHere_upholds (v := .nil) (comes.ready linked).linked trivial _).linked

theorem Passed.grown (h : s.Passed steps m) : m.heap.Grows (s.sequel steps).machine.heap := by
  cases h with
  | @between before after cut =>
      rw [cut, sequel_append]
      exact sequel_grown _ after
  | start comes => exact (Visit.after_grown _).trans comes.lies.behind
  | finish comes => exact comes.lies.behind
  | declaring comes => exact (declaring_grown _ _ _ _ _).trans comes.lies.behind

/-- On every machine that steps of a session pass, the links of frames end at the global one
and those of classes end, without coming anywhere twice; the searches along them end; and
each class is the one that it still is in the end. So a value that is called takes as many
arguments after they were evaluated, or stopped the run, as it took before. -/
theorem links_lead_back (readings : Nat → Float) (steps : List Step) :
    (∀ m : Machine, (initial readings).Passed steps m → m.Linked ∧ m.heap.Grounded ∧
        ∀ (c : ClassId) record, m.heap.classes[c]? = some record →
          ((initial readings).sequel steps).machine.heap.classes[c]? = some record) ∧
      ∀ n callee paren arguments m f m₁,
        (initial readings).Comes steps ⟨n + 1, .evaluate (.call callee paren arguments), m⟩ →
        (evaluate n callee).Gives m f m₁ →
        ((evaluateEach n arguments).after m₁).heap.arity? f = m₁.heap.arity? f := by
  have first : (initial readings).machine.Linked := Machine.initial_linked readings
  constructor
  · intro m passed
    have linked := passed.linked first
    exact ⟨linked, linked.heap.grounded, fun _ _ => passed.grown.classes⟩
  · intro n callee paren arguments m f m₁ comes gives
    have evaluated := (upholdsAt n).evaluate callee (comes.ready first).linked
    exact (evaluateEach_grown n arguments m₁).arity?_eq (evaluated.gives gives)
      (evaluated.linked_gives gives).heap.method_inside

/-- A class that is declared again with a superclass that inherits from its old self. -/
def redeclaring : Step := ⟨5, .runRaw 1, "class A\x7b\x7d class B<A\x7b\x7d class A<B\x7b\x7d"⟩

/-- The new class leads back to the old one of its name. -/
theorem links_lead_back_redeclared :
    let m := ((initial fun _ => 0).sequel [redeclaring]).machine
    (initial fun _ => 0).Passed [redeclaring] m ∧ m.Linked ∧ m.heap.Grounded ∧
      m.heap.lineage 2 = [2, 1, 0] := by
  intro m
  have passed : (initial fun _ => 0).Passed [redeclaring] m := .between (List.append_nil _).symm
  obtain ⟨linked, grounded, -⟩ := (links_lead_back (fun _ => 0) [redeclaring]).1 m passed
  exact ⟨passed, linked, grounded, by decide +kernel⟩

end Session

end TreeWalk
