import TreeWalk.Proofs.Run.Containing
import TreeWalk.Proofs.Run.Globals

/-!
# The frame of the start is restored

Whatever is run, and however it ends, the machine is in the frame in which the run began. So
between two steps of a session the machine is at the top level, also if the step before
stopped in the midst of calls and blocks, and what the next step declares is global.

## Implementation notes

A declaration binds its name in the frame in which it is run, to a value that is told from the
machine before it. That this frame is the global one is then all there is to say of a
declaration at the top level.
-/

namespace TreeWalk

open Eval

variable {fuel : Nat} {m m' : Machine}

/-- The value to which a declaration binds its name: nil or the initial value of a variable,
a function that is new, or a class that is new. -/
inductive Stmt.Names (fuel : Nat) (m : Machine) : Stmt → Value → Prop
  | unset {name} : Names fuel m (.varDecl name none) .nil
  | initial {n name initial value m'} : fuel = n + 1 → (evaluate n initial).Gives m value m' →
      Names fuel m (.varDecl name (some initial)) value
  | function {function} : Names fuel m (.functionDecl function) (.closure m.heap.closures.size)
  | newClass {name parent methods} :
      Names fuel m (.classDecl name parent methods) (.classRef m.heap.classes.size)

/-- A name is bound to what it was just bound to. -/
theorem Machine.local?_binding {name : String} {value : Value} {frame : FrameId}
    (here : m.current = frame) (inside : frame < m.heap.frames.size) :
    (m.binding name value).heap.frames.local? frame name = some value := by
  subst here
  rw [binding]
  exact (Frames.local?_define _ _ _ _ _ _ inside).trans (if_pos ⟨rfl, rfl⟩)

namespace Eval

/-- Two machines have the same classes. -/
def SameClasses (m m' : Machine) : Prop := m'.heap.classes = m.heap.classes

instance : IsPreorder Machine SameClasses where
  refl _ := rfl
  trans _ _ _ h h' := h'.trans h

theorem superclassOf_sameClasses (parent : Option Reference) :
    (superclassOf parent).Leaves SameClasses := by
  cases parent with
  | none => exact .pure _
  | some reference =>
      apply Leaves.map
      have looked : (readReference reference).Leaves SameClasses := .inspect _
      apply looked.bind
      intro value
      cases value with
      | classRef id => exact .pure _
      | scalar | closure | object | clock => exact .throw _

theorem methodFrame_sameClasses (superclass : Option ClassId) :
    (methodFrame superclass).Leaves SameClasses := by
  cases superclass with
  | none => exact .bind .get fun _ => .pure _
  | some parent => exact fun _ => rfl

theorem newMethods_sameClasses (frame : FrameId) (methods : List FunctionDecl) :
    (newMethods frame methods).Leaves SameClasses := by
  induction methods with
  | nil => exact .pure _
  | cons method rest ih =>
      apply Leaves.bind (R := SameClasses)
      · exact fun _ => rfl
      · exact fun _ => ih.bind fun _ => .pure _

/-- Behind the look for its superclass a class gets the next number, and its name is bound to
it in the frame of the declaration. -/
theorem finishClass_names {name : Token} {methods : List FunctionDecl}
    {superclass : Option ClassId} (has : m.Has m.current name.lexeme)
    (run : (finishClass name methods superclass).Gives m () m') :
    m'.heap.frames.local? m.current name.lexeme = some (.classRef m.heap.classes.size) := by
  obtain ⟨frame, m₁, framed, run⟩ := bind_gives.1 run
  obtain ⟨made, m₂, closed, run⟩ := bind_gives.1 run
  obtain ⟨id, m₃, pushed, run⟩ := bind_gives.1 run
  obtain ⟨target, m₄, looked, bound⟩ := bind_gives.1 run
  have classes₂ : m₂.heap.classes = m.heap.classes :=
    ((newMethods_sameClasses _ _).gives closed).trans ((methodFrame_sameClasses _).gives framed)
  have still₂ : m₂.current = m.current :=
    ((staying.newMethods _ _).gives closed).trans ((staying.methodFrame _).gives framed)
  have has₂ : m₂.Has m.current name.lexeme :=
    ((newMethods_quiet _ _).gives closed).has _ _ (((methodFrame_quiet _).gives framed).has _ _ has)
  have still₃ : m₃.current = m.current := ((staying.newClass _).gives pushed).trans still₂
  have has₃ : m₃.Has m.current name.lexeme := ((newClass_quiet _).gives pushed).has _ _ has₂
  obtain ⟨rfl, rfl⟩ : target = m.current ∧ m₄ = m₃ := by
    cases looked.symm.trans (target_gives still₃ has₃)
    exact ⟨rfl, rfl⟩
  have number : id = m.heap.classes.size := by
    cases pushed
    rw [classes₂]
  cases bound
  rw [← number]
  exact (Frames.local?_define _ _ _ _ _ _ (Frames.size_of_has has₃)).trans (if_pos ⟨rfl, rfl⟩)

end Eval

/-- A declaration that completes has bound its name in the frame in which it was run. -/
theorem execute_names {s : Stmt} {name : Token} {completion : Completion}
    (declared : s.declared? = some name) (inside : m.current < m.heap.frames.size)
    (run : (execute fuel s).Gives m completion m') :
    ∃ value, s.Names fuel m value ∧
      m'.heap.frames.local? m.current name.lexeme = some value := by
  cases fuel with
  | zero => exact (throw_gives.1 run).elim
  | succ n =>
      cases s with
      | varDecl name initial =>
          cases declared
          cases initial with
          | none =>
              cases run
              exact ⟨_, .unset, Machine.local?_binding rfl inside⟩
          | some initial =>
              obtain ⟨value, m₁, evaluated, run⟩ := bind_gives.1 run
              have still : m₁.current = m.current := ((staysAt n).evaluate initial).gives evaluated
              have grown := ((extendsAt n).evaluate initial).gives evaluated
              refine ⟨value, .initial rfl evaluated, ?_⟩
              cases run
              exact Machine.local?_binding still (Nat.lt_of_lt_of_le inside grown.size)
      | functionDecl function =>
          cases declared
          cases run
          exact ⟨_, .function, Machine.local?_binding rfl inside⟩
      | classDecl name parent methods =>
          cases declared
          obtain ⟨_, m₁, declaring, run⟩ := bind_gives.1 run
          obtain ⟨-, rfl⟩ := pure_gives.1 run
          rw [declareClass_finish] at declaring
          obtain ⟨_, m₂, bound, declaring⟩ := bind_gives.1 declaring
          obtain ⟨superclass, m₃, looked, finished⟩ := bind_gives.1 declaring
          have first := ((defineHere_here name.lexeme .nil).gives bound)
          have has₂ : m₂.Has m.current name.lexeme := by
            cases bound
            exact (Machine.has_binding rfl inside).2 (.inr rfl)
          have still : m₃.current = m.current :=
            ((staying.superclassOf parent).gives looked).trans first.still
          have has₃ : m₃.Has m.current name.lexeme :=
            ((superclassOf_quiet parent).gives looked).has _ _ has₂
          have classes₂ : m₂.heap.classes = m.heap.classes := by
            cases bound
            rfl
          have classes₃ : m₃.heap.classes = m₂.heap.classes :=
            (superclassOf_sameClasses parent).gives looked
          refine ⟨_, .newClass, ?_⟩
          have named := finishClass_names (by rwa [still]) finished
          rwa [still, classes₃, classes₂] at named
      | expression | print | block | branch | loop | returns => cases declared

/-- Every task ends or stops in the frame in which it began. -/
theorem Visit.after_current (v : Visit) : v.after.current = v.machine.current := by
  obtain ⟨n, task, m⟩ := v
  have stays := staysAt n
  cases task with
  | evaluate e => exact stays.evaluate e m
  | evaluateEach items => exact stays.evaluateEach items m
  | apply callee arguments => exact stays.apply callee arguments m
  | enter closure arguments => exact stays.enter closure arguments m
  | execute s => exact stays.execute s m
  | executeEach body => exact stays.executeEach body m

namespace Session

variable {s : Session}

theorem RunsTop.here {step : Step} {statement : Stmt} (h : s.RunsTop step statement m) :
    Here s.silent.machine m := by
  obtain ⟨body, -, before, after, -, gives⟩ := h
  exact ((Work.statements before).act_here step.fuel).gives gives

/-- On every machine, whatever is run and however it ends, the machine is left in the frame in
which the run began. So after any steps of a session the machine is at the top level, each
statement of the next step starts there, and a declaration that completes has bound its name
in the global frame, and no name in any other frame that was there. -/
theorem frame_is_restored (readings : Nat → Float) :
    (∀ v : Visit, v.after.current = v.machine.current) ∧
      ∀ steps : List Step, let s := (initial readings).sequel steps
        s.machine.current = Machine.globals ∧ s.isAtTopLevel = true ∧
        ∀ (step : Step) (statement : Stmt) (m : Machine), s.RunsTop step statement m →
          m.current = Machine.globals ∧
          ∀ name ∈ statement.declared?, ∀ completion m',
            (execute step.fuel statement).Gives m completion m' →
            (∃ value, statement.Names step.fuel m value ∧
              m'.heap.frames.local? Machine.globals name.lexeme = some value) ∧
            ∀ i < m.heap.frames.size, i ≠ Machine.globals → ∀ x, m'.Has i x ↔ m.Has i x := by
  refine ⟨Visit.after_current, fun steps => ?_⟩
  intro s
  obtain ⟨global, nonempty⟩ := sequel_global readings steps
  have atTop : s.isAtTopLevel = true := by
    rw [isAtTopLevel, show s.machine.current = Machine.globals from global]
    rfl
  refine ⟨global, atTop, ?_⟩
  intro step statement m runs
  obtain ⟨still, more⟩ := runs.here
  have here : m.current = Machine.globals := still.trans global
  refine ⟨here, fun name declared completion m' gives => ⟨?_, ?_⟩⟩
  · have inside : m.current < m.heap.frames.size := by
      rw [here]
      exact Nat.lt_of_lt_of_le nonempty more.size
    have named := execute_names declared inside gives
    rwa [here] at named
  · intro i inside other x
    have grown := (((extendsAt step.fuel).execute statement).gives gives).heap
    constructor
    · exact grown.fresh i inside (fun same => other (same.trans here)) x
    · exact grown.has i x

/-- A step that stops in a block in a call. -/
def failingInside : Step := ⟨20, .runRaw 1, "fun f() \x7b \x7b f(f); \x7d \x7d f();"⟩

/-- A step that declares a variable. -/
def declaring : Step := ⟨5, .runRaw 1, "var b;"⟩

theorem declaring_work :
    declaring.work = .statements [.varDecl (TokenKind.word .identifier "b") none] := by
  let tokens : List Token :=
    [TokenKind.word .varWord "var", TokenKind.word .identifier "b", TokenKind.word .semicolon ";",
      .endOfText 1]
  have scanned : (scanSource "var b;").result = .ok tokens := by decide +kernel
  have read : (Grammar.program tokens).1 = .ok [.varDecl (TokenKind.word .identifier "b") none] :=
    rfl
  simp only [declaring, Step.work, parseSource, Noted.andThen, scanned, read, Noted.done]
  rfl

/-- The variable that is declared after the failure is global. -/
theorem frame_is_restored_inside :
    let s := (initial fun _ => 0).sequel [failingInside]
    let b : Token := TokenKind.word .identifier "b"
    (∃ f : Token, ((initial fun _ => 0).step 20 (.runRaw 1) failingInside.source).1.result =
        .error (.run (.error ⟨.argumentCount 0 1, f⟩))) ∧
      s.isAtTopLevel = true ∧
      s.RunsTop declaring (.varDecl b none) s.silent.machine ∧
      ∃ m', (execute 5 (.varDecl b none)).Gives s.silent.machine .normal m' ∧
        m'.heap.frames.local? Machine.globals "b" = some .nil := by
  intro s b
  have failed : ((initial fun _ => 0).step 20 (.runRaw 1) failingInside.source).1.result =
      .error (.run (.error ⟨.argumentCount 0 1, TokenKind.word .rightParen ")"⟩)) := by
    decide +kernel
  have runs : s.RunsTop declaring (.varDecl b none) s.silent.machine :=
    ⟨_, declaring_work, [], [], rfl, rfl⟩
  obtain ⟨-, tops⟩ := frame_is_restored fun _ => 0
  obtain ⟨-, atTop, declares⟩ := tops [failingInside]
  obtain ⟨-, binds⟩ := declares declaring (.varDecl b none) s.silent.machine runs
  have gives : (execute 5 (.varDecl b none)).Gives s.silent.machine .normal
      (s.silent.machine.binding "b" .nil) := rfl
  obtain ⟨⟨value, named, bound⟩, -⟩ := binds b rfl .normal _ gives
  cases named
  exact ⟨⟨_, failed⟩, atTop, runs, _, gives, bound⟩

end Session

end TreeWalk
