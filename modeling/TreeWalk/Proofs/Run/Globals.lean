import Mathlib.Data.List.Induction
import TreeWalk.Proofs.Run.Blaming
import TreeWalk.Proofs.Run.TopLevel

/-!
# Which names are global

After any steps of a session the global names are the clock and the names that statements
of the programs themselves have declared. Nothing else binds a global name: no block, no
call and no assignment.

## Implementation notes

A class binds its name to nil before its superclass is looked up. So the name stays bound
if the superclass cannot be found or is no class, and this is the one way in which a
declaration that does not complete leaves a name behind.
-/

namespace TreeWalk

open Eval

variable {fuel : Nat} {m m' : Machine} {x : String}

/-- A frame of a machine binds a name. -/
abbrev Machine.Has (m : Machine) (i : FrameId) (x : String) : Prop := m.heap.frames.Has i x

/-- The frames of a machine have the same names in another one that goes on from it. -/
def Machine.KeepsNames (m m' : Machine) : Prop :=
  ∀ i x, m.Has i x ↔ i < m.heap.frames.size ∧ m'.Has i x

theorem Eval.Leaves.keepsNames {α : Type} {act : Eval α} (quiet : act.Quiet) (m : Machine) :
    m.KeepsNames (act.after m) := by
  intro i x
  have grown := quiet m
  constructor
  · intro has
    exact ⟨Frames.size_of_has has, grown.has i x has⟩
  · rintro ⟨inside, has⟩
    exact grown.fresh i inside id x has

theorem Machine.KeepsNames.has_iff (h : m.KeepsNames m') {i : FrameId}
    (inside : i < m.heap.frames.size) : m'.Has i x ↔ m.Has i x :=
  ⟨fun has => (h i x).2 ⟨inside, has⟩, fun has => ((h i x).1 has).2⟩

theorem Machine.has_binding {name : String} {value : Value} {i : FrameId} (here : m.current = i)
    (inside : i < m.heap.frames.size) :
    (m.binding name value).Has i x ↔ m.Has i x ∨ x = name := by
  subst here
  rw [Has, binding]
  refine (Frames.has_define inside).trans ⟨?_, ?_⟩
  · rintro (⟨-, same⟩ | has)
    · exact .inr same
    · exact .inl has
  · rintro (has | same)
    · exact .inr has
    · exact .inl ⟨rfl, same⟩

/-- A statement declares a name on a machine: it completes, or it is a class that is left by
an error of its superclass, which is looked up with the name bound to nil. -/
def Stmt.Declares (fuel : Nat) (s : Stmt) (m : Machine) (x : String) : Prop :=
  ∃ name ∈ s.declared?, x = name.lexeme ∧
    ((∃ completion m', (execute fuel s).Gives m completion m') ∨
      ∃ reference methods e, s = .classDecl name (some reference) methods ∧
        (execute fuel s).Fails m (.error e) ∧
        (readClass reference).Fails (m.binding name.lexeme .nil) (.error e))

/-- What is computed before a name is bound to it binds no name itself. -/
theorem bindsHere_global {act : Eval Value} {name : String} (quiet : act.Quiet) (stays : act.Stays)
    (global : m.current = Machine.globals) (nonempty : Machine.globals < m.heap.frames.size) :
    let whole : Eval Completion := do
      let value ← act
      defineHere name value
      return .normal
    (whole.after m).Has Machine.globals x ↔
      m.Has Machine.globals x ∨ x = name ∧ ∃ completion m', whole.Gives m completion m' := by
  intro whole
  have kept := Leaves.keepsNames quiet m
  cases run : act m with
  | ok value m₁ =>
      have gives : act.Gives m value m₁ := run
      have completes : whole.Gives m .normal (m₁.binding name value) := by
        show whole m = _
        exact bind_of_gives gives
      have here : m₁.current = Machine.globals := (stays.gives gives).trans global
      have inside := Nat.lt_of_lt_of_le nonempty (quiet.gives gives).size
      rw [after_of_gives gives] at kept
      rw [after_of_gives completes, Machine.has_binding here inside, kept.has_iff nonempty]
      exact or_congr Iff.rfl ⟨fun same => ⟨same, _, _, completes⟩, And.left⟩
  | error stop m₁ =>
      have fails : whole m = .error stop m₁ := bind_of_error run
      rw [after_of_error run] at kept
      rw [after_of_error fails, kept.has_iff nonempty]
      constructor
      · exact .inl
      · rintro (has | ⟨-, completion, m', gives⟩)
        · exact has
        · cases fails.symm.trans gives

/-- A statement that is no class declares its name if it completes. -/
theorem Stmt.declares_iff {s : Stmt} {name : Token} (declared : s.declared? = some name)
    (noClass : ∀ parent methods, s ≠ .classDecl name parent methods) :
    s.Declares fuel m x ↔
      x = name.lexeme ∧ ∃ completion m', (execute fuel s).Gives m completion m' := by
  unfold Stmt.Declares
  rw [declared]
  constructor
  · rintro ⟨_, ⟨⟩, same, completes | ⟨reference, methods, e, isClass, -⟩⟩
    · exact ⟨same, completes⟩
    · exact absurd isClass (noClass _ _)
  · rintro ⟨same, completes⟩
    exact ⟨name, rfl, same, .inl completes⟩

theorem methodFrame_ends (superclass : Option ClassId) (m : Machine) :
    ∃ frame m', (methodFrame superclass).Gives m frame m' := by
  cases superclass with
  | none => exact ⟨_, _, rfl⟩
  | some parent => exact ⟨_, _, rfl⟩

theorem newMethods_ends (frame : FrameId) (methods : List FunctionDecl) (m : Machine) :
    ∃ made m', (newMethods frame methods).Gives m made m' := by
  induction methods generalizing m with
  | nil => exact ⟨_, _, rfl⟩
  | cons method rest ih =>
      let closure : Closure := ⟨some method.name.lexeme, method.params, method.body, frame,
        method.name.lexeme = "init"⟩
      obtain ⟨made, m', gives⟩ := ih (m.mapHeap fun heap =>
        { heap with closures := heap.closures.push closure })
      refine ⟨(method.name.lexeme, m.heap.closures.size) :: made, m', ?_⟩
      simp only [newMethods, bind_gives, pure_gives]
      exact ⟨_, _, newClosure_gives _, _, _, gives, rfl, rfl⟩

/-- A class whose superclass is known is declared without fail. -/
theorem finishClass_ends (name : Token) (methods : List FunctionDecl)
    (superclass : Option ClassId) (has : m.Has m.current name.lexeme) :
    ∃ m', (finishClass name methods superclass).Gives m () m' := by
  obtain ⟨frame, m₁, framed⟩ := methodFrame_ends superclass m
  obtain ⟨made, m₂, closed⟩ := newMethods_ends frame methods m₁
  let record : ClassRecord := ⟨name.lexeme, superclass, .ofList made⟩
  let m₃ := m₂.mapHeap fun heap => { heap with classes := heap.classes.push record }
  have still : m₃.current = m.current :=
    ((staying.newMethods _ _).gives closed).trans ((staying.methodFrame _).gives framed)
  have has₃ : m₃.heap.frames.Has m.current name.lexeme :=
    ((newMethods_quiet _ _).gives closed).has _ _ (((methodFrame_quiet _).gives framed).has _ _ has)
  refine ⟨m₃.mapFrames (·.define m.current name.lexeme (.classRef m₂.heap.classes.size)), ?_⟩
  simp only [finishClass, bind_gives]
  exact ⟨_, _, framed, _, _, closed, _, _, newClass_gives record, _, _, target_gives still has₃,
    define_gives _ _ _⟩

/-- A superclass that is looked up among the globals is missing or is no class; nothing
else can go wrong. -/
theorem readClass_fails {reference : Reference} {stop : Stop}
    (global : reference.distance = none) (fails : (readClass reference).Fails m stop) :
    ∃ e, stop = .error e := by
  obtain missing | ⟨value, mid, -, noClass⟩ := bind_fails.1 fails
  · have unbound := inspect_fails.1 missing
    rw [global] at unbound
    exact ⟨_, Frames.read_error unbound⟩
  · split at noClass
    · simp at noClass
    · exact ⟨_, throw_fails.1 noClass⟩

theorem superclassOf_fails {parent : Option Reference} {stop : Stop}
    (fails : (superclassOf parent).Fails m stop) :
    ∃ reference, parent = some reference ∧ (readClass reference).Fails m stop := by
  cases parent with
  | none => exact (pure_fails.1 fails).elim
  | some reference => exact ⟨reference, rfl, map_fails.1 fails⟩

/-- The name of a class is bound whatever becomes of its superclass. -/
theorem declareClass_global (name : Token) (parent : Option Reference)
    (methods : List FunctionDecl) (global : m.current = Machine.globals)
    (nonempty : Machine.globals < m.heap.frames.size) :
    ((declareClass name parent methods).after m).Has Machine.globals x ↔
      m.Has Machine.globals x ∨ x = name.lexeme := by
  let rest : Eval Unit := do finishClass name methods (← superclassOf parent)
  have quiet : rest.Quiet := .bind (superclassOf_quiet parent) fun _ => finishClass_quiet _ _ _
  have kept := Leaves.keepsNames quiet (m.binding name.lexeme .nil)
  have inside : Machine.globals < (m.binding name.lexeme .nil).heap.frames.size := by
    rwa [Machine.binding, Machine.mapFrames, Machine.mapHeap, Frames.size_define]
  rw [← Machine.has_binding global nonempty, ← kept.has_iff inside, declareClass_finish]
  rfl

/-- The declaration of a class at the top level completes, or an error of its superclass
is left. -/
theorem classDecl_ends (name : Token) {parent : Option Reference} (methods : List FunctionDecl)
    (located : ∀ reference ∈ parent, reference.distance = none)
    (inside : m.current < m.heap.frames.size) :
    (∃ completion m', (execute (fuel + 1) (.classDecl name parent methods)).Gives m completion m') ∨
      ∃ reference e, parent = some reference ∧
        (execute (fuel + 1) (.classDecl name parent methods)).Fails m (.error e) ∧
        (readClass reference).Fails (m.binding name.lexeme .nil) (.error e) := by
  let m₁ := m.binding name.lexeme .nil
  have first : (defineHere name.lexeme .nil).Gives m () m₁ := rfl
  have has₁ : m₁.Has m₁.current name.lexeme := (Machine.has_binding rfl inside).2 (.inr rfl)
  simp only [execute, Clauses.execute, Completion.handed_normal, declareClass_finish]
  cases run : superclassOf parent m₁ with
  | ok superclass m₂ =>
      have looked : (superclassOf parent).Gives m₁ superclass m₂ := run
      have has₂ : m₂.Has m₂.current name.lexeme := by
        rw [(staying.superclassOf parent).gives looked]
        exact ((superclassOf_quiet parent).gives looked).has _ _ has₁
      obtain ⟨m₃, finished⟩ := finishClass_ends name methods superclass has₂
      refine .inl ⟨.normal, m₃, ?_⟩
      simp only [bind_gives]
      exact ⟨_, _, ⟨_, _, first, _, _, looked, finished⟩, rfl⟩
  | error stop m₂ =>
      obtain ⟨reference, rfl, missing⟩ := superclassOf_fails ⟨m₂, run⟩
      obtain ⟨e, rfl⟩ := readClass_fails (located reference rfl) missing
      refine .inr ⟨reference, e, rfl, ?_, missing⟩
      exact bind_fails.2 (.inl (bind_fails.2 (.inr ⟨(), m₁, first, bind_fails.2 (.inl ⟨m₂, run⟩)⟩)))

/-- After a statement at the top level the global names are those before it and the one
that it declares. -/
theorem execute_global {s : Stmt} (atTop : s.AtTop) (global : m.current = Machine.globals)
    (nonempty : Machine.globals < m.heap.frames.size) :
    ((execute fuel s).after m).Has Machine.globals x ↔
      m.Has Machine.globals x ∨ s.Declares fuel m x := by
  cases fuel with
  | zero =>
      have declaresNothing : ¬s.Declares 0 m x := by
        rintro ⟨name, -, -, ⟨completion, m', gives⟩ | ⟨reference, methods, e, -, fails, -⟩⟩
        · exact throw_gives.1 gives
        · cases throw_fails.1 fails
      exact ⟨.inl, fun h => h.resolve_right declaresNothing⟩
  | succ n =>
      cases s with
      | varDecl name initial =>
          rw [Stmt.declares_iff rfl fun _ _ isClass => by cases isClass]
          cases initial with
          | none =>
              have binds := @bindsHere_global m x (pure .nil) name.lexeme (.pure _) (.pure _) global
                nonempty
              simpa only [execute, Clauses.execute, Completion.handed_normal, pure_bind] using binds
          | some initial =>
              simp only [execute, Clauses.execute]
              exact bindsHere_global ((extendsAt n).evaluate initial) ((staysAt n).evaluate initial)
                global nonempty
      | functionDecl function =>
          rw [Stmt.declares_iff rfl fun _ _ isClass => by cases isClass]
          simp only [execute, Clauses.execute]
          exact bindsHere_global (closeOver_quiet _ _ _) (staying.closeOver _ _ _) global nonempty
      | classDecl name parent methods =>
          have declares : (Stmt.classDecl name parent methods).Declares (n + 1) m x ↔
              x = name.lexeme := by
            constructor
            · rintro ⟨_, ⟨⟩, same, -⟩
              exact same
            · intro same
              refine ⟨name, rfl, same, ?_⟩
              obtain completes | ⟨reference, e, rfl, fails, missing⟩ :=
                classDecl_ends name methods atTop (global ▸ nonempty)
              · exact .inl completes
              · exact .inr ⟨reference, methods, e, rfl, fails, missing⟩
          rw [declares, ← declareClass_global name parent methods global nonempty]
          show ((declareClass name parent methods >>= fun _ => pure _).after m).Has _ x ↔ _
          rw [after_bind_pure]
      | expression | print | block | branch | loop | returns =>
          have kept := Leaves.keepsNames ((extendsAt (n + 1)).plain _ atTop) m
          have declaresNothing : ∀ s : Stmt, s.declared? = none → ¬s.Declares (n + 1) m x := by
            rintro s none ⟨name, declared, -⟩
            rw [none] at declared
            cases declared
          rw [kept.has_iff nonempty]
          exact ⟨.inl, fun h => h.resolve_right (declaresNothing _ rfl)⟩

/-- After statements at the top level the global names are those before them and the ones
that they declare, each on the machine on which its turn comes. -/
theorem interpret_global {body : List Stmt} (atTop : ∀ s ∈ body, s.AtTop)
    (global : m.current = Machine.globals) (nonempty : Machine.globals < m.heap.frames.size) :
    ((interpret fuel body).after m).Has Machine.globals x ↔
      m.Has Machine.globals x ∨ ∃ s mid, ComesTo fuel body m s mid ∧ s.Declares fuel mid x := by
  induction body generalizing m with
  | nil =>
      refine ⟨.inl, fun h => h.resolve_right ?_⟩
      rintro ⟨s, mid, comes, -⟩
      exact not_comesTo_nil comes
  | cons s rest ih =>
      have first : ((execute fuel s).after m).Has Machine.globals x ↔ _ :=
        execute_global (atTop s List.mem_cons_self) global nonempty
      simp only [interpret_cons, comesTo_cons]
      cases run : execute fuel s m with
      | error stop m₁ =>
          rw [after_of_error run] at first
          rw [after_of_error (bind_of_error run), first]
          refine or_congr Iff.rfl ⟨fun declares => ⟨s, m, .inl ⟨rfl, rfl⟩, declares⟩, ?_⟩
          rintro ⟨t, mid, ⟨rfl, rfl⟩ | ⟨completion, m₂, gives, -⟩, declares⟩
          · exact declares
          · cases gives.symm.trans run
      | ok completion m₁ =>
          have gives₁ : (execute fuel s).Gives m completion m₁ := run
          obtain ⟨still, grown⟩ := ((extendsAt fuel).execute s).gives gives₁
          have others := ih (fun t among => atTop t (List.mem_cons_of_mem _ among))
            (still.trans global) (Nat.lt_of_lt_of_le nonempty grown.size)
          rw [after_of_gives gives₁] at first
          rw [after_bind_of_gives gives₁, others, first, or_assoc]
          refine or_congr Iff.rfl ⟨?_, ?_⟩
          · rintro (declares | ⟨t, mid, comes, declares⟩)
            · exact ⟨s, m, .inl ⟨rfl, rfl⟩, declares⟩
            · exact ⟨t, mid, .inr ⟨completion, m₁, gives₁, comes⟩, declares⟩
          · rintro ⟨t, mid, ⟨rfl, rfl⟩ | ⟨_, _, gives, comes⟩, declares⟩
            · exact .inl declares
            · cases gives.symm.trans gives₁
              exact .inr ⟨t, mid, comes, declares⟩

theorem Bindings.isSome_get? {α : Type} {b : Bindings α} :
    (b.get? x).isSome ↔ x ∈ b.entries.map Prod.fst := by
  obtain ⟨entries⟩ := b
  show (entries.lookup x).isSome ↔ _
  induction entries with
  | nil => simp
  | cons entry rest ih =>
      rw [lookup_entry, List.map_cons, List.mem_cons, ← ih]
      split
      next same => simp [same]
      next other => simp [other]

namespace Session

/-- A step declares a name: one of the statements that it runs does, when its turn comes. -/
def Declares (s : Session) (step : Step) (x : String) : Prop :=
  ∃ statement m, s.RunsTop step statement m ∧ statement.Declares step.fuel m x

theorem mem_globals {s : Session} :
    x ∈ s.globals.map Prod.fst ↔ s.machine.Has Machine.globals x := by
  unfold globals Machine.Has Frames.Has Frames.local? Machine.frames
  cases s.machine.heap.frames.all[Machine.globals]? with
  | none => simp
  | some frame =>
      have same := (List.mergeSort_perm frame.bindings.entries
        fun one other => decide (one.1 ≤ other.1)).map Prod.fst
      show x ∈ frame.bindings.sorted.map Prod.fst ↔ (frame.bindings.get? x).isSome
      rw [Bindings.sorted, same.mem_iff, Bindings.isSome_get?]

theorem initial_has (readings : Nat → Float) :
    (Machine.initial readings).Has Machine.globals x ↔ x = "clock" := by
  have inside : Machine.globals < (Frames.empty.push none : Frames Value).size := by
    simp [Machine.globals]
  refine (Frames.has_define inside).trans ⟨?_, fun same => .inl ⟨rfl, same⟩⟩
  rintro (⟨-, same⟩ | has)
  · exact same
  · exact absurd rfl (Frames.has_push.1 has).1

/-- A step makes those names global that it declares. -/
theorem next_global {s : Session} {step : Step} (global : s.machine.current = Machine.globals)
    (nonempty : Machine.globals < s.machine.heap.frames.size) :
    (s.next step).machine.Has Machine.globals x ↔
      s.machine.Has Machine.globals x ∨ s.Declares step x := by
  rw [next_machine]
  cases work : step.work with
  | statements body =>
      have names : ((interpret step.fuel body).after s.silent.machine).Has Machine.globals x ↔ _ :=
        interpret_global (Step.atTop work) global nonempty
      refine names.trans (or_congr Iff.rfl ⟨?_, ?_⟩)
      · rintro ⟨statement, m, comes, declares⟩
        exact ⟨statement, m, ⟨body, work, comes⟩, declares⟩
      · rintro ⟨statement, m, ⟨_, same, comes⟩, declares⟩
        cases same.symm.trans work
        exact ⟨statement, m, comes, declares⟩
  | expression e =>
      have kept := Leaves.keepsNames ((extendsAt step.fuel).evaluate e) s.silent.machine
      rw [Work.act, after_map, kept.has_iff nonempty]
      refine ⟨.inl, fun h => h.resolve_right ?_⟩
      rintro ⟨statement, m, ⟨body, other, -⟩, -⟩
      cases work.symm.trans other

theorem sequel_global (readings : Nat → Float) (steps : List Step) :
    let s := (initial readings).sequel steps
    s.machine.current = Machine.globals ∧ Machine.globals < s.machine.heap.frames.size := by
  obtain ⟨still, grown⟩ := (initial readings).sequel_here steps
  exact ⟨still, Nat.lt_of_lt_of_le Nat.one_pos grown.size⟩

/-- The global frame has the clock and what the steps have declared, each behind those before
it. -/
theorem sequel_has (readings : Nat → Float) (steps : List Step) :
    ((initial readings).sequel steps).machine.Has Machine.globals x ↔
      x = "clock" ∨ ∃ before step after, steps = before ++ step :: after ∧
        ((initial readings).sequel before).Declares step x := by
  induction steps using List.reverseRecOn with
  | nil =>
      refine (initial_has readings).trans ⟨.inl, fun h => h.resolve_right ?_⟩
      rintro ⟨before, step, after, cut, -⟩
      simp at cut
  | append_singleton steps step ih =>
      obtain ⟨global, nonempty⟩ := sequel_global readings steps
      rw [sequel_append]
      refine (next_global global nonempty).trans ?_
      rw [ih, or_assoc]
      refine or_congr Iff.rfl ⟨?_, ?_⟩
      · rintro (⟨before, other, after, rfl, declares⟩ | declares)
        · exact ⟨before, other, after ++ [step], by simp, declares⟩
        · exact ⟨steps, step, [], rfl, declares⟩
      · rintro ⟨before, other, after, cut, declares⟩
        obtain rfl | ⟨init, last, rfl⟩ := List.eq_nil_or_concat after
        · obtain ⟨rfl, same⟩ := List.append_inj' cut rfl
          cases same
          exact .inr declares
        · have cut' : steps ++ [step] = (before ++ other :: init) ++ [last] := by
            simpa using cut
          obtain ⟨rfl, -⟩ := List.append_inj' cut' rfl
          exact .inl ⟨before, other, init, rfl, declares⟩

/-- After any steps of a session the global names are the clock and those that a step has
declared. Expressions, calls, blocks and all other statements that are no declarations bind
no name in any frame that was there before them, whatever the machine is. -/
theorem globals_are_declared (readings : Nat → Float) (steps : List Step) (x : String) :
    (x ∈ ((initial readings).sequel steps).globals.map Prod.fst ↔
        x = "clock" ∨ ∃ before step after, steps = before ++ step :: after ∧
          ((initial readings).sequel before).Declares step x) ∧
      ∀ (fuel : Nat) (m : Machine), (∀ e : Expr, m.KeepsNames ((evaluate fuel e).after m)) ∧
        (∀ (callee : Value) (arguments : List Value),
          m.KeepsNames ((apply fuel callee arguments).after m)) ∧
        ∀ s : Stmt, s.IsPlain → m.KeepsNames ((execute fuel s).after m) := by
  refine ⟨mem_globals.trans (sequel_has readings steps), fun fuel m => ?_⟩
  have grows := extendsAt fuel
  exact ⟨fun e => Leaves.keepsNames (grows.evaluate e) m,
    fun callee arguments => Leaves.keepsNames (grows.apply callee arguments) m,
    fun s isPlain => Leaves.keepsNames (grows.plain s isPlain) m⟩

/-- A class whose superclass is no class. -/
def inheritingFromNil : Step := ⟨5, .runRaw 1, "class A<A\x7b\x7d var b;"⟩

/-- The name of a class is global although its declaration did not complete, and what comes
after it is not. -/
theorem globals_are_declared_incomplete :
    let names := ((initial fun _ => 0).sequel [inheritingFromNil]).globals.map Prod.fst
    "A" ∈ names ∧ "b" ∉ names ∧
      ∃ before step after, [inheritingFromNil] = before ++ step :: after ∧
        ((initial fun _ => 0).sequel before).Declares step "A" := by
  intro names
  let fs := ((initial fun _ => 0).sequel [inheritingFromNil]).machine.heap.frames
  have isGlobal : "A" ∈ names :=
    mem_globals.2 (show (fs.local? Machine.globals "A").isSome = true by decide +kernel)
  have notGlobal : ¬(fs.local? Machine.globals "b").isSome = true := by decide +kernel
  have declared := (globals_are_declared (fun _ => 0) [inheritingFromNil] "A").1.1 isGlobal
  exact ⟨isGlobal, fun among => notGlobal (mem_globals.1 among),
    declared.resolve_left (by decide)⟩

end Session

end TreeWalk
