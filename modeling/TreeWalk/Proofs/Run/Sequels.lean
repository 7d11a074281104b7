import TreeWalk.Proofs.Run.Extending
import TreeWalk.Proofs.Run.Sessions

/-!
# Steps of any mode

A session goes on by steps of any mode, with the scope rules or without them, and also
after a step that failed. What a step does to the machine is to run its work: the
statements of its program one after the other, as often as it is to be run, or its
expression.

## Implementation notes

A source that cannot be prepared is no work. Running a program some times over is running
its statements some times over, so the rounds of a step are not told apart.
-/

namespace TreeWalk

open Eval

/-- A step of a session. -/
structure Step where
  fuel : Nat
  mode : Mode
  source : String

/-- What a step runs. -/
inductive Work
  | statements (body : List Stmt)
  | expression (e : Expr)

/-- Running a work on the machine. -/
def Work.act (fuel : Nat) : Work → Eval Unit
  | statements body => interpret fuel body
  | expression e => (fun _ => ()) <$> evaluate fuel e

/-- The statements of a program, as often as they are run. -/
def Work.rounds (times : Nat) (program : List Stmt) : Work :=
  .statements (List.replicate times program).flatten

/-- There is nothing to run. -/
def Work.none : Work := .statements []

/-- What a step is to run, once its source is prepared. -/
def Step.work (step : Step) : Work :=
  match step.mode with
  | .run times =>
    match (prepareSource step.source).result with
    | .ok (program, _) => .rounds times program
    | .error _ => .none
  | .runRaw times =>
    match (parseSource step.source).result with
    | .ok program => .rounds times program
    | .error _ => .none
  | .evaluate =>
    match parseExpression step.source >>= resolveExpression with
    | .ok (e, _) => .expression e
    | .error _ => .none
  | .evaluateRaw =>
    match parseExpression step.source with
    | .ok e => .expression e
    | .error _ => .none

/-- What holds of the statements of every program holds of those that a step runs. -/
theorem Step.forall_statements {p : Stmt → Prop} (step : Step)
    (prepared : ∀ {source program uses},
      (prepareSource source).result = .ok (program, uses) → ∀ s ∈ program, p s)
    (parsed : ∀ {source program}, (parseSource source).result = .ok program → ∀ s ∈ program, p s)
    {body : List Stmt} (work : step.work = .statements body) : ∀ s ∈ body, p s := by
  have rounds (times : Nat) (program : List Stmt) (each : ∀ s ∈ program, p s)
      (same : Work.rounds times program = .statements body) : ∀ s ∈ body, p s := by
    obtain rfl := Work.statements.inj same
    intro s among
    obtain ⟨round, isRound, among⟩ := List.mem_flatten.1 among
    rw [List.eq_of_mem_replicate isRound] at among
    exact each s among
  unfold Step.work at work
  split at work
  next times _ =>
    split at work
    next program _ found => exact rounds times program (prepared found) work
    next => exact rounds 0 [] nofun work
  next times _ =>
    split at work
    next program found => exact rounds times program (parsed found) work
    next => exact rounds 0 [] nofun work
  next =>
    split at work
    next => cases work
    next => exact rounds 0 [] nofun work
  next =>
    split at work
    next => cases work
    next => exact rounds 0 [] nofun work

/-- What holds of every expression that a source gives holds of that which a step evaluates. -/
theorem Step.of_expression {p : Expr → Prop} (step : Step)
    (prepared : ∀ {source e uses},
      parseExpression source >>= resolveExpression = .ok (e, uses) → p e)
    (parsed : ∀ {source e}, parseExpression source = .ok e → p e) {e : Expr}
    (work : step.work = .expression e) : p e := by
  unfold Step.work at work
  split at work
  next => split at work <;> cases work
  next => split at work <;> cases work
  next =>
    split at work
    next found =>
      cases work
      exact prepared found
    next => cases work
  next =>
    split at work
    next found =>
      cases work
      exact parsed found
    next => cases work

theorem interpret_cons (fuel : Nat) (s : Stmt) (rest : List Stmt) :
    interpret fuel (s :: rest) = execute fuel s >>= fun _ => interpret fuel rest := by
  show (execute fuel s >>= fun _ => pure ()) >>= (fun _ => interpret fuel rest) = _
  simp only [bind_assoc, pure_bind]

/-- A run of some statements comes to one of them on a machine, behind those before it. -/
def ComesTo (fuel : Nat) (body : List Stmt) (m : Machine) (s : Stmt) (mid : Machine) : Prop :=
  ∃ before after, body = before ++ s :: after ∧ (interpret fuel before).Gives m () mid

theorem not_comesTo_nil {fuel : Nat} {m mid : Machine} {s : Stmt} :
    ¬ComesTo fuel [] m s mid := by
  rintro ⟨before, after, cut, -⟩
  simp at cut

theorem comesTo_cons {fuel : Nat} {m mid : Machine} {s t : Stmt} {rest : List Stmt} :
    ComesTo fuel (s :: rest) m t mid ↔
      t = s ∧ mid = m ∨ ∃ completion m₁, (execute fuel s).Gives m completion m₁ ∧
        ComesTo fuel rest m₁ t mid := by
  constructor
  · rintro ⟨before, after, cut, gives⟩
    cases before with
    | nil =>
        obtain ⟨rfl, -⟩ := List.cons.inj cut
        exact .inl ⟨rfl, (pure_gives.1 gives).2⟩
    | cons u before =>
        obtain ⟨rfl, rfl⟩ := List.cons.inj cut
        rw [interpret_cons] at gives
        obtain ⟨completion, m₁, first, gives⟩ := bind_gives.1 gives
        exact .inr ⟨completion, m₁, first, before, after, rfl, gives⟩
  · rintro (⟨rfl, rfl⟩ | ⟨completion, m₁, first, before, after, rfl, gives⟩)
    · exact ⟨[], rest, rfl, rfl⟩
    · refine ⟨s :: before, after, rfl, ?_⟩
      rw [interpret_cons]
      exact bind_gives.2 ⟨completion, m₁, first, gives⟩

theorem interpretTimes_rounds (fuel : Nat) (program : List Stmt) (times : Nat) :
    Session.interpretTimes fuel program times =
      interpret fuel (List.replicate times program).flatten := by
  induction times with
  | zero => rfl
  | succ times ih =>
      rw [Session.interpretTimes, ih, List.replicate_succ, List.flatten_cons]
      exact List.forM_append.symm

theorem Work.act_here (work : Work) (fuel : Nat) : (work.act fuel).Leaves Here := by
  have ih := extendsAt fuel
  cases work with
  | expression e => exact .map (ih.here e)
  | statements body =>
      induction body with
      | nil => exact .pure _
      | cons s body rest =>
          rw [act, interpret_cons]
          exact .bind (ih.execute s) fun _ => rest

namespace Session

/-- A session after a step. -/
def next (s : Session) (step : Step) : Session := (s.step step.fuel step.mode step.source).2

/-- A session after some steps, whatever became of each. -/
def sequel (s : Session) (steps : List Step) : Session := steps.foldl next s

theorem run_machine {α : Type} (s : Session) (act : Eval α) :
    (s.run act).2.machine = act.after s.machine := by
  unfold run after EStateM.run
  cases act s.machine <;> rfl

/-- A step runs its work on the machine. -/
theorem next_machine (s : Session) (step : Step) :
    (s.next step).machine = (step.work.act step.fuel).after s.silent.machine := by
  obtain ⟨fuel, mode, source⟩ := step
  cases mode with
  | run times =>
      simp only [next, Session.step, Step.work]
      generalize prepareSource source = noted
      obtain ⟨notes, e | ⟨program, uses⟩⟩ := noted
      · rfl
      · show (run _ _).2.machine = _
        rw [run_machine, interpretTimes_rounds]
        rfl
  | runRaw times =>
      simp only [next, Session.step, Step.work]
      generalize parseSource source = noted
      obtain ⟨notes, e | program⟩ := noted
      · rfl
      · show (run _ _).2.machine = _
        rw [run_machine, interpretTimes_rounds]
        rfl
  | evaluate =>
      simp only [next, Session.step, Step.work]
      generalize parseExpression source >>= resolveExpression = found
      obtain e | ⟨e, uses⟩ := found
      · rfl
      · show (run _ _).2.machine = _
        rw [run_machine, Work.act, after_map]
        rfl
  | evaluateRaw =>
      simp only [next, Session.step, Step.work]
      generalize parseExpression source = found
      obtain e | e := found
      · rfl
      · show (run _ _).2.machine = _
        rw [run_machine, Work.act, after_map]
        rfl

/-- Between two steps the machine stays in its frame, and only that one gets names. -/
theorem next_here (s : Session) (step : Step) : Here s.machine (s.next step).machine := by
  rw [next_machine]
  obtain ⟨still, heap⟩ := step.work.act_here step.fuel s.silent.machine
  exact ⟨still, heap⟩

theorem sequel_here (s : Session) (steps : List Step) :
    Here s.machine (s.sequel steps).machine := by
  induction steps generalizing s with
  | nil => exact refl _
  | cons step steps ih => exact IsTrans.trans _ _ _ (s.next_here step) (ih (s.next step))

theorem sequel_append (s : Session) (steps others : List Step) :
    s.sequel (steps ++ others) = (s.sequel steps).sequel others :=
  List.foldl_append

/-- A step comes to a statement of its program on a machine. -/
def RunsTop (s : Session) (step : Step) (statement : Stmt) (m : Machine) : Prop :=
  ∃ body, step.work = .statements body ∧ ComesTo step.fuel body s.silent.machine statement m

end Session

end TreeWalk
