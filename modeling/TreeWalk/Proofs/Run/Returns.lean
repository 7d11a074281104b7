import TreeWalk.Proofs.Run.Exits
import TreeWalk.Proofs.Run.Sessions
import TreeWalk.Proofs.Run.Trails

/-!
# Returns are jumps to the call

At the top level of a program that the scope rules accept no statement returns, so the
evaluator in which returns jump runs every such program to the same end as the one that
hands them upward.
-/

namespace TreeWalk

open Eval Resolve

theorem checkReturn_inside {keyword : Token} {hasValue : Bool} {place place' : Surroundings}
    {u : Unit} (h : (checkReturn keyword hasValue).Gives place u place') :
    place.functionContext ≠ .outside := by
  intro outside
  rw [checkReturn, get_bind_gives] at h
  simp [outside] at h

mutual

/-- Whether a statement holds a return that is in no function inside of it. -/
def Stmt.MayReturn : Stmt → Prop
  | .block body => Stmt.AnyMayReturn body
  | .branch _ consequent none => consequent.MayReturn
  | .branch _ consequent (some alternative) => consequent.MayReturn ∨ alternative.MayReturn
  | .loop _ body => body.MayReturn
  | .returns _ _ => True
  | _ => False

/-- Whether one of several statements holds such a return. -/
def Stmt.AnyMayReturn : List Stmt → Prop
  | [] => False
  | s :: rest => s.MayReturn ∨ Stmt.AnyMayReturn rest

end

/-- Whether the statements of a task hold such a return. -/
def Task.MayReturn : Task → Prop
  | execute s => s.MayReturn
  | executeEach body => Stmt.AnyMayReturn body
  | _ => False

theorem Runs.mayReturn {a b : Visit} (h : Runs a b) (inner : b.task.MayReturn) :
    a.task.MayReturn := by
  obtain ⟨starts, isStatement, isStatement'⟩ := h
  cases starts with
  | statement => exact .inl inner
  | otherStatements => exact .inr inner
  | block | loopBody | loopAgain => exact inner
  | @branchConsequent _ _ _ _ _ alternative =>
      cases alternative with
      | none => exact inner
      | some => exact .inl inner
  | branchAlternative => exact .inr inner
  | _ => first | exact isStatement.elim | exact isStatement'.elim

/-- Only what holds a return completes with one. -/
theorem Visit.Completes.mayReturn {v : Visit} {w : Value} {m' : Machine}
    (h : v.Completes (.returned w) m') : v.task.MayReturn := by
  obtain ⟨r, -, runsOn, ⟨keyword, value, isReturn⟩, -⟩ := h.exists_return
  clear h
  induction runsOn using Relation.ReflTransGen.head_induction_on with
  | refl =>
      rw [isReturn]
      trivial
  | head first _ ih => exact first.mayReturn ih

mutual

/-- Outside of every function the scope rules let no return pass. -/
theorem Stmt.not_mayReturn : ∀ {s s' : Stmt} {place place' : Surroundings}, s.Layered →
    place.functionContext = .outside → s.resolve.Gives place s' place' → ¬s'.MayReturn
  | .expression _, _, _, _, _, _, h | .print _, _, _, _, _, _, h => by
      obtain ⟨_, -, rfl⟩ := Stmt.resolve_gives.1 h
      exact id
  | .varDecl _ none, _, _, _, _, _, h => by
      obtain ⟨-, rfl⟩ := Stmt.resolve_gives.1 h
      exact id
  | .varDecl _ (some _), _, _, _, _, _, h => by
      obtain ⟨_, _, _, -, -, -, rfl⟩ := Stmt.resolve_gives.1 h
      exact id
  | .block _, _, place, _, layered, outside, h => by
      obtain ⟨_, _, walk, -, -, rfl⟩ := Stmt.resolve_gives.1 h
      have outside' : (blockPlace place).functionContext = .outside := outside
      have inner := Stmt.not_anyMayReturn layered outside' walk
      exact inner
  | .branch _ _ none, _, _, _, layered, outside, h => by
      obtain ⟨_, _, _, first, second, rfl⟩ := Stmt.resolve_gives.1 h
      obtain ⟨layered, layered', -⟩ := layered
      have alike := Expr.resolve_alike layered first
      have inner := Stmt.not_mayReturn layered' (alike.functionContext.trans outside) second
      exact inner
  | .branch _ _ (some _), _, _, _, layered, outside, h => by
      obtain ⟨_, _, _, _, _, first, second, third, rfl⟩ := Stmt.resolve_gives.1 h
      obtain ⟨layered, layered', -, -, layered'', -⟩ := layered
      have outside' := (Expr.resolve_alike layered first).functionContext.trans outside
      have outside'' := (Stmt.resolve_after layered' second).outside.functionContext.trans outside'
      exact not_or.2 ⟨Stmt.not_mayReturn layered' outside' second,
        Stmt.not_mayReturn layered'' outside'' third⟩
  | .loop _ _, _, _, _, layered, outside, h => by
      obtain ⟨_, _, _, first, second, rfl⟩ := Stmt.resolve_gives.1 h
      obtain ⟨layered, layered', -⟩ := layered
      have alike := Expr.resolve_alike layered first
      have inner := Stmt.not_mayReturn layered' (alike.functionContext.trans outside) second
      exact inner
  | .functionDecl (.mk _ _ _), _, _, _, _, _, h => by
      obtain ⟨_, _, -, -, rfl⟩ := Stmt.resolve_gives.1 h
      exact id
  | .classDecl _ _ _, _, _, _, _, _, h => by
      obtain ⟨_, _, _, _, _, -, -, -, -, rfl⟩ := Stmt.resolve_gives.1 h
      exact id
  | .returns _ none, _, _, _, _, outside, h => by
      obtain ⟨check, -⟩ := Stmt.resolve_gives.1 h
      exact absurd outside (checkReturn_inside check)
  | .returns _ (some _), _, _, _, _, outside, h => by
      obtain ⟨_, _, check, -⟩ := Stmt.resolve_gives.1 h
      exact absurd outside (checkReturn_inside check)

theorem Stmt.not_anyMayReturn : ∀ {body body' : List Stmt} {place place' : Surroundings},
    Stmt.AllLayered body → place.functionContext = .outside →
      (Stmt.resolveEach body).Gives place body' place' → ¬Stmt.AnyMayReturn body'
  | [], _, _, _, _, _, h => by
      obtain ⟨rfl, -⟩ := Stmt.resolveEach_gives.1 h
      exact id
  | _ :: _, _, _, _, layered, outside, h => by
      obtain ⟨_, _, _, first, others, rfl⟩ := Stmt.resolveEach_gives.1 h
      have after := (Stmt.resolve_after layered.1 first).outside
      exact not_or.2 ⟨Stmt.not_mayReturn layered.1 outside first,
        Stmt.not_anyMayReturn layered.2 (after.functionContext.trans outside) others⟩

end

theorem Stmt.AnyMayReturn.of_mem {s : Stmt} {program : List Stmt} (among : s ∈ program)
    (may : s.MayReturn) : Stmt.AnyMayReturn program := by
  induction among with
  | head => exact .inl may
  | tail _ _ ih => exact .inr ih

section Programs

variable {source : String} {program : List Stmt} {uses : Nat}

/-- No statement of a program that the scope rules accept holds a return outside of every
function. -/
theorem not_mayReturn_of_prepared (accepted : (prepareSource source).result = .ok (program, uses))
    {s : Stmt} (among : s ∈ program) : ¬s.MayReturn := by
  have placed : ∃ after, Placed (WalkedIn [(.run 1, source)]) (.stmts program) .initial after :=
    placed_prepared accepted
  obtain ⟨after, original, inside, made⟩ := placed
  have sane := (walkedIn_known _).sane inside
  cases made with
  | stmts walk =>
      intro may
      exact Stmt.not_anyMayReturn sane.layered rfl walk (.of_mem among may)

/-- A statement that does not return needs nothing that catches jumps. -/
theorem Jumping.jump_of_not_returned {act : Eval Completion}
    (normal : ∀ m v m', ¬act.Gives m (.returned v) m') :
    jump act = lift (do let _ ← act) := by
  funext m
  have never := normal m
  simp only [EStateM.Gives, EStateM.run] at never
  simp only [jump, lift, Bind.bind, EStateM.bind]
  cases run : act m with
  | error => rfl
  | ok completion m' =>
      cases completion with
      | normal => rfl
      | returned v => exact absurd run (never v m')

/-- If no statement returns, the two evaluators run a program alike. -/
theorem Jumping.interpret_eq {fuel : Nat}
    (normal : ∀ s ∈ program, ∀ m v m', ¬(TreeWalk.execute fuel s).Gives m (.returned v) m') :
    Jumping.interpret fuel program = lift (TreeWalk.interpret fuel program) := by
  induction program with
  | nil => rfl
  | cons s rest ih =>
      have first : Jumping.execute fuel s = lift (do let _ ← TreeWalk.execute fuel s) := by
        rw [(agrees fuel).execute, jump_of_not_returned (normal s List.mem_cons_self)]
      have others := ih fun s' among => normal s' (List.mem_cons_of_mem _ among)
      simp only [Jumping.interpret, TreeWalk.interpret, List.forM_eq_forM,
        List.forM_cons] at others ⊢
      rw [first, others]
      exact (lift_bind _ _).symm

/-- An initializer gives what its frame binds to `this`. Any other call gives nil if its
body completes normally, and otherwise the value of a return that was executed in it. -/
theorem enter_value {n : Nat} {closure : Closure} {arguments : List Value} {m m' : Machine}
    {value : Value} (run : (enter (n + 1) closure arguments).Gives m value m') :
    ∃ body after, Starts ⟨n + 1, .enter closure arguments, m⟩ body ∧
      m' = { after with current := m.current } ∧
      (closure.isInitializer = true → m'.frames.local? closure.frame "this" = some value) ∧
      (closure.isInitializer = false → body.Completes .normal after ∧ value = .nil ∨
        ∃ r after', RunsOn body r ∧ r.task.IsReturn ∧ r.Completes (.returned value) after' ∧
          after = { after' with current := body.machine.current }) := by
  obtain ⟨outer, m₁, made, rest⟩ := bind_gives.1 run
  obtain ⟨_, m₂, bound, rest⟩ := bind_gives.1 rest
  obtain ⟨inner, m₃, made', rest⟩ := bind_gives.1 rest
  obtain ⟨completion, m₄, ended, given⟩ := bind_gives.1 rest
  have still : m₃.current = m.current := call_frames_current made bound made'
  obtain ⟨after, completes, rfl⟩ := inFrame_gives.1 ended
  rw [still] at given
  have starts : Starts ⟨n + 1, .enter closure arguments, m⟩ _ := .body made bound made'
  split at given
  next isInitializer =>
    simp only [thisOf, EStateM.Gives, EStateM.run, inspect] at given
    split at given
    next this found =>
      split at found
      next receiver local' =>
        cases given
        cases found
        refine ⟨_, after, starts, rfl, fun _ => local', ?_⟩
        intro plain
        rw [isInitializer] at plain
        cases plain
      next => cases found
    next => cases given
  next isPlain =>
    obtain ⟨rfl, rfl⟩ := pure_gives.1 given
    refine ⟨_, after, starts, rfl, fun isInitializer => absurd isInitializer isPlain, fun _ => ?_⟩
    cases completion with
    | normal => exact .inl ⟨completes, rfl⟩
    | returned w =>
        have returned : Visit.Completes ⟨n, .executeEach closure.body, { m₃ with current := inner }⟩
            (.returned w) after := completes
        exact .inr (Visit.returns_iff.1 returned)

/-- Whatever machine a program that the scope rules accept is run on, the evaluator that
hands returns upward and the one in which they jump do the same. No statement of the
program returns itself, and a return that is executed in a call ends the statements around
it, up to the value of the call, with nothing of them run after it. -/
theorem returns_are_jumps (accepted : (prepareSource source).result = .ok (program, uses))
    (fuel : Nat) :
    Jumping.interpret fuel program = Jumping.lift (interpret fuel program) ∧
      Jumping.Agrees fuel ∧
      (∀ s ∈ program, ∀ m v m', ¬(execute fuel s).Gives m (.returned v) m') ∧
      (∀ a r w m', RunsOn a r → r.task.IsReturn → r.Completes (.returned w) m' →
        a.Completes (.returned w) { m' with current := a.machine.current } ∧
          (∃ before, a.trail = before ++ r.trail) ∧
          ∀ b c, RunsOn a b → b.task.IsStatement → Starts b c → c ∈ a.trail) ∧
      ∀ closure arguments m value m',
        (enter (fuel + 1) closure arguments).Gives m value m' →
        ∃ body after, Starts ⟨fuel + 1, .enter closure arguments, m⟩ body ∧
          m' = { after with current := m.current } ∧
          (closure.isInitializer = true → m'.frames.local? closure.frame "this" = some value) ∧
          (closure.isInitializer = false → body.Completes .normal after ∧ value = .nil ∨
            ∃ r after', RunsOn body r ∧ r.task.IsReturn ∧ r.Completes (.returned value) after' ∧
              after = { after' with current := body.machine.current }) := by
  have normal : ∀ s ∈ program, ∀ m v m', ¬(execute fuel s).Gives m (.returned v) m' := by
    intro s among m v m' returned
    have completes : Visit.Completes ⟨fuel, .execute s, m⟩ (.returned v) m' := returned
    exact not_mayReturn_of_prepared accepted among completes.mayReturn
  refine ⟨Jumping.interpret_eq normal, Jumping.agrees fuel, normal, ?_, ?_⟩
  · intro a r w m' runsOn _ returned
    obtain ⟨completes, last⟩ := runsOn.returns returned
    exact ⟨completes, last, fun b c runsOn' isStatement starts =>
      runsOn'.mem_trail starts isStatement⟩
  · exact fun _ _ _ _ _ run => enter_value run

end Programs

/-- A source with a function that returns from a loop without end. -/
def returningLoop : String := "fun f() \x7b while (true) \x7b return true; \x7d \x7d"

namespace ReturningLoop

open TokenKind (word)

/-- The name of the function. -/
def f : Token := word .identifier "f"

/-- The return. -/
def returnTrue : Stmt :=
  .returns (word .returnWord "return") (some (.literal (.boolean true)))

/-- The loop around it. -/
def loop : Stmt := .loop (.literal (.boolean true)) (.block [returnTrue])

/-- The program of the source. -/
def program : List Stmt := [.functionDecl (.mk f [] [loop])]

theorem prepared : (prepareSource returningLoop).result = .ok (program, 0) := by
  let tokens : List Token :=
    [word .funWord "fun", f, word .leftParen "(", word .rightParen ")",
      word .leftBrace "\x7b", word .whileWord "while",
      word .leftParen "(", word .trueWord "true", word .rightParen ")",
      word .leftBrace "\x7b", word .returnWord "return",
      word .trueWord "true", word .semicolon ";",
      word .rightBrace "\x7d", word .rightBrace "\x7d", .endOfText 1]
  have scanned : (scanSource returningLoop).result = .ok tokens := by decide +kernel
  have read : (Grammar.program tokens).1 = .ok program := rfl
  have resolved : (resolveProgram program).result = .ok (program, 0) := rfl
  simp only [prepareSource, parseSource, Noted.andThen, scanned, read, Noted.done, resolved]

/-- The machine before the loop. -/
def start : Machine := .initial fun _ => 0

/-- The visit of the loop. -/
def outer : Visit := ⟨6, .execute loop, start⟩

/-- The visit of the return. -/
def inner : Visit :=
  ⟨3, .execute returnTrue, { start.mapFrames (·.push (some 0)) with current := 1 }⟩

theorem runsOn : RunsOn outer inner := by
  have body : Runs outer ⟨5, .execute (.block [returnTrue]), start⟩ :=
    ⟨.loopBody rfl rfl, trivial, trivial⟩
  have row : Runs ⟨5, .execute (.block [returnTrue]), start⟩
      ⟨4, .executeEach [returnTrue], inner.machine⟩ := ⟨.block rfl, trivial, trivial⟩
  have last : Runs ⟨4, .executeEach [returnTrue], inner.machine⟩ inner :=
    ⟨.statement, trivial, trivial⟩
  exact ((Relation.ReflTransGen.single body).tail row).tail last

/-- The return ends the loop, whose condition is not evaluated again. -/
theorem returns_are_jumps_loop :
    (prepareSource returningLoop).result = .ok (program, 0) ∧
      Jumping.interpret 6 program = Jumping.lift (interpret 6 program) ∧
      outer.Completes (.returned (.boolean true)) { inner.machine with current := 0 } ∧
      ∃ before, outer.trail = before ++ inner.trail := by
  obtain ⟨same, -, -, ends, -⟩ := returns_are_jumps prepared 6
  have returned : inner.Completes (.returned (.boolean true)) inner.machine := rfl
  obtain ⟨completes, last, -⟩ := ends _ _ _ _ runsOn ⟨_, _, rfl⟩ returned
  exact ⟨prepared, same, completes, last⟩

end ReturningLoop

end TreeWalk
