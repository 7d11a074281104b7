import TreeWalk.Proofs.Counterparts.Sessions

/-!
# Sources run one after the other

A session that runs some sources one after the other does what one run of all their
programs does. So a tree may be walked any number of times: walking it again is no
different from reading, resolving and running the source once more.

## Implementation notes

Every step shows what is printed in it alone, so the output of several steps is put
together. What was printed before is no part of what a step does, which is why the
machines need not be equal, but only alike with a text before their outputs.
-/

namespace TreeWalk

variable {R : Correspondence} {printed : String}

/-- The words of a closure. -/
def Closure.words (c : Closure) : List Word := nameWords c.params ++ Stmt.rowWords c.body

/-- A closure of a machine has kept a token. -/
def Machine.Keeps (m : Machine) (t : Token) : Prop :=
  ∃ c ∈ m.heap.closures.toList, .kept t ∈ c.words

theorem Closure.like_self {c : Closure} (h : R.Fixes c.words) : c.Like R c :=
  ⟨rfl, h.append_left.names, Stmt.row_like_self c.body h.append_right, rfl, rfl⟩

theorem Machine.like_self {m : Machine} (h : ∀ t, m.Keeps t → R.relates t t) :
    Machine.Like R "" "" m m where
  frames := rfl
  closures := List.forall₂_same.2 fun c among =>
    Closure.like_self fun t kept => h t ⟨c, among, kept⟩
  classes := rfl
  objects := rfl
  current := rfl
  output := ⟨m.output, String.empty_append.symm, String.empty_append.symm⟩
  readings := rfl
  taken := rfl

/-- Every token is a counterpart of itself alone. -/
def Correspondence.same : Correspondence := ⟨Eq, fun h => h ▸ ⟨rfl, rfl, rfl⟩⟩

/-- Failures that are alike with no other counterparts are the same. -/
theorem Failure.Like.eq {e e' : Failure} (h : e.Like .same e') : e = e' := by
  cases h with
  | grammar halt =>
    cases halt with
    | error same => cases same; rfl
    | outOfTokens | outOfDepth => rfl
  | @scope e e' same =>
    obtain ⟨cause, token⟩ := e
    obtain ⟨rfl, rfl⟩ := same
    rfl
  | run stop =>
    cases stop with
    | error same => cases same; rfl
    | fault | outOfFuel => rfl

namespace Session

/-- A session with a text before its output. -/
def behind (s : Session) (text : String) : Session :=
  { s with machine := { s.machine with output := text ++ s.output } }

/-- Sources are run one after the other up to the first step that fails. The output is
that of all steps. -/
def runEach (s : Session) (fuel : Nat) : List String → Except Failure (Option Value) × Session
  | [] => (.ok none, s.silent)
  | source :: rest =>
    match s.step fuel (.run 1) source with
    | (⟨_, .error e⟩, after) => (.error e, after)
    | (⟨_, .ok _⟩, after) =>
      let (result, last) := after.runEach fuel rest
      (result, last.behind after.output)

/-- A source is a program that obeys the scope rules. -/
def Prepares (source : String) (program : List Stmt) : Prop :=
  ∃ uses, (prepareSource source).result = .ok (program, uses)

/-- A step with such a source is a run of its program. -/
theorem step_prepared {source : String} {program : List Stmt} {uses : Nat}
    (prepared : (prepareSource source).result = .ok (program, uses)) (s : Session)
    (fuel times : Nat) :
    let ran := (s.silent.addLocated uses).run (interpretTimes fuel program times)
    (s.step fuel (.run times) source).1.result = ran.1.map (fun _ => none) ∧
      (s.step fuel (.run times) source).2 = ran.2 := by
  unfold step
  generalize prepareSource source = noted at prepared
  obtain ⟨notes, result⟩ := noted
  subst prepared
  exact ⟨rfl, rfl⟩

theorem run_bind {α β : Type} (s : Session) (act : Eval α) (next : α → Eval β) :
    s.run (act >>= next) =
      match s.run act with
      | (.ok a, mid) => mid.run (next a)
      | (.error e, mid) => (.error e, mid) := by
  simp only [run, EStateM.run, Bind.bind, EStateM.bind]
  cases act s.machine <;> rfl

theorem interpretTimes_eq (fuel : Nat) (program : List Stmt) (times : Nat) :
    interpretTimes fuel program times = (List.replicate times program).forM (interpret fuel) := by
  induction times with
  | zero => rfl
  | succ times ih =>
    rw [interpretTimes, ih, List.replicate_succ]
    rfl

/-- The first of some sources is run, and if that does not fail, the others are. -/
theorem runEach_cons {source : String} {program : List Stmt} {uses : Nat}
    (prepared : (prepareSource source).result = .ok (program, uses)) (s : Session)
    (fuel : Nat) (rest : List String) :
    s.runEach fuel (source :: rest) =
      match (s.silent.addLocated uses).run (interpret fuel program) with
      | (.error e, after) => (.error e, after)
      | (.ok _, after) =>
        ((after.runEach fuel rest).1, (after.runEach fuel rest).2.behind after.output) := by
  have once : interpretTimes fuel program 1 = interpret fuel program := bind_pure_unit
  obtain ⟨answer, left⟩ := step_prepared prepared s fuel 1
  rw [once] at answer left
  rw [runEach]
  generalize (s.silent.addLocated uses).run (interpret fuel program) = ran at answer left
  generalize s.step fuel (.run 1) source = stepped at answer left
  obtain ⟨⟨notes, result⟩, after⟩ := stepped
  obtain ⟨outcome, last⟩ := ran
  obtain rfl : result = outcome.map fun _ => none := answer
  obtain rfl : after = last := left
  cases outcome <;> rfl

theorem behind_like {before before' : String} {s s' : Session}
    (h : Machine.Like R "" (before ++ before') s.machine s'.machine) :
    Machine.Like R "" before (s.behind before').machine s'.machine := by
  obtain ⟨printed, all, all'⟩ := h.output
  refine { h with output := ⟨before' ++ printed, ?_, ?_⟩ }
  · show before' ++ s.machine.output = "" ++ (before' ++ printed)
    rw [all, String.empty_append, String.empty_append]
  · rw [all', String.append_assoc]

/-- The output of a session is put aside. -/
theorem silent_like {before : String} {s s' : Session}
    (h : Machine.Like R "" before s.machine s'.machine) :
    Machine.Like R "" (before ++ s.output) s.silent.machine s'.machine := by
  obtain ⟨printed, all, all'⟩ := h.output
  refine { h with output := ⟨"", rfl, ?_⟩ }
  rw [Session.output, all, all', String.empty_append, String.append_empty]

/-- What a session does with some sources is what one run of all their programs does, or
of programs that are like them. -/
theorem runEach_rel {sources : List String} {programs programs' : List (List Stmt)}
    (prepared : List.Forall₂ Prepares sources programs)
    (rows : List.Forall₂ (List.Forall₂ (Stmt.Like R)) programs programs') (fuel : Nat)
    (s s' : Session) (h : Machine.Like R "" printed s.silent.machine s'.machine) :
    Except.Rel (Failure.Like R) (fun value _ => value = none) (s.runEach fuel sources).1
        (s'.run (programs'.forM (interpret fuel))).1 ∧
      Machine.Like R "" printed (s.runEach fuel sources).2.machine
        (s'.run (programs'.forM (interpret fuel))).2.machine := by
  induction prepared generalizing programs' s s' printed with
  | nil =>
    cases rows
    exact ⟨.ok rfl, h⟩
  | @cons source program sources programs first _ ih =>
    cases rows with | @cons _ program' _ programs' alike rows
    obtain ⟨uses, first⟩ := first
    have split : (program' :: programs').forM (interpret fuel) =
        interpret fuel program' >>= fun _ => programs'.forM (interpret fuel) := rfl
    obtain ⟨ran, mid⟩ := run_rel (interpret_paired fuel alike) (s.silent.addLocated uses) s' h
    rw [runEach_cons first, split, run_bind]
    generalize (s.silent.addLocated uses).run (interpret fuel program) = one,
      s'.run (interpret fuel program') = other at ran mid
    obtain ⟨result, after⟩ := one
    obtain ⟨result', after'⟩ := other
    cases ran with
    | error same => exact ⟨.error same, mid⟩
    | ok _ =>
      obtain ⟨rest, last⟩ := ih rows after after' (silent_like mid)
      exact ⟨rest, behind_like last⟩

/-- Steps with some sources show what one step shows that runs all their programs, or
programs that are like them. -/
theorem runEach_step {sources : List String} {programs programs' : List (List Stmt)}
    {source : String} {program : List Stmt} {uses fuel times : Nat}
    (prepared : List.Forall₂ Prepares sources programs)
    (rows : List.Forall₂ (List.Forall₂ (Stmt.Like R)) programs programs')
    (whole : (prepareSource source).result = .ok (program, uses))
    (same : interpretTimes fuel program times = programs'.forM (interpret fuel)) (s : Session)
    (fixed : ∀ t, s.machine.Keeps t → R.relates t t) :
    let steps := s.runEach fuel sources
    let one := s.step fuel (.run times) source
    Except.Rel (Failure.Like R) Eq steps.1 one.1.result ∧ steps.2.output = one.2.output ∧
      steps.2.shownGlobals = one.2.shownGlobals := by
  intro steps one
  have self : Machine.Like R "" "" s.silent.machine s.silent.machine := Machine.like_self fixed
  obtain ⟨ran, after⟩ := runEach_rel prepared rows fuel s (s.silent.addLocated uses) self
  obtain ⟨answer, left⟩ := step_prepared whole s fuel times
  rw [same] at answer left
  rw [← left] at after
  refine ⟨?_, ?_, after.shownGlobals⟩
  · show Except.Rel _ _ steps.1 _
    rw [answer]
    revert ran
    generalize steps.1 = result, (Session.run _ _).1 = outcome
    rintro (none | alike)
    · exact .ok none
    · exact .error alike
  · obtain ⟨printed, all, all'⟩ := after.output
    exact all.trans all'.symm

/-- What a session shows of some sources it shows of others whose programs are like theirs. -/
theorem runEach_alike {sources sources' : List String} {programs programs' : List (List Stmt)}
    (prepared : List.Forall₂ Prepares sources programs)
    (prepared' : List.Forall₂ Prepares sources' programs')
    (rows : List.Forall₂ (List.Forall₂ (Stmt.Like R)) programs programs') (fuel : Nat)
    (s : Session) (fixed : ∀ t, s.machine.Keeps t → R.relates t t) :
    let steps := s.runEach fuel sources
    let steps' := s.runEach fuel sources'
    Except.Rel (Failure.Like R) Eq steps.1 steps'.1 ∧ steps.2.output = steps'.2.output ∧
      steps.2.shownGlobals = steps'.2.shownGlobals := by
  intro steps steps'
  have self : Machine.Like R "" "" s.silent.machine s.silent.machine := Machine.like_self fixed
  have self' : Machine.Like .same "" "" s.silent.machine s.silent.machine :=
    Machine.like_self fun _ _ => rfl
  have same : List.Forall₂ (List.Forall₂ (Stmt.Like .same)) programs' programs' :=
    List.forall₂_same.2 fun program _ => Stmt.row_like_self program fun _ _ => rfl
  obtain ⟨ran, after⟩ := runEach_rel prepared rows fuel s s.silent self
  obtain ⟨ran', after'⟩ := runEach_rel prepared' same fuel s s.silent self'
  generalize s.silent.run (programs'.forM (interpret fuel)) = both at ran after ran' after'
  refine ⟨?_, ?_, after.shownGlobals.trans after'.shownGlobals.symm⟩
  · show Except.Rel _ _ steps.1 steps'.1
    revert ran ran'
    generalize steps.1 = one, steps'.1 = other, both.1 = outcome
    rintro (none | alike) (none' | same)
    · exact .ok (none.trans none'.symm)
    · exact .error (same.eq ▸ alike)
  · obtain ⟨printed, all, all'⟩ := after.output
    obtain ⟨printed', other, other'⟩ := after'.output
    exact all.trans (all'.symm.trans (other'.trans other.symm))

end Session

/-- Running a program some times over does what reading, resolving and running its source
anew as many times does: the same is printed, the same global variables are left, and the
first error, at which both stop, is the same. -/
theorem walking_again_is_reading_again {source : String} {program : List Stmt} {uses : Nat}
    (prepared : (prepareSource source).result = .ok (program, uses)) (s : Session)
    (fuel times : Nat) :
    let whole := s.step fuel (.run times) source
    let steps := s.runEach fuel (List.replicate times source)
    steps.1 = whole.1.result ∧ steps.2.output = whole.2.output ∧
      steps.2.shownGlobals = whole.2.shownGlobals := by
  intro whole steps
  have sources : List.Forall₂ Session.Prepares (List.replicate times source)
      (List.replicate times program) := by
    refine List.forall₂_iff_get.2 ⟨by simp, fun i _ _ => ?_⟩
    simpa using ⟨uses, prepared⟩
  have programs : List.Forall₂ (List.Forall₂ (Stmt.Like .same)) (List.replicate times program)
      (List.replicate times program) :=
    List.forall₂_same.2 fun tree among => Stmt.row_like_self tree fun _ _ => rfl
  obtain ⟨ran, shown⟩ := Session.runEach_step sources programs prepared
    (Session.interpretTimes_eq fuel program times) s fun _ _ => rfl
  refine ⟨?_, shown⟩
  show steps.1 = whole.1.result
  revert ran
  generalize steps.1 = result, whole.1.result = answer
  rintro (rfl | same)
  · rfl
  · exact congrArg Except.error same.eq

namespace DeclaredAgain

open TokenKind (word)

/-- A function that gives itself, declared and called. -/
def source : String := "fun f() \x7b return f; \x7d print f();"

/-- The name of the function. -/
def f : Token := word .identifier "f"

/-- The program of the source. -/
def program : List Stmt :=
  [.functionDecl (.mk f [] [.returns (word .returnWord "return") (some (.variable (.ofToken f)))]),
    .print (.call (.variable (.ofToken f)) (word .rightParen ")") [])]

theorem prepared : (prepareSource source).result = .ok (program, 0) := by
  let tokens : List Token :=
    [word .funWord "fun", f, word .leftParen "(", word .rightParen ")",
      word .leftBrace "\x7b", word .returnWord "return", f, word .semicolon ";",
      word .rightBrace "\x7d", word .printWord "print", f, word .leftParen "(",
      word .rightParen ")", word .semicolon ";", .endOfText 1]
  have scanned : (scanSource source).result = .ok tokens := by decide +kernel
  have read : (Grammar.program tokens).1 = .ok program := rfl
  have resolved : (resolveProgram program).result = .ok (program, 0) := rfl
  simp only [prepareSource, parseSource, Noted.andThen, scanned, read, Noted.done, resolved]

/-- Two passes over the tree of the function do what two readings of its source do. -/
theorem walking_again_is_reading_again_twice :
    let whole := (Session.initial fun _ => 0).step 8 (.run 2) source
    let steps := (Session.initial fun _ => 0).runEach 8 [source, source]
    (prepareSource source).result = .ok (program, 0) ∧ steps.1 = whole.1.result ∧
      steps.2.output = whole.2.output ∧ steps.2.shownGlobals = whole.2.shownGlobals :=
  ⟨prepared, walking_again_is_reading_again prepared (.initial fun _ => 0) 8 2⟩

end DeclaredAgain

end TreeWalk
