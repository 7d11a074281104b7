import TreeWalk.CommandLine.Shell
import TreeWalk.Proofs.Run.Reporting

/-!
# The prompt is a session

What is written at the prompt is what a session prints that takes one line after the other,
with the prompt before each line, and the errors of its steps. The loop ends at the line
that leaves or at the end of the input, never for an error, and only the last step decides
the exit status.

## Implementation notes

A turn is a step of a session with the sessions before and behind it. The loop of the prompt
carries its switches and a status along; the induction is on the lines, with the session
and the status left open.
-/

namespace TreeWalk

/-- A step of a session that ran a source: the session before it, its answer and the session
that it left. -/
structure Turn where
  source : String
  before : Session
  answer : Answer
  after : Session

namespace Session

/-- The turn of a session that runs a source. -/
def turn (s : Session) (fuel : Nat) (source : String) : Turn :=
  ⟨source, s, (s.step fuel (.run 1) source).1, (s.step fuel (.run 1) source).2⟩

/-- The turns of a session that runs sources one after the other. -/
def turns (s : Session) (fuel : Nat) : List String → List Turn
  | [] => []
  | source :: rest => s.turn fuel source :: (s.turn fuel source).after.turns fuel rest

variable {s : Session} {fuel : Nat} {readings : Nat → Float} {history : History}

theorem turns_source (s : Session) (fuel : Nat) (sources : List String) :
    (s.turns fuel sources).map Turn.source = sources := by
  induction sources generalizing s with
  | nil => rfl
  | cons source rest ih => exact congrArg _ (ih _)

/-- Every turn is one of a session that the turns before came to. -/
theorem turns_reached {sources : List String} {turn : Turn} (reached : Reached readings history s)
    (among : turn ∈ s.turns fuel sources) :
    ∃ history' before source, Reached readings history' before ∧
      turn = before.turn fuel source := by
  induction sources generalizing s history with
  | nil => cases among
  | cons source rest ih =>
      obtain rfl | later := List.mem_cons.1 among
      · exact ⟨history, s, source, reached, rfl⟩
      · have resolved : Mode.IsResolved (.run 1) := trivial
        exact ih (reached.step resolved) later

/-- A step that fails before anything is run leaves the machine as it was, with nothing
printed. -/
theorem step_static {times : Nat} {source : String} {f : Failure}
    (failed : (s.step fuel (.run times) source).1.result = .error f) (static : f.isStatic = true) :
    (s.step fuel (.run times) source).2 = s.silent := by
  unfold step at failed ⊢
  dsimp only at failed ⊢
  generalize prepareSource source = prepared at failed ⊢
  obtain ⟨notes, e | ⟨program, uses⟩⟩ := prepared
  · rfl
  · obtain ⟨stop, rfl, -⟩ := run_error failed
    cases static

end Session

namespace CommandLine

variable {sh : Shell} {fuel : Nat}

/-- What a turn writes to the channel for problems. -/
def errorText (turn : Turn) : String :=
  match turn.answer.result with
  | .ok _ => ""
  | .error failure => Shell.failureText failure

/-- What the prompt shows for a turn. -/
def shownText (turn : Turn) : String := promptText ++ turn.after.output

/-- The status behind some turns. -/
def statusBehind (status : Status) (turns : List Turn) : Status :=
  (turns.getLast?.map fun turn => Shell.statusOf turn.answer.result).getD status

theorem statusBehind_cons (status : Status) (turn : Turn) (turns : List Turn) :
    statusBehind status (turn :: turns) =
      statusBehind (Shell.statusOf turn.answer.result) turns := by
  rw [statusBehind, statusBehind, List.getLast?_cons]
  cases turns.getLast? <;> rfl

theorem code_statusBehind (turns : List Turn) :
    (statusBehind .fine turns).code = match turns.getLast? with
      | none => 0
      | some last =>
        match last.answer.result with
        | .ok _ => 0
        | .error f => if f.isStatic then 65 else 70 := by
  unfold statusBehind Shell.statusOf
  cases turns.getLast? with
  | none => rfl
  | some last =>
      dsimp only [Option.map_some, Option.getD_some]
      cases last.answer.result with
      | ok => rfl
      | error f => exact apply_ite Status.code _ _ _

/-- A shell behind a turn. -/
def Shell.behind (sh : Shell) (turn : Turn) : Shell :=
  { sh with session := turn.after, status := statusOf turn.answer.result }

/-- A shell without switches that is fed a source takes a turn. -/
theorem Shell.feed_plain (trees : sh.showTrees = false) (quiet : sh.verbose = false)
    (source : String) :
    let turn := sh.session.turn fuel source
    sh.feed fuel source = (sh.behind turn, ⟨turn.after.output, errorText turn⟩) := by
  intro turn
  have silent : sh.noteText turn.answer.notes = "" := by rw [noteText, quiet]; rfl
  have problems : sh.problemText turn.answer.notes turn.answer.result = errorText turn := by
    unfold problemText errorText
    rw [silent, String.empty_append]
    cases turn.answer.result <;> rfl
  rw [feed, if_neg (by simp [trees]), runSource, ← problems]
  rfl

/-- The loop of the prompt takes a turn and goes on, unless the line leaves. -/
theorem prompt_cons (trees : sh.showTrees = false) (quiet : sh.verbose = false)
    {first : String} (other : first ≠ exitLine) (rest : List String) :
    let turn := sh.session.turn fuel first
    let (last, others) := prompt (sh.behind turn) fuel rest
    prompt sh fuel (first :: rest) =
      (last, ⟨shownText turn ++ others.out, errorText turn ++ others.err⟩) := by
  intro turn
  have before : (⟨promptText, ""⟩ : Transcript) ++ ⟨turn.after.output, errorText turn⟩ =
      ⟨shownText turn, errorText turn⟩ := congrArg (Transcript.mk _) String.empty_append
  rw [prompt, Shell.take, if_neg other, Shell.feed_plain trees quiet]
  dsimp only
  rw [before]
  rfl

/-- The loop of the prompt takes a turn for every line before the one that leaves. -/
theorem prompt_turns (trees : sh.showTrees = false) (quiet : sh.verbose = false)
    (lines : List String) :
    let turns := sh.session.turns fuel (lines.takeWhile (· ≠ exitLine))
    ∃ last, last.status = statusBehind sh.status turns ∧
      prompt sh fuel lines = (last, ⟨String.join (turns.map shownText) ++ promptText ++
        (if exitLine ∈ lines then "" else endText), String.join (turns.map errorText)⟩) := by
  induction lines generalizing sh with
  | nil => exact ⟨sh, rfl, rfl⟩
  | cons first rest ih =>
      intro turns
      by_cases leaves : first = exitLine
      · have none : turns = [] := by simp [turns, leaves, Session.turns]
        refine ⟨sh, by rw [none]; rfl, ?_⟩
        rw [none, prompt, Shell.take, if_pos leaves, if_pos (leaves ▸ List.mem_cons_self)]
        rfl
      · let turn := sh.session.turn fuel first
        obtain ⟨last, status, prompted⟩ := @ih (sh.behind turn) trees quiet
        have cut : turns = turn :: turn.after.turns fuel (rest.takeWhile (· ≠ exitLine)) := by
          simp [turns, turn, leaves, Session.turns]
        have later : exitLine ∈ first :: rest ↔ exitLine ∈ rest := by simp [Ne.symm leaves]
        refine ⟨last, ?_, ?_⟩
        · rw [cut, statusBehind_cons]
          exact status
        · rw [prompt_cons trees quiet leaves, prompted, cut]
          simp only [later, List.map_cons, String.join_cons, String.append_assoc]
          rfl

/-- Without a script and without switches a run of the program is a session that takes the
lines of the input one after the other, up to the line that leaves or the end of the input.
Before each line and once more in the end there is the prompt, and a line feed if the input
ended; every failing step tells its error. A line that cannot be scanned, read or resolved
shows nothing and changes nothing. The last step alone decides the exit status. -/
theorem prompt_is_session (fuel : Nat) (readings : Nat → Float)
    (files : String → Except OpenError String) (input : String) :
    let lines := (inputLines input).takeWhile (· ≠ exitLine)
    let turns := (Session.initial readings).turns fuel lines
    let outcome := run fuel readings files input (.run .none)
    turns.map Turn.source = lines ∧
      outcome.transcript.out =
        String.join (turns.map fun turn => promptText ++ turn.after.output) ++ promptText ++
          (if exitLine ∈ inputLines input then "" else "\n") ∧
      outcome.transcript.err = String.join (turns.map errorText) ∧
      (∀ turn ∈ turns, ∀ f, turn.answer.result = .error f → f = .run .outOfFuel ∨
        ∃ report, f.report? = some report ∧ errorText turn = report.text ++ "\n") ∧
      (∀ turn ∈ turns, ∀ f, turn.answer.result = .error f → f.isStatic = true →
        turn.after.output = "" ∧ turn.after.machine.heap = turn.before.machine.heap ∧
          turn.after.globals = turn.before.globals) ∧
      outcome.status = match turns.getLast? with
        | none => 0
        | some last =>
          match last.answer.result with
          | .ok _ => 0
          | .error f => if f.isStatic then 65 else 70 := by
  intro lines turns outcome
  obtain ⟨after, status, prompted⟩ :=
    @prompt_turns (Shell.initial .none readings) fuel rfl rfl (inputLines input)
  have ran : outcome = ⟨after.status.code, _⟩ :=
    congrArg (fun ended : Shell × Transcript => Outcome.mk ended.1.status.code ended.2) prompted
  have each : ∀ turn ∈ turns, _ := fun turn among => Session.turns_reached .initial among
  rw [ran]
  refine ⟨Session.turns_source _ _ _, rfl, rfl, ?_, ?_, ?_⟩
  · intro turn among f failed
    obtain ⟨history, before, source, reached, rfl⟩ := each turn among
    have resolved : Mode.IsResolved (.run 1) := trivial
    obtain short | ⟨origin, fails⟩ := Session.step_failsIn reached resolved failed
    · exact .inl short
    · obtain ⟨report, -, told, -⟩ := fails.reports
      refine .inr ⟨report, told, ?_⟩
      simp only [errorText, failed, Shell.failureText, told]
      rfl
  · intro turn among f failed static
    obtain ⟨history, before, source, reached, rfl⟩ := each turn among
    have silent : (before.turn fuel source).after = before.silent :=
      Session.step_static failed static
    rw [silent]
    exact ⟨rfl, rfl, rfl⟩
  · exact (congrArg Status.code status).trans (code_statusBehind turns)

example :
    run 20 (fun _ => 0) (fun _ => .error .missing) "nil();\nprint \"on\";\nexit\nnil();"
      (.run .none) =
    ⟨0, ⟨"> > on\n> ", "Can only call functions and classes, got nil.\n[line 1]\n"⟩⟩ := by
  decide +kernel

end CommandLine

end TreeWalk
