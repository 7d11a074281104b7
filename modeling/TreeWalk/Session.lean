import TreeWalk.Cursor
import TreeWalk.Evaluation
import TreeWalk.Grammar
import TreeWalk.Scope.Resolution

/-!
# Sessions

A session runs one source after another on the same machine. Each source is scanned,
read by the grammar, put through the scope rules and run; the first stage that fails
ends the step, and the machine goes on to the next one with what was done so far.

## Implementation notes

The notes of a step say how far it came. They are kept apart from its outcome: whoever
does not show them may forget them.
-/

namespace TreeWalk

/-- Why a step of a session fails. -/
inductive Failure
  | lexical (e : LexicalError)
  | grammar (halt : Grammar.Halt)
  | scope (e : ScopeError)
  | run (stop : Stop)
  deriving DecidableEq

namespace Failure

/-- What the user is told about a failure. A row of tokens without end, a lack of depth
or fuel and a fault are not about the program's text, so there is nothing to tell. -/
def report? : Failure → Option Report
  | lexical e => some e.report
  | grammar (.error e) => some e.report
  | grammar _ => none
  | scope e => some e.report
  | run (.error e) => some e.report
  | run _ => none

/-- Whether a step failed before anything was run. -/
def isStatic : Failure → Bool
  | run _ => false
  | _ => true

end Failure

/-- What a stage of a step has done. -/
inductive Note
  | scanned (tokens lines : Nat)
  | parsed (statements : Nat)
  | resolved (uses : Nat)
  | executing (statements : Nat)
  deriving DecidableEq

/-- A result with the notes taken on the way to it. -/
structure Noted (α : Type) where
  notes : List Note
  result : Except Failure α

namespace Noted

variable {α β : Type}

/-- A stage that fails takes no note. -/
def failed (e : Failure) : Noted α := ⟨[], .error e⟩

/-- A stage that ends well takes one note. -/
def done (note : Note) (a : α) : Noted α := ⟨[note], .ok a⟩

/-- One stage after another. -/
def andThen (first : Noted α) (next : α → Noted β) : Noted β :=
  match first.result with
  | .error e => ⟨first.notes, .error e⟩
  | .ok a =>
    let second := next a
    ⟨first.notes ++ second.notes, second.result⟩

end Noted

/-- The tokens of a source. -/
def scanSource (source : String) : Noted (List Token) :=
  match (Scanner.ofString source).all with
  | (.ok tokens, after) => .done (.scanned tokens.length after.cursor.line) tokens
  | (.error e, _) => .failed (.lexical e)

/-- The program of a source. -/
def parseSource (source : String) : Noted (List Stmt) :=
  (scanSource source).andThen fun tokens =>
    match (Grammar.program tokens).1 with
    | .ok program => .done (.parsed program.length) program
    | .error halt => .failed (.grammar halt)

/-- A program with its distances, and the number of local uses in it. -/
def resolveProgram (program : List Stmt) : Noted (List Stmt × Nat) :=
  match (Stmt.resolveEach program).walk .initial with
  | (.ok program, after) => .done (.resolved after.found.size) (program, after.found.size)
  | (.error e, _) => .failed (.scope e)

/-- The program of a source with its distances. -/
def prepareSource (source : String) : Noted (List Stmt × Nat) :=
  (parseSource source).andThen resolveProgram

/-- The expression of a source. -/
def parseExpression (source : String) : Except Failure Expr := do
  let tokens ← (scanSource source).result
  (Grammar.wholeExpression tokens).1.mapError .grammar

/-- An expression with its distances, and the number of local uses in it. -/
def resolveExpression (e : Expr) : Except Failure (Expr × Nat) :=
  match e.resolve.walk .initial with
  | (.ok e, after) => .ok (e, after.found.size)
  | (.error e, _) => .error (.scope e)

/-- What a step is to do with its source. -/
inductive Mode
  /-- Run a program as many times as given. -/
  | run (times : Nat)
  /-- Run a program without the scope rules: every variable is global. -/
  | runRaw (times : Nat)
  /-- Evaluate an expression. -/
  | evaluate
  /-- Evaluate an expression without the scope rules. -/
  | evaluateRaw
  deriving DecidableEq

/-- A machine and the number of local uses in all that it was given to run. -/
structure Session where
  machine : Machine
  located : Nat

/-- What a step gives: a failure or, for an expression, a value. -/
structure Answer where
  notes : List Note
  result : Except Failure (Option Value)

namespace Session

/-- A session before its first step. -/
def initial (readings : Nat → Float) : Session := ⟨.initial readings, 0⟩

/-- Fuel that no run can use up in any practical time. -/
def ample : Nat := 0x4000000000000000

/-- Take note of local uses that the machine is given. -/
def addLocated (s : Session) (uses : Nat) : Session :=
  { s with located := s.located + uses }

/-- Run a computation on the machine of a session. -/
def run {α : Type} (s : Session) (act : Eval α) : Except Failure α × Session :=
  match act.run s.machine with
  | .ok a machine => (.ok a, { s with machine := machine })
  | .error stop machine => (.error (.run stop), { s with machine := machine })

/-- Run a program some times over, up to the first run that stops early. -/
def interpretTimes (fuel : Nat) (program : List Stmt) : Nat → Eval Unit
  | 0 => return ()
  | times + 1 => do
    interpret fuel program
    interpretTimes fuel program times

/-- Run a program on the machine. -/
def runProgram (s : Session) (fuel : Nat) (times : Nat) (program : List Stmt) :
    Answer × Session :=
  let (result, after) := s.run (interpretTimes fuel program times)
  (⟨[.executing program.length], result.map fun _ => none⟩, after)

/-- Evaluate an expression on the machine. -/
def evaluateExpression (s : Session) (fuel : Nat) (e : Expr) : Answer × Session :=
  let (result, after) := s.run (evaluate fuel e)
  (⟨[], result.map some⟩, after)

/-- One step: what is printed is that of this step alone. -/
def step (s : Session) (fuel : Nat) (mode : Mode) (source : String) : Answer × Session :=
  let s := { s with machine := { s.machine with output := "" } }
  match mode with
  | .run times =>
    match prepareSource source with
    | ⟨notes, .error e⟩ => (⟨notes, .error e⟩, s)
    | ⟨notes, .ok (program, uses)⟩ =>
      let (answer, after) := (s.addLocated uses).runProgram fuel times program
      (⟨notes ++ answer.notes, answer.result⟩, after)
  | .runRaw times =>
    match parseSource source with
    | ⟨notes, .error e⟩ => (⟨notes, .error e⟩, s)
    | ⟨notes, .ok program⟩ =>
      let (answer, after) := s.runProgram fuel times program
      (⟨notes ++ answer.notes, answer.result⟩, after)
  | .evaluate =>
    match parseExpression source >>= resolveExpression with
    | .error e => (⟨[], .error e⟩, s)
    | .ok (e, uses) => (s.addLocated uses).evaluateExpression fuel e
  | .evaluateRaw =>
    match parseExpression source with
    | .error e => (⟨[], .error e⟩, s)
    | .ok e => s.evaluateExpression fuel e

/-- What the last step printed. -/
def output (s : Session) : String := s.machine.output

/-- Whether the machine is at the top level, outside every block and call. -/
def isAtTopLevel (s : Session) : Bool := s.machine.current == Machine.globals

/-- The global variables in the order of their names. -/
def globals (s : Session) : List (String × Value) :=
  match s.machine.frames.all[Machine.globals]? with
  | some frame => frame.bindings.sorted
  | none => []

end Session

end TreeWalk
