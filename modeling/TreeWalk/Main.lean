import Mathlib.Tactic.Basic
import TreeWalk.CommandLine.Shell

/-!
# The program

Reads the arguments, the script or the lines at the prompt, and writes what the shell
makes of them.

## Implementation notes

What a source does is a function of the readings that it takes from the clock, so it is
run on the readings that there are. If it takes more of them the clock is read, and the
source is run again with one reading more; so it is with more fuel if it runs out of it.
A run that takes no more and has enough fuel is settled (`Session.step_settled`).
-/

namespace TreeWalk.CommandLine.Console

/-- Seconds since the epoch, on the clock of the system. -/
def seconds : IO Float := do
  return .ofInt (← Std.Time.Timestamp.now).toNanosecondsSinceUnixEpoch.toInt / 1000000000

/-- A row with these readings first. What follows them is not to be taken. -/
def rowOf (readings : Array Float) (i : Nat) : Float :=
  readings.getD i (readings.back?.getD 0)

/-- A shell with what its clock has shown. -/
structure Timed where
  shell : Shell
  readings : Array Float

/-- The shell, on a clock that shows the readings. -/
def Timed.shown (t : Timed) : Shell :=
  { t.shell with session.machine.readings := rowOf t.readings }

/-- Read the clock once for every time that a source does, and find fuel that is enough. -/
partial def attend (t : Timed) (fuel : Nat) (source : String) : IO (Timed × Nat) := do
  let (answer, after) := t.shown.session.step fuel (.run 1) source
  if t.readings.size < after.machine.taken then
    attend { t with readings := t.readings.push (← seconds) } fuel source
  else
    match answer.result with
    | .error (.run .outOfFuel) => attend t (2 * fuel) source
    | _ => return (t, fuel)

/-- The fuel with which a source is tried first. -/
def firstFuel : Nat := 0x1000

/-- Prepare for a source, if there is one and it is to be run. -/
def prepare (t : Timed) : Option String → IO (Timed × Nat)
  | some source => if t.shell.showTrees then return (t, firstFuel) else attend t firstFuel source
  | none => return (t, firstFuel)

/-- The text of a file. -/
def readScript (name : String) : IO (Except OpenError String) := do
  try
    return .ok (← IO.FS.readFile name)
  catch
    | .permissionDenied .. => return .error ⟨13, "Permission denied"⟩
    | .inappropriateType none .. => return .error .isFolder
    | .inappropriateType .. => return .error .notFolder
    | .invalidArgument .. => return .error .nameTooLong
    | _ => return .error .missing

/-- The next line of the input, unless it has ended. -/
def readLine : IO (Option String) := do
  let input ← (← IO.getStdin).getLine
  if input.isEmpty then return none
  return some (if input.endsWith "\n" then (input.dropEnd 1).copy else input)

/-- Write a transcript. -/
def write (transcript : Transcript) : IO Unit := do
  let out ← IO.getStdout
  out.putStr transcript.out
  out.flush
  let err ← IO.getStderr
  err.putStr transcript.err
  err.flush

/-- Ask for lines and take them as they come, until the prompt is left. -/
partial def converse (t : Timed) : IO Status := do
  write ⟨promptText, ""⟩
  let line ← readLine
  let (t, fuel) ← prepare t line
  let (next, transcript) := t.shown.take fuel line
  write transcript
  match next with
  | none => return t.shell.status
  | some after => converse { t with shell := after }

/-- Run a script or the prompt. -/
def start (options : Options) : IO Status := do
  let t : Timed := ⟨.initial options (rowOf #[]), #[]⟩
  match options.file with
  | none => converse t
  | some name =>
    let text := (← readScript name).map scriptText
    let (t, fuel) ← prepare t text.toOption
    let (after, transcript) := t.shown.feedScript fuel name text
    write transcript
    return after.status

end TreeWalk.CommandLine.Console

open TreeWalk.CommandLine in
/-- Run the program. -/
def main (arguments : List String) : IO UInt32 := do
  match Invocation.ofArguments arguments with
  | .run options => return (← Console.start options).code.toUInt32
  | .help =>
    Console.write ⟨helpText, ""⟩
    return 0
  | .misuse =>
    Console.write ⟨"", usage⟩
    return misuseStatus.toUInt32
