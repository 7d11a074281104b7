import TreeWalk.CommandLine.Folder
import TreeWalk.CommandLine.Options
import TreeWalk.CommandLine.Quotation
import TreeWalk.Session
import TreeWalk.Tree.Rendering

/-!
# Running scripts and prompts

A shell feeds sources to a session and writes what comes of them: what programs print
goes to one channel, problems and notes to the other. A script is one source; at the
prompt every line is one.

## Implementation notes

The outcome of the last source alone decides the exit status. All of it is a function
of the arguments, the files and the input, so the program around it only reads and
writes.
-/

namespace TreeWalk.CommandLine

/-- What is written to the two output channels. -/
structure Transcript where
  out : String
  err : String
  deriving DecidableEq, Inhabited

namespace Transcript

/-- Nothing written. -/
def empty : Transcript := ⟨"", ""⟩

/-- One transcript after another. -/
def append (a b : Transcript) : Transcript := ⟨a.out ++ b.out, a.err ++ b.err⟩

instance : Append Transcript := ⟨append⟩

end Transcript

/-- How the last source ended. -/
inductive Status
  | fine
  | staticError
  | runtimeError
  deriving DecidableEq, Inhabited

/-- The exit status of the program. -/
def Status.code : Status → Nat
  | .fine => 0
  | .staticError => 65
  | .runtimeError => 70

/-- What the user is told about a file that cannot be read. -/
def OpenError.message (e : OpenError) (name : String) : String :=
  "Error opening file: [Errno " ++ toString e.number ++ "] " ++ e.reason ++ ": " ++ quoted name

/-- The line that shows a note. -/
def noteLine : Note → String
  | .scanned tokens lines =>
    "lox.scanner: scanned " ++ toString tokens ++ " tokens over " ++ toString lines ++ " lines"
  | .parsed statements =>
    "lox.parser: parsed " ++ toString statements ++ " top-level statements"
  | .resolved uses => "lox.resolver: resolved " ++ toString uses ++ " local references"
  | .executing statements =>
    "lox.interpreter: executing " ++ toString statements ++ " statements"

/-- The line that shows that a script begins. -/
def scriptLine (name : String) : String := "lox.__main__: running " ++ name

/-- Text on a line of its own. -/
def line (text : String) : String := text ++ "\n"

/-- A session with the switches it is run under and the outcome of its last source. -/
structure Shell where
  showTrees : Bool
  verbose : Bool
  session : Session
  status : Status

namespace Shell

/-- A shell before its first source. -/
def initial (options : Options) (readings : Nat → Float) : Shell :=
  ⟨options.showTrees, options.verbose, .initial readings, .fine⟩

/-- The lines for notes, if they are to be shown. -/
def noteText (sh : Shell) (notes : List Note) : String :=
  if sh.verbose then String.join (notes.map fun note => line (noteLine note)) else ""

/-- The lines for a failure. -/
def failureText (failure : Failure) : String :=
  match failure.report? with
  | some report => line report.text
  | none => line "internal fault"

/-- The outcome of a source that gave a result. -/
def statusOf {α : Type} : Except Failure α → Status
  | .ok _ => .fine
  | .error failure => if failure.isStatic then .staticError else .runtimeError

/-- What is written to the channel for problems on the way to a result. -/
def problemText {α : Type} (sh : Shell) (notes : List Note) (result : Except Failure α) :
    String :=
  sh.noteText notes ++
    match result with
    | .ok _ => ""
    | .error failure => failureText failure

/-- Show the trees of a source. -/
def showSource (sh : Shell) (source : String) : Shell × Transcript :=
  let parsed := parseSource source
  let out :=
    match parsed.result with
    | .ok program => String.join (program.map fun statement => line statement.render)
    | .error _ => ""
  ({ sh with status := statusOf parsed.result },
    ⟨out, sh.problemText parsed.notes parsed.result⟩)

/-- Run a source. -/
def runSource (sh : Shell) (fuel : Nat) (source : String) : Shell × Transcript :=
  let (answer, session) := sh.session.step fuel (.run 1) source
  ({ sh with session := session, status := statusOf answer.result },
    ⟨session.output, sh.problemText answer.notes answer.result⟩)

/-- Feed a source to a shell. -/
def feed (sh : Shell) (fuel : Nat) (source : String) : Shell × Transcript :=
  if sh.showTrees then sh.showSource source else sh.runSource fuel source

/-- Feed a script, if it could be read. -/
def feedScript (sh : Shell) (fuel : Nat) (name : String) :
    Except OpenError String → Shell × Transcript
  | .error e => ({ sh with status := .staticError }, ⟨"", line (e.message name)⟩)
  | .ok source =>
    let (after, transcript) := sh.feed fuel source
    let begun := if sh.verbose then line (scriptLine name) else ""
    (after, ⟨"", begun⟩ ++ transcript)

end Shell

/-- What stands before every line that is asked for. -/
def promptText : String := "> "

/-- The line that leaves the prompt. -/
def exitLine : String := "exit"

/-- What is written when the input ends at the prompt. -/
def endText : String := "\n"

/-- Take the line that was asked for, if the input has not ended. There is a shell to go on
with unless the prompt is left. -/
def Shell.take (sh : Shell) (fuel : Nat) : Option String → Option Shell × Transcript
  | none => (none, ⟨endText, ""⟩)
  | some text =>
    if text = exitLine then (none, .empty)
    else
      let (after, transcript) := sh.feed fuel text
      (some after, transcript)

/-- Ask for lines and take them until the prompt is left. -/
def prompt (sh : Shell) (fuel : Nat) : List String → Shell × Transcript
  | [] => (sh, ⟨promptText, ""⟩ ++ (sh.take fuel none).2)
  | first :: rest =>
    match sh.take fuel (some first) with
    | (none, transcript) => (sh, ⟨promptText, ""⟩ ++ transcript)
    | (some after, transcript) =>
      let (last, others) := prompt after fuel rest
      (last, ⟨promptText, ""⟩ ++ transcript ++ others)

/-- The text of a file with every kind of line end as a line feed. -/
def unifyLineEnds : List Char → List Char
  | '\r' :: '\n' :: rest => '\n' :: unifyLineEnds rest
  | '\r' :: rest => '\n' :: unifyLineEnds rest
  | c :: rest => c :: unifyLineEnds rest
  | [] => []

/-- The source in a file with this text. -/
def scriptText (text : String) : String := String.ofList (unifyLineEnds text.toList)

/-- The lines of a text. What follows the last line feed is a line unless it is
empty. -/
def textLines : List Char → List (List Char)
  | [] => []
  | '\n' :: rest => [] :: textLines rest
  | c :: rest =>
    match textLines rest with
    | [] => [[c]]
    | first :: others => (c :: first) :: others

/-- The lines of an input. -/
def inputLines (input : String) : List String :=
  (textLines input.toList).map String.ofList

/-- How a run of the program ends. -/
structure Outcome where
  status : Nat
  transcript : Transcript
  deriving DecidableEq

/-- The exit status of a command line that is not understood. -/
def misuseStatus : Nat := 2

/-- A run of the program for a command line, given the files and the input. -/
def run (fuel : Nat) (readings : Nat → Float) (files : String → Except OpenError String)
    (input : String) : Invocation → Outcome
  | .help => ⟨0, ⟨helpText, ""⟩⟩
  | .misuse => ⟨misuseStatus, ⟨"", usage⟩⟩
  | .run options =>
    let sh := Shell.initial options readings
    let (after, transcript) :=
      match options.file with
      | some name =>
        sh.feedScript fuel name ((files name).map scriptText)
      | none => prompt sh fuel (inputLines input)
    ⟨after.status.code, transcript⟩

end TreeWalk.CommandLine
