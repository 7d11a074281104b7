import TreeWalk.Text.DecimalDigit

/-!
# The options of a command line

A command line names at most one file and may set two switches, `--ast` and
`--verbose`. Switches stand anywhere; a long one may be cut short, and short ones may
share a dash. A lone `--` goes with the file name: it stands directly before or behind
it, or where none is given. What follows it is no switch.

## Implementation notes

What an argument is does not depend on the others, so all of them are classified before
any is taken.
-/

namespace TreeWalk.CommandLine

/-- What a command line asks for. -/
structure Options where
  file : Option String
  /-- Show the trees of programs and do not run them. -/
  showTrees : Bool
  /-- Show what each stage has done. -/
  verbose : Bool
  deriving DecidableEq, Inhabited

/-- How a command line is to be taken. -/
inductive Invocation
  | run (options : Options)
  | help
  | misuse
  deriving DecidableEq

/-- The switches. -/
inductive Switch
  | ast
  | verbose
  | help
  deriving DecidableEq

/-- What one argument is. An ambiguous switch spoils the command line, a malformed one
ends its reading, and an unknown one only makes it wrong. -/
inductive Argument
  | name (text : String)
  | switches (items : List Switch)
  | ambiguous
  | malformed
  | unknown
  deriving DecidableEq

namespace Argument

/-- The long switches with their names. -/
def longSwitches : List (List Char × Switch) :=
  [("--ast".toList, .ast), ("--verbose".toList, .verbose), ("--help".toList, .help)]

/-- The switch of a letter. -/
def ofLetter : Char → Option Switch
  | 'v' => some .verbose
  | 'h' => some .help
  | _ => none

/-- A text without the line feed that may end it. -/
def withoutFinalFeed (text : List Char) : List Char :=
  if text.getLast? = some '\n' then text.dropLast else text

/-- Whether a text is a number with digits behind the point, if it has one. -/
def isPlainNumber (text : List Char) : Bool :=
  let whole := text.takeWhile Text.isDecimalDigit
  match text.dropWhile Text.isDecimalDigit with
  | [] => !whole.isEmpty
  | '.' :: fraction => !fraction.isEmpty && fraction.all Text.isDecimalDigit
  | _ => false

/-- Whether an argument is a negative number, which no switch looks like. -/
def isNegativeNumber : List Char → Bool
  | '-' :: rest => isPlainNumber (withoutFinalFeed rest)
  | _ => false

/-- An argument that begins with a dash and is no switch. -/
def undashed (text : List Char) : Argument :=
  if isNegativeNumber text || text.contains ' ' then .name (String.ofList text) else .unknown

/-- An argument that begins with two dashes. A long switch takes no value, so an equals
sign behind it is wrong. -/
def ofLong (text : List Char) : Argument :=
  let stem := text.takeWhile (· != '=')
  match longSwitches.filter fun entry => stem.isPrefixOf entry.1 with
  | [] => undashed text
  | [entry] => if stem = text then .switches [entry.2] else .malformed
  | _ => .ambiguous

/-- The letters of an argument with one dash: an equals sign may stand between the
first and the others. -/
def lettersOf : List Char → List Char
  | first :: '=' :: second :: rest => first :: second :: rest
  | letters => letters

/-- An argument that begins with one dash, given without it. -/
def ofShort (text : List Char) : Argument :=
  match text.head?.bind ofLetter with
  | none => undashed ('-' :: text)
  | some _ =>
    match (lettersOf text).mapM ofLetter with
    | some items => .switches items
    | none => .malformed

/-- What an argument is. -/
def ofString (text : String) : Argument :=
  match text.toList with
  | '-' :: '-' :: rest => ofLong ('-' :: '-' :: rest)
  | '-' :: letter :: rest => ofShort (letter :: rest)
  | _ => .name text

/-- Whether an argument is a file name. -/
def isName : Argument → Bool
  | .name _ => true
  | _ => false

end Argument

namespace Options

/-- Nothing asked for. -/
def none : Options := ⟨Option.none, false, false⟩

/-- Set a switch. -/
def set (o : Options) : Switch → Options
  | .ast => { o with showTrees := true }
  | .verbose => { o with verbose := true }
  | .help => o

end Options

/-- What is asked for once the arguments behind a lone `--` are known too; `touching`
says whether a file name stands directly before it. -/
def readTrailing (o : Options) (touching : Bool) : List String → Invocation
  | [] => if o.file.isNone || touching then .run o else .misuse
  | [name] => if o.file.isNone then .run { o with file := some name } else .misuse
  | _ => .misuse

/-- Take arguments one after another, and in the end what is asked for if all of them
were fine. A request for help counts as soon as it is met, whatever is wrong before
it. -/
def readArguments (finish : Options → Invocation) (o : Options) (good : Bool) :
    List Argument → Invocation
  | [] => if good then finish o else .misuse
  | .name text :: rest =>
    if o.file.isNone then readArguments finish { o with file := some text } good rest
    else readArguments finish o false rest
  | .switches items :: rest =>
    if items.contains .help then .help
    else readArguments finish (items.foldl Options.set o) good rest
  | .unknown :: rest => readArguments finish o false rest
  | .malformed :: _ | .ambiguous :: _ => .misuse

/-- The argument behind which there are no switches. -/
def separator : String := "--"

/-- What a command line asks for. -/
def Invocation.ofArguments (arguments : List String) : Invocation :=
  let leading := (arguments.takeWhile (· != separator)).map Argument.ofString
  let finish : Options → Invocation :=
    match arguments.dropWhile (· != separator) with
    | [] => .run
    | _ :: trailing => fun o => readTrailing o (leading.getLast?.any Argument.isName) trailing
  if leading.contains .ambiguous then .misuse
  else readArguments finish .none true leading

/-- The first line of the help. -/
def usage : String := "usage: lox [-h] [--ast] [-v] [filename]\n"

/-- The help. -/
def helpText : String :=
  usage ++
    "\nRun Lox scripts\n\npositional arguments:\n  filename\n\noptions:\n" ++
    "  -h, --help     show this help message and exit\n" ++
    "  --ast          print the parsed syntax tree instead of running it\n" ++
    "  -v, --verbose  log pipeline stages\n"

end TreeWalk.CommandLine
