import TreeWalk.Token

/-!
# Reports

A report is what the user is told about a problem: a message, the token it is
about and a line. Each stage of the program has its own type of causes; all of
them become reports, and only reports have text.
-/

namespace TreeWalk

/-- The stage that found a problem. -/
inductive Stage
  | unspecified
  | lexical
  | syntactic
  | scoping
  | running
  deriving DecidableEq, Inhabited

/-- A problem as it is shown. -/
structure Report where
  stage : Stage
  message : String
  token : Option Token
  /-- The line stated with the problem; without one, the token's line counts. -/
  statedLine : Option Int
  deriving DecidableEq, Inhabited

namespace Report

/-- A problem at a token. -/
def atToken (stage : Stage) (message : String) (token : Token) : Report :=
  ⟨stage, message, some token, none⟩

/-- A problem at a line of the text. -/
def atLine (stage : Stage) (message : String) (line : Int) : Report :=
  ⟨stage, message, none, some line⟩

/-- The line of a problem. -/
def line (r : Report) : Option Int :=
  r.statedLine.or (r.token.map Token.line)

/-- The place of a problem within its line. -/
def place (r : Report) : String :=
  match r.token with
  | none => ""
  | some t => if t.kind = .endOfText then " at end" else " at '" ++ t.lexeme ++ "'"

/-- The text of a line number. -/
def lineText : Option Int → String
  | none => "None"
  | some n => toString n

/-- The text of a report. A problem of a running program has its line below the
message and does not name its place. -/
def text (r : Report) : String :=
  match r.stage with
  | .running => r.message ++ "\n[line " ++ lineText r.line ++ "]"
  | _ => "[line " ++ lineText r.line ++ "] Error" ++ r.place ++ ": " ++ r.message

end Report

end TreeWalk
