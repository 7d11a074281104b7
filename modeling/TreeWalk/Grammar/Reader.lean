import TreeWalk.Grammar.Requirement

/-!
# Readers of tokens

A reader takes tokens off the front of a row and gives a tree, or stops for a reason.
This module has the readers of single tokens.

## Implementation notes

A reader's state is the row of tokens that is left, also after an error, so it tells
how far reading came. A row should be closed by an end token: no reader goes past it,
but a row without one may run out.
-/

namespace TreeWalk.Grammar

/-- Why reading ended without a tree. -/
inductive Halt
  | error (e : GrammarError)
  | outOfTokens
  | outOfDepth
  deriving DecidableEq

/-- A reader of the tokens that are left. -/
abbrev Reader (α : Type) : Type := EStateM Halt (List Token) α

/-- What a reader makes of a row of tokens, and the tokens left where it stopped. -/
def Reader.read {α : Type} (reader : Reader α) (tokens : List Token) :
    Except Halt α × List Token :=
  match reader tokens with
  | .ok a rest => (.ok a, rest)
  | .error halt rest => (.error halt, rest)

/-- Stop for a violation of the grammar at a token. -/
def fail {α : Type} (cause : GrammarCause) (token : Token) : Reader α :=
  throw (.error ⟨cause, token⟩)

/-- The next token, which stays. -/
def peek : Reader Token
  | [] => .error .outOfTokens []
  | token :: rest => .ok token (token :: rest)

/-- The next token, taken off. -/
def advance : Reader Token
  | [] => .error .outOfTokens []
  | token :: rest => .ok token rest

/-- Whether the next token is of a kind. -/
def isNext (kind : TokenKind) : Reader Bool := do
  return (← peek).kind = kind

/-- Whether the token after the next one is of a kind. -/
def isSecond (kind : TokenKind) : Reader Bool := fun tokens =>
  .ok (tokens[1]?.any (fun token => token.kind = kind)) tokens

/-- Take the next token off if it is of one of these kinds. -/
def acceptAny (kinds : List TokenKind) : Reader (Option Token) := do
  if kinds.contains (← peek).kind then some <$> advance else return none

/-- Take the next token off if it is of this kind. -/
def accept (kind : TokenKind) : Reader (Option Token) := acceptAny [kind]

/-- Take the next token off; it has to be the one that is required. -/
def require (what : Requirement) : Reader Token := do
  match ← accept what.kind with
  | some token => return token
  | none => fail (.missing what) (← peek)

/-- What a reader reads, or a value given for the case that a token of a kind is next,
which then stays. -/
def unlessNext {α : Type} (kind : TokenKind) (absent : α) (reader : Reader α) : Reader α := do
  if ← isNext kind then return absent else reader

/-- What a reader reads behind a token of this kind, if one is next. -/
def following {α : Type} (kind : TokenKind) (reader : Reader α) : Reader (Option α) := do
  match ← accept kind with
  | none => return none
  | some _ => some <$> reader

/-- A row of items is refused from its item number `maxArguments` on, counted from
zero; `first` is the token at which an item begins. -/
def checkCount {α : Type} (items : List α) (first : α → Token) (what : Plurality) :
    Reader Unit :=
  match items[maxArguments]? with
  | none => return ()
  | some item => fail (.tooMany what) (first item)

end TreeWalk.Grammar
