import TreeWalk.Scalar

/-!
# Tokens

A token is a word of a program together with the line on which it ends. Its kind
is all that the grammar looks at. Scanned text has lines from one on; a token made by
hand may state any line, since lines are only ever shown.
-/

namespace TreeWalk

/-- The kinds of tokens. The grammar has no rule for a kind of the last form. -/
inductive TokenKind
  | leftParen
  | rightParen
  | leftBrace
  | rightBrace
  | comma
  | dot
  | minus
  | plus
  | semicolon
  | star
  | question
  | colon
  | slash
  | bang
  | bangEqual
  | equal
  | equalEqual
  | less
  | lessEqual
  | greater
  | greaterEqual
  | identifier
  | string
  | number
  | andWord
  | classWord
  | elseWord
  | falseWord
  | forWord
  | funWord
  | ifWord
  | nilWord
  | orWord
  | printWord
  | returnWord
  | superWord
  | thisWord
  | trueWord
  | varWord
  | whileWord
  | endOfText
  | foreign (name : String)
  deriving DecidableEq, Inhabited

namespace TokenKind

/-- The name of a kind in listings of tokens. -/
def name : TokenKind → String
  | leftParen => "LEFT_PAREN"
  | rightParen => "RIGHT_PAREN"
  | leftBrace => "LEFT_BRACE"
  | rightBrace => "RIGHT_BRACE"
  | comma => "COMMA"
  | dot => "DOT"
  | minus => "MINUS"
  | plus => "PLUS"
  | semicolon => "SEMICOLON"
  | star => "STAR"
  | question => "QUESTION"
  | colon => "COLON"
  | slash => "SLASH"
  | bang => "BANG"
  | bangEqual => "BANG_EQUAL"
  | equal => "EQUAL"
  | equalEqual => "EQUAL_EQUAL"
  | less => "LESS"
  | lessEqual => "LESS_EQUAL"
  | greater => "GREATER"
  | greaterEqual => "GREATER_EQUAL"
  | identifier => "IDENTIFIER"
  | string => "STRING"
  | number => "NUMBER"
  | andWord => "AND"
  | classWord => "CLASS"
  | elseWord => "ELSE"
  | falseWord => "FALSE"
  | forWord => "FOR"
  | funWord => "FUN"
  | ifWord => "IF"
  | nilWord => "NIL"
  | orWord => "OR"
  | printWord => "PRINT"
  | returnWord => "RETURN"
  | superWord => "SUPER"
  | thisWord => "THIS"
  | trueWord => "TRUE"
  | varWord => "VAR"
  | whileWord => "WHILE"
  | endOfText => "EOF"
  | foreign name => name

/-- The kinds that the grammar has rules for. -/
def known : List TokenKind :=
  [leftParen, rightParen, leftBrace, rightBrace, comma, dot, minus, plus, semicolon,
    star, question, colon, slash, bang, bangEqual, equal, equalEqual, less, lessEqual,
    greater, greaterEqual, identifier, string, number, andWord, classWord, elseWord,
    falseWord, forWord, funWord, ifWord, nilWord, orWord, printWord, returnWord,
    superWord, thisWord, trueWord, varWord, whileWord, endOfText]

/-- The kind with a given name in listings of tokens. -/
def ofName (name : String) : TokenKind :=
  (known.find? (fun kind => kind.name == name)).getD (.foreign name)

/-- The reserved words with their kinds. -/
def keywords : List (String × TokenKind) :=
  [("and", andWord), ("class", classWord), ("else", elseWord), ("false", falseWord),
    ("for", forWord), ("fun", funWord), ("if", ifWord), ("nil", nilWord), ("or", orWord),
    ("print", printWord), ("return", returnWord), ("super", superWord),
    ("this", thisWord), ("true", trueWord), ("var", varWord), ("while", whileWord)]

/-- The kind of a word: a reserved one has its own, any other names something. -/
def ofWord (word : String) : TokenKind :=
  (keywords.lookup word).getD identifier

/-- The kind of a character that is a token by itself. -/
def ofMark : Char → Option TokenKind
  | '(' => some leftParen
  | ')' => some rightParen
  | '\x7b' => some leftBrace
  | '\x7d' => some rightBrace
  | ',' => some comma
  | '.' => some dot
  | '-' => some minus
  | '+' => some plus
  | ';' => some semicolon
  | '*' => some star
  | '?' => some question
  | ':' => some colon
  | _ => none

/-- The kinds of a character that may be followed by an equals sign: without it and
with it. -/
def ofComparison : Char → Option (TokenKind × TokenKind)
  | '!' => some (bang, bangEqual)
  | '=' => some (equal, equalEqual)
  | '<' => some (less, lessEqual)
  | '>' => some (greater, greaterEqual)
  | _ => none

/-- What a word stands for by itself: the two booleans are literals. -/
def wordLiteral : TokenKind → Scalar
  | trueWord => .boolean true
  | falseWord => .boolean false
  | _ => .nil

end TokenKind

/-- A word of a program. -/
structure Token where
  kind : TokenKind
  lexeme : String
  literal : Scalar
  line : Int
  deriving DecidableEq, Inhabited

namespace Token

/-- The token that closes every scanned text. -/
def endOfText (line : Int) : Token := ⟨.endOfText, "", .nil, line⟩

/-- The line that lists a token. -/
def listing (t : Token) : String :=
  t.kind.name ++ " " ++ t.lexeme ++ " " ++ t.literal.listing

end Token

end TreeWalk
