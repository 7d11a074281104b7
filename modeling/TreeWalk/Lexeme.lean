import TreeWalk.Token

/-!
# Lexemes

A program's text is a row of pieces: blanks, which separate, and words, which are
the tokens. `Cut.first` cuts the first piece off a text and says what it is. A
piece is as long as its form allows. Where no form fits, the piece is faulty.

## Implementation notes

Only ASCII letters, digits and the underscore make names and numbers; every other
character outside strings and comments is either a mark or unexpected. A comment
stops before the line feed that ends it.
-/

namespace TreeWalk

/-- What a piece of text is. -/
inductive Piece
  | blank
  | word (kind : TokenKind) (literal : Scalar)
  | unexpected (c : Char)
  | unterminated
  deriving DecidableEq

/-- A text cut in two: its first piece and what follows. -/
structure Cut where
  piece : Piece
  text : List Char
  rest : List Char
  deriving DecidableEq

namespace Cut

/-- The characters that separate and are no part of a comment. -/
def isBlank (c : Char) : Bool := c = ' ' || c = '\r' || c = '\t' || c = '\n'

/-- The characters that begin a name. -/
def isLetter (c : Char) : Bool := c.isAlpha || c = '_'

/-- The characters that continue a name. -/
def isNameChar (c : Char) : Bool := isLetter c || c.isDigit

/-- After a slash: a comment if another slash follows, otherwise the operator. -/
def afterSlash (cs : List Char) : Cut :=
  match cs with
  | '/' :: more =>
    ⟨.blank, '/' :: '/' :: more.takeWhile (· != '\n'), more.dropWhile (· != '\n')⟩
  | _ => ⟨.word .slash .nil, ['/'], cs⟩

/-- After a quote: a string, if there is another quote. -/
def afterQuote (cs : List Char) : Cut :=
  let content := cs.takeWhile (· != '"')
  match cs.dropWhile (· != '"') with
  | [] => ⟨.unterminated, '"' :: content, []⟩
  | quote :: rest =>
    ⟨.word .string (.string (String.ofList content)), '"' :: (content ++ [quote]), rest⟩

/-- After a character that may be followed by an equals sign. -/
def afterComparison (c : Char) (single double : TokenKind) (cs : List Char) : Cut :=
  match cs with
  | '=' :: rest => ⟨.word double .nil, [c, '='], rest⟩
  | _ => ⟨.word single .nil, [c], cs⟩

/-- The digits behind a point that the text begins with, and what follows them. A
point without a digit behind it is no part of a number. -/
def fraction? : List Char → Option (List Char × List Char)
  | '.' :: d :: more =>
    if d.isDigit then some (d :: more.takeWhile Char.isDigit, more.dropWhile Char.isDigit)
    else none
  | _ => none

/-- The number with these digits before and after the point. -/
def numberLiteral (whole fraction : List Char) : Scalar :=
  .number (Binary64.toFloat false (Decimal.ofText whole fraction).magnitude)

/-- After a digit: a number. -/
def afterDigit (c : Char) (cs : List Char) : Cut :=
  let whole := c :: cs.takeWhile Char.isDigit
  let after := cs.dropWhile Char.isDigit
  match fraction? after with
  | none => ⟨.word .number (numberLiteral whole []), whole, after⟩
  | some (fraction, rest) =>
    ⟨.word .number (numberLiteral whole fraction), whole ++ '.' :: fraction, rest⟩

/-- After a letter: a name or a reserved word. -/
def afterLetter (c : Char) (cs : List Char) : Cut :=
  let text := c :: cs.takeWhile isNameChar
  let kind := TokenKind.ofWord (String.ofList text)
  ⟨.word kind kind.wordLiteral, text, cs.dropWhile isNameChar⟩

/-- The first piece of the text that begins with `c` and goes on with `cs`. -/
def first (c : Char) (cs : List Char) : Cut :=
  if c = '/' then afterSlash cs
  else if isBlank c then ⟨.blank, [c], cs⟩
  else if c = '"' then afterQuote cs
  else if c.isDigit then afterDigit c cs
  else if isLetter c then afterLetter c cs
  else match TokenKind.ofMark c, TokenKind.ofComparison c with
    | some kind, _ => ⟨.word kind .nil, [c], cs⟩
    | none, some (single, double) => afterComparison c single double cs
    | none, none => ⟨.unexpected c, [c], cs⟩

theorem afterSlash_append (cs : List Char) :
    (afterSlash cs).text ++ (afterSlash cs).rest = '/' :: cs := by
  unfold afterSlash
  split <;> simp

theorem afterQuote_append (cs : List Char) :
    (afterQuote cs).text ++ (afterQuote cs).rest = '"' :: cs := by
  have whole := List.takeWhile_append_dropWhile (p := (· != '"')) (l := cs)
  unfold afterQuote
  split
  next h => simpa [h] using whole
  next h => simpa [h] using whole

theorem afterComparison_append (c : Char) (single double : TokenKind) (cs : List Char) :
    (afterComparison c single double cs).text ++
      (afterComparison c single double cs).rest = c :: cs := by
  unfold afterComparison
  split <;> simp

theorem fraction?_append {cs fraction rest : List Char}
    (h : fraction? cs = some (fraction, rest)) : '.' :: (fraction ++ rest) = cs := by
  unfold fraction? at h
  split at h
  next =>
    split at h
    next =>
      obtain ⟨rfl, rfl⟩ := Prod.mk.inj (Option.some.inj h)
      simp
    next => simp at h
  next => simp at h

theorem afterDigit_append (c : Char) (cs : List Char) :
    (afterDigit c cs).text ++ (afterDigit c cs).rest = c :: cs := by
  simp only [afterDigit]
  split
  next => simp
  next fraction rest h => simp [fraction?_append h]

theorem afterLetter_append (c : Char) (cs : List Char) :
    (afterLetter c cs).text ++ (afterLetter c cs).rest = c :: cs := by
  simp [afterLetter]

/-- A cut loses nothing. -/
theorem first_append (c : Char) (cs : List Char) :
    (first c cs).text ++ (first c cs).rest = c :: cs := by
  unfold first
  split
  next h => rw [afterSlash_append, h]
  next =>
    split
    next => simp
    next =>
      split
      next h => rw [afterQuote_append, h]
      next =>
        split
        next => exact afterDigit_append c cs
        next =>
          split
          next => exact afterLetter_append c cs
          next =>
            split
            next => simp
            next => exact afterComparison_append ..
            next => simp

theorem first_text_ne_nil (c : Char) (cs : List Char) : (first c cs).text ≠ [] := by
  unfold first afterSlash afterQuote afterDigit afterLetter afterComparison
  grind

/-- What follows a piece is shorter than the text. -/
theorem first_rest_length_le (c : Char) (cs : List Char) :
    (first c cs).rest.length ≤ cs.length := by
  have whole := congrArg List.length (first_append c cs)
  have positive := List.length_pos_iff.2 (first_text_ne_nil c cs)
  simp only [List.length_append, List.length_cons] at whole
  omega

end Cut

end TreeWalk
