import TreeWalk.Lexeme
import TreeWalk.Report

/-!
# Reading tokens from a text

A cursor stands between two pieces of a text and hands out one token at a time.
A faulty piece is reported and left behind, so reading can go on after it. A
scanner is a cursor that remembers its text and can start over.

## Implementation notes

The line of a token, and of a fault, is the one on which its piece ends.
-/

namespace TreeWalk

/-- Why a piece of text is no token. -/
inductive LexicalCause
  | unexpectedCharacter (c : Char)
  | unterminatedString
  deriving DecidableEq

/-- A faulty piece of text. -/
structure LexicalError where
  cause : LexicalCause
  line : Nat
  deriving DecidableEq

/-- The message for a faulty piece of text. -/
def LexicalCause.message : LexicalCause → String
  | .unexpectedCharacter c => "Unexpected character '" ++ c.toString ++ "'."
  | .unterminatedString => "Unterminated string."

/-- What the user is told about a faulty piece of text. -/
def LexicalError.report (e : LexicalError) : Report :=
  .atLine .lexical e.cause.message e.line

/-- A place in a text: what is left of it, where the last piece taken began, how many
characters lie before the place, and its line. -/
structure Cursor where
  rest : List Char
  start : Nat
  current : Nat
  line : Nat
  deriving DecidableEq

namespace Cursor

/-- The cursor before a text. -/
def ofText (text : List Char) : Cursor := ⟨text, 0, 0, 1⟩

/-- The cursor behind a piece that was cut off. -/
def past (place : Cursor) (cut : Cut) : Cursor :=
  { rest := cut.rest
    start := place.current
    current := place.current + cut.text.length
    line := place.line + cut.text.count '\n' }

/-- The token of a piece that ends on a line: none for a blank, an error for a
faulty piece. -/
def classify (cut : Cut) (line : Nat) : Except LexicalError (Option Token) :=
  match cut.piece with
  | .blank => .ok none
  | .word kind literal => .ok (some ⟨kind, String.ofList cut.text, literal, line⟩)
  | .unexpected c => .error ⟨.unexpectedCharacter c, line⟩
  | .unterminated => .error ⟨.unterminatedString, line⟩

/-- The next token of a text, or the first fault before it, with the cursor behind
that piece. At the end of the text there is an end token, and the cursor stays. -/
def next (place : Cursor) : Except LexicalError Token × Cursor :=
  match _h : place.rest with
  | [] => (.ok (.endOfText place.line), place)
  | c :: cs =>
    let cut := Cut.first c cs
    let after := place.past cut
    match classify cut after.line with
    | .ok none => after.next
    | .ok (some token) => (.ok token, after)
    | .error e => (.error e, after)
termination_by place.rest.length
decreasing_by
  have := Cut.first_rest_length_le c cs
  simp [past, _h]
  omega

theorem next_nil {place : Cursor} (h : place.rest = []) :
    place.next = (.ok (.endOfText place.line), place) := by
  rw [next.eq_def]
  split
  next => rfl
  next h' => simp [h] at h'

theorem next_cons {place : Cursor} {c : Char} {cs : List Char} (h : place.rest = c :: cs) :
    place.next =
      match classify (Cut.first c cs) (place.past (Cut.first c cs)).line with
      | .ok none => (place.past (Cut.first c cs)).next
      | .ok (some token) => (.ok token, place.past (Cut.first c cs))
      | .error e => (.error e, place.past (Cut.first c cs)) := by
  rw [next.eq_def]
  split
  next h' => simp [h] at h'
  next h' =>
    obtain ⟨rfl, rfl⟩ := List.cons.inj (h ▸ h')
    rfl

theorem next_length_le (place : Cursor) : place.next.2.rest.length ≤ place.rest.length := by
  fun_induction next place with
  | case1 => exact Nat.le_refl _
  | case2 place c cs h cut after _ ih =>
    have := Cut.first_rest_length_le c cs
    simp only [h, List.length_cons]
    exact Nat.le_trans ih (Nat.le_succ_of_le this)
  | case3 place c cs h =>
    have := Cut.first_rest_length_le c cs
    simp only [h, List.length_cons]
    exact Nat.le_succ_of_le this
  | case4 place c cs h =>
    have := Cut.first_rest_length_le c cs
    simp only [h, List.length_cons]
    exact Nat.le_succ_of_le this

/-- Reading moves forward unless the text is at its end. -/
theorem next_length_lt {place : Cursor} (h : place.rest ≠ []) :
    place.next.2.rest.length < place.rest.length := by
  obtain ⟨c, cs, h⟩ := List.exists_cons_of_ne_nil h
  have shorter := Cut.first_rest_length_le c cs
  have after := next_length_le (place.past (Cut.first c cs))
  simp only [past] at after
  rw [next_cons h, h]
  split <;> simp only [past, List.length_cons] <;> omega

/-- All tokens from here on up to the end token, or the first fault, with the cursor
where reading stopped. -/
def all (place : Cursor) : Except LexicalError (List Token) × Cursor :=
  match _h : place.next with
  | (.error e, after) => (.error e, after)
  | (.ok token, after) =>
    if _more : token.kind ≠ .endOfText then
      let (tokens, last) := after.all
      (tokens.map (token :: ·), last)
    else (.ok [token], after)
termination_by place.rest.length
decreasing_by
  have unfinished : place.rest ≠ [] := fun done => by
    rw [next_nil done] at _h
    obtain ⟨same, -⟩ := Prod.mk.inj _h
    exact _more (congrArg Token.kind (Except.ok.inj same)).symm
  have := next_length_lt unfinished
  rwa [_h] at this

end Cursor

/-- A text under a cursor. -/
structure Scanner where
  text : List Char
  cursor : Cursor
  deriving DecidableEq

namespace Scanner

/-- The scanner of a text, with the cursor before it. -/
def ofString (text : String) : Scanner := ⟨text.toList, .ofText text.toList⟩

/-- The next token or fault. -/
def next (s : Scanner) : Except LexicalError Token × Scanner :=
  let (answer, cursor) := s.cursor.next
  (answer, ⟨s.text, cursor⟩)

/-- All tokens of the text or its first fault, wherever the cursor was before. -/
def all (s : Scanner) : Except LexicalError (List Token) × Scanner :=
  let (answer, cursor) := (Cursor.ofText s.text).all
  (answer, ⟨s.text, cursor⟩)

end Scanner

end TreeWalk
