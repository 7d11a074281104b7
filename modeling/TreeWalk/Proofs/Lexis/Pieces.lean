import TreeWalk.Lexeme
import Mathlib.Data.Nat.Digits.Defs

/-!
# The lexical grammar

Which texts are pieces, said of a text alone and not of a way to read it: blanks,
comments, marks, strings, numbers and names. A text begins with many pieces in general;
the longest one is the one that counts.

## Implementation notes

The forms overlap only in their beginnings: a slash begins a comment too, a comparison
may go on with an equals sign, and a whole number may go on with a fraction. A text that
is a piece as a whole is cut as a whole, so it is a piece in one way only.
-/

namespace TreeWalk

/-- The marks and operators with their kinds. -/
def markTexts : List (List Char × TokenKind) :=
  [(['('], .leftParen), ([')'], .rightParen), (['\x7b'], .leftBrace), (['\x7d'], .rightBrace),
    ([','], .comma), (['.'], .dot), (['-'], .minus), (['+'], .plus), ([';'], .semicolon),
    (['*'], .star), (['?'], .question), ([':'], .colon), (['/'], .slash),
    (['!'], .bang), (['!', '='], .bangEqual), (['='], .equal), (['=', '='], .equalEqual),
    (['<'], .less), (['<', '='], .lessEqual), (['>'], .greater), (['>', '='], .greaterEqual)]

/-- A decimal digit. -/
def IsDigit (c : Char) : Prop := '0' ≤ c ∧ c ≤ '9'

/-- A character that begins a name. -/
def BeginsName (c : Char) : Prop := ('a' ≤ c ∧ c ≤ 'z') ∨ ('A' ≤ c ∧ c ≤ 'Z') ∨ c = '_'

/-- The double nearest to the number that is written with these digits before and after
the point. -/
def numeral (whole fraction : List Char) : Scalar :=
  let values := (whole ++ fraction).map fun c => c.toNat - '0'.toNat
  let decimal : Decimal := ⟨Nat.ofDigits 10 values.reverse, -(fraction.length : Int)⟩
  .number (Binary64.toFloat false decimal.magnitude)

/-- A text is a piece of the lexical grammar. -/
inductive IsPiece : List Char → Piece → Prop
  | blank {c : Char} : c ∈ [' ', '\r', '\t', '\n'] → IsPiece [c] .blank
  | comment {text : List Char} : '\n' ∉ text → IsPiece ('/' :: '/' :: text) .blank
  | mark {text : List Char} {kind : TokenKind} : (text, kind) ∈ markTexts →
      IsPiece text (.word kind .nil)
  | string {content : List Char} : '"' ∉ content →
      IsPiece ('"' :: (content ++ ['"'])) (.word .string (.string (String.ofList content)))
  | whole {digits : List Char} : digits ≠ [] → (∀ c ∈ digits, IsDigit c) →
      IsPiece digits (.word .number (numeral digits []))
  | decimal {whole fraction : List Char} : whole ≠ [] → fraction ≠ [] →
      (∀ c ∈ whole ++ fraction, IsDigit c) →
      IsPiece (whole ++ '.' :: fraction) (.word .number (numeral whole fraction))
  | keyword {text : List Char} {kind : TokenKind} :
      (String.ofList text, kind) ∈ TokenKind.keywords → IsPiece text (.word kind kind.wordLiteral)
  | name {c : Char} {text : List Char} : BeginsName c → (∀ d ∈ text, BeginsName d ∨ IsDigit d) →
      (∀ kind, (String.ofList (c :: text), kind) ∉ TokenKind.keywords) →
      IsPiece (c :: text) (.word .identifier .nil)

/-- The first part of a text is a piece, and the text begins with no longer one. -/
structure Cut.IsLongest (cut : Cut) : Prop where
  isPiece : IsPiece cut.text cut.piece
  longest : ∀ {text : List Char} {piece : Piece}, IsPiece text piece →
    text <+: cut.text ++ cut.rest → text.length ≤ cut.text.length

/-- A mark is a slash, a character that is a token by itself, or one that may be followed
by an equals sign. -/
theorem markTexts_cases : ∀ entry ∈ markTexts, entry = (['/'], .slash) ∨
    (∃ c ∈ entry.1.head?, entry.1 = [c] ∧ TokenKind.ofMark c = some entry.2) ∨
      ∃ c ∈ entry.1.head?, ∃ kinds ∈ TokenKind.ofComparison c,
        entry = ([c], kinds.1) ∨ entry = ([c, '='], kinds.2) := by
  -- said of options by tests, so that no search through all characters decides it
  have all : markTexts.all fun entry => entry = (['/'], .slash) ||
      entry.1.head?.any (fun c => entry.1 = [c] && TokenKind.ofMark c = some entry.2) ||
      entry.1.head?.any fun c => (TokenKind.ofComparison c).any fun kinds =>
        entry = ([c], kinds.1) || entry = ([c, '='], kinds.2) := by decide
  simpa only [List.all_eq_true, Bool.or_eq_true, Bool.and_eq_true, decide_eq_true_eq,
    Option.any_eq_true, Option.mem_def, or_assoc] using all

theorem mem_markTexts_of_mark {c : Char} {kind : TokenKind} (h : TokenKind.ofMark c = some kind) :
    ([c], kind) ∈ markTexts := by
  unfold TokenKind.ofMark at h
  split at h <;> cases h <;> decide

theorem mem_markTexts_of_comparison {c : Char} {single double : TokenKind}
    (h : TokenKind.ofComparison c = some (single, double)) :
    ([c], single) ∈ markTexts ∧ ([c, '='], double) ∈ markTexts := by
  unfold TokenKind.ofComparison at h
  split at h <;> cases h <;> decide

theorem isDigit_iff {c : Char} : c.isDigit = true ↔ IsDigit c := by
  simp only [Char.isDigit, IsDigit, Char.le_def, Bool.and_eq_true, decide_eq_true_eq, ge_iff_le]

theorem isLetter_iff {c : Char} : Cut.isLetter c = true ↔ BeginsName c := by
  have isAlpha : c.isAlpha = (decide (c.val ≥ 'A'.val ∧ c.val ≤ 'Z'.val) ||
      decide (c.val ≥ 'a'.val) && decide (c.val ≤ 'z'.val)) := rfl
  simp only [Cut.isLetter, isAlpha, BeginsName, Char.le_def, Bool.or_eq_true, Bool.and_eq_true,
    decide_eq_true_eq, ge_iff_le]
  rw [or_comm (a := _ ∧ _) (b := _ ∧ _), or_assoc]

/-- No digit begins a name. -/
theorem BeginsName.not_isDigit {c : Char} (h : BeginsName c) : ¬ IsDigit c := by
  rintro ⟨-, high⟩
  have nine : '9'.val.toNat = 57 := rfl
  have small : 'a'.val.toNat = 97 := rfl
  have large : 'A'.val.toNat = 65 := rfl
  simp only [BeginsName, Char.le_def, UInt32.le_iff_toNat_le] at h high
  obtain ⟨low, -⟩ | ⟨low, -⟩ | rfl := h
  · omega
  · omega
  · exact absurd high (by decide)

theorem isNameChar_iff {c : Char} : Cut.isNameChar c = true ↔ BeginsName c ∨ IsDigit c := by
  rw [Cut.isNameChar, Bool.or_eq_true, isLetter_iff, isDigit_iff]

end TreeWalk
