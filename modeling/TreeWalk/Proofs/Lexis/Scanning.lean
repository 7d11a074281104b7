import TreeWalk.Cursor
import TreeWalk.Proofs.Lexis.Longest

/-!
# Scanning divides a text into longest pieces

A text is divided from left to right, each time by the longest piece that the rest
begins with. Scanning succeeds if the text can be divided to its end and gives the pieces
that are words; otherwise it reports the place at which no piece fits.

## Implementation notes

Every text has one division that goes as far as it can. Scanning is compared with that
one, from any place on, so the induction is on the division.
-/

namespace TreeWalk

/-- A text is divided into longest pieces up to a rest. -/
inductive Divides : List Char → List (List Char × Piece) → List Char → Prop
  | stop {rest : List Char} : Divides rest [] rest
  | piece {cut : Cut} {pieces : List (List Char × Piece)} {rest : List Char} : cut.IsLongest →
      Divides cut.rest pieces rest →
      Divides (cut.text ++ cut.rest) ((cut.text, cut.piece) :: pieces) rest

/-- A text begins with no piece. -/
def FitsNoPiece (rest : List Char) : Prop :=
  ∀ text piece, IsPiece text piece → ¬ text <+: rest

/-- The line at the end of a text. -/
def lineBehind (text : List Char) : Nat := 1 + text.count '\n'

/-- The tokens of the pieces behind a text, and the end token. -/
def tokensBehind (before : List Char) : List (List Char × Piece) → List Token
  | [] => [.endOfText (lineBehind before)]
  | (text, .word kind literal) :: pieces =>
    ⟨kind, String.ofList text, literal, lineBehind (before ++ text)⟩ ::
      tokensBehind (before ++ text) pieces
  | (text, _) :: pieces => tokensBehind (before ++ text) pieces

/-- What is reported if no piece fits at a character behind a text. A string without an
end reaches to the end of the text. -/
def misfitReport (before : List Char) (c : Char) (rest : List Char) : Report :=
  if c = '"' then .atLine .lexical "Unterminated string." (lineBehind (before ++ c :: rest))
  else .atLine .lexical ("Unexpected character '" ++ c.toString ++ "'.") (lineBehind before)

/-- What comes of a text that is divided so, where another text stands before it. -/
def divided (before : List Char) (pieces : List (List Char × Piece)) :
    List Char → Except Report (List Token)
  | [] => .ok (tokensBehind before pieces)
  | c :: rest => .error (misfitReport (before ++ pieces.flatMap Prod.fst) c rest)

theorem Divides.append {text rest : List Char} {pieces : List (List Char × Piece)}
    (h : Divides text pieces rest) : text = pieces.flatMap Prod.fst ++ rest := by
  induction h with
  | stop => rfl
  | piece _ _ ih => rw [List.flatMap_cons, List.append_assoc, ← ih]

theorem IsPiece.ne_nil {text : List Char} {piece : Piece} (h : IsPiece text piece) : text ≠ [] := by
  obtain ⟨c, cs, rfl, -⟩ := h.cutsWhole.whole
  exact List.cons_ne_nil c cs

theorem fitsNoPiece_nil : FitsNoPiece [] :=
  fun _ _ isPiece begins => isPiece.ne_nil (List.prefix_nil.1 begins)

/-- Every text is divided as far as it goes. -/
theorem exists_divides (text : List Char) :
    ∃ pieces rest, Divides text pieces rest ∧ FitsNoPiece rest := by
  induction size : text.length using Nat.strong_induction_on generalizing text with
  | _ n ih =>
    cases text with
    | nil => exact ⟨[], [], .stop, fitsNoPiece_nil⟩
    | cons c cs =>
        by_cases fault : (Cut.first c cs).piece.IsFault
        · exact ⟨[], c :: cs, .stop, Cut.first_isFault_iff.1 fault⟩
        · have shorter := Cut.first_rest_length_le c cs
          obtain ⟨pieces, rest, tail, stuck⟩ :=
            ih _ (by simp only [← size, List.length_cons]; omega) (Cut.first c cs).rest rfl
          have step := Divides.piece (Cut.first_isLongest fault) tail
          rw [Cut.first_append] at step
          exact ⟨_, rest, step, stuck⟩

/-- The end of a text is no piece of it. -/
theorem IsPiece.kind_ne_endOfText {text : List Char} {kind : TokenKind} {literal : Scalar}
    (h : IsPiece text (.word kind literal)) : kind ≠ .endOfText := by
  have marks : ∀ entry ∈ markTexts, entry.2 ≠ .endOfText := by decide
  have words : ∀ entry ∈ TokenKind.keywords, entry.2 ≠ .endOfText := by decide
  cases h with
  | mark listed => exact marks _ listed
  | keyword listed => exact words _ listed
  | string | whole | decimal | name => exact TokenKind.noConfusion

theorem lineBehind_append (before text : List Char) :
    lineBehind (before ++ text) = lineBehind before + text.count '\n' := by
  rw [lineBehind, lineBehind, List.count_append, Nat.add_assoc]

theorem divided_blank (before text : List Char) (pieces : List (List Char × Piece))
    (rest : List Char) :
    divided before ((text, .blank) :: pieces) rest = divided (before ++ text) pieces rest := by
  cases rest with
  | nil => rfl
  | cons c rest => rw [divided, divided, List.flatMap_cons, List.append_assoc]

theorem divided_word (before text : List Char) (kind : TokenKind) (literal : Scalar)
    (pieces : List (List Char × Piece)) (rest : List Char) :
    divided before ((text, .word kind literal) :: pieces) rest =
      (divided (before ++ text) pieces rest).map
        (⟨kind, String.ofList text, literal, lineBehind (before ++ text)⟩ :: ·) := by
  cases rest with
  | nil => rfl
  | cons c rest =>
      rw [divided, divided, List.flatMap_cons, List.append_assoc]
      rfl

namespace Cursor

variable {place : Cursor}

theorem all_nil (h : place.rest = []) : place.all.1 = .ok [.endOfText place.line] := by
  rw [all.eq_def, next_nil h]
  rfl

/-- Scanning takes the first cut off and goes on behind it. -/
theorem all_cons {c : Char} {cs : List Char} (h : place.rest = c :: cs) :
    place.all.1 =
      match classify (Cut.first c cs) (place.past (Cut.first c cs)).line with
      | .ok none => (place.past (Cut.first c cs)).all.1
      | .ok (some token) => (place.past (Cut.first c cs)).all.1.map (token :: ·)
      | .error e => .error e := by
  rw [all.eq_def, next_cons h]
  generalize isClass : classify (Cut.first c cs) (place.past (Cut.first c cs)).line = found
  obtain e | _ | token := found
  · rfl
  · dsimp only
    rw [← all.eq_def]
  · have goesOn : token.kind ≠ .endOfText := by
      unfold classify at isClass
      split at isClass <;> cases isClass
      next isWord =>
        have sound : ¬ (Cut.first c cs).piece.IsFault := by simp [isWord, Piece.IsFault]
        have isPiece := Cut.first_isPiece sound
        rw [isWord] at isPiece
        exact isPiece.kind_ne_endOfText
    simp only [dif_pos goesOn]

/-- From a place behind a text on, scanning comes to what the division of the rest comes
to. -/
theorem all_eq_divided {before text rest : List Char} {pieces : List (List Char × Piece)}
    (division : Divides text pieces rest) (stuck : FitsNoPiece rest) (here : place.rest = text)
    (behind : place.line = lineBehind before) :
    place.all.1.mapError LexicalError.report = divided before pieces rest := by
  induction division generalizing before place with
  | @stop rest =>
      cases rest with
      | nil =>
          rw [all_nil here, behind]
          rfl
      | cons c cs =>
          rw [all_cons here, divided, List.flatMap_nil, List.append_nil,
            Cut.first_fault (Cut.first_isFault_iff.2 stuck)]
          by_cases isQuote : c = '"'
          · rw [if_pos isQuote, misfitReport, if_pos isQuote, isQuote, lineBehind_append, ← behind]
            rfl
          · have noBreak : c ≠ '\n' := by
              rintro rfl
              exact stuck ['\n'] .blank (.blank (by decide)) ⟨cs, rfl⟩
            rw [if_neg isQuote, misfitReport, if_neg isQuote, ← behind]
            simp only [classify, past, List.count_singleton, beq_false_of_ne noBreak]
            rfl
  | @piece cut pieces rest longest tail ih =>
      obtain ⟨c, cs, some, -⟩ := longest.isPiece.cutsWhole.whole
      have whole : cut.text ++ cut.rest = c :: (cs ++ cut.rest) := by rw [some, List.cons_append]
      have first := longest.eq_first whole
      have line : (place.past cut).line = lineBehind (before ++ cut.text) := by
        rw [lineBehind_append, ← behind, past]
      have tail_eq : (place.past cut).all.1.mapError LexicalError.report =
          divided (before ++ cut.text) pieces rest := ih stuck rfl line
      rw [all_cons (here.trans whole), ← first, classify]
      cases piece : cut.piece with
      | blank =>
          rw [divided_blank]
          exact tail_eq
      | word kind literal =>
          rw [divided_word, ← tail_eq, ← line]
          cases (place.past cut).all.1 <;> rfl
      | unexpected => exact absurd (piece ▸ longest.isPiece).not_isFault (not_not_intro trivial)
      | unterminated => exact absurd (piece ▸ longest.isPiece).not_isFault (not_not_intro trivial)

end Cursor

/-- Scanning a text comes to what its division comes to, wherever the cursor stood. -/
theorem Scanner.all_eq_divided {scanner : Scanner} {pieces : List (List Char × Piece)}
    {rest : List Char} (division : Divides scanner.text pieces rest) (stuck : FitsNoPiece rest) :
    scanner.all.1.mapError LexicalError.report = divided [] pieces rest :=
  Cursor.all_eq_divided division stuck rfl rfl

/-- Scanning succeeds exactly if the text is divided to its end. -/
theorem Scanner.all_eq_ok_iff {scanner : Scanner} {tokens : List Token} :
    scanner.all.1 = .ok tokens ↔
      ∃ pieces, Divides scanner.text pieces [] ∧ tokens = tokensBehind [] pieces := by
  constructor
  · intro scanned
    obtain ⟨pieces, rest, division, stuck⟩ := exists_divides scanner.text
    have outcome := all_eq_divided division stuck
    rw [scanned] at outcome
    cases rest with
    | nil => exact ⟨pieces, division, Except.ok.inj outcome⟩
    | cons c rest => cases outcome
  · rintro ⟨pieces, division, rfl⟩
    have outcome := all_eq_divided division fitsNoPiece_nil
    cases scanned : scanner.all.1 with
    | ok tokens =>
        rw [scanned] at outcome
        exact congrArg _ (Except.ok.inj outcome)
    | error e =>
        rw [scanned] at outcome
        cases outcome

/-- Scanning fails exactly if the division of the text is stuck before its end. -/
theorem Scanner.all_eq_error_iff {scanner : Scanner} {report : Report} :
    (∃ e, scanner.all.1 = .error e ∧ e.report = report) ↔
      ∃ pieces c rest, Divides scanner.text pieces (c :: rest) ∧ FitsNoPiece (c :: rest) ∧
        report = misfitReport (pieces.flatMap Prod.fst) c rest := by
  constructor
  · rintro ⟨e, scanned, rfl⟩
    obtain ⟨pieces, rest, division, stuck⟩ := exists_divides scanner.text
    have outcome := all_eq_divided division stuck
    rw [scanned] at outcome
    cases rest with
    | nil => cases outcome
    | cons c rest => exact ⟨pieces, c, rest, division, stuck, Except.error.inj outcome⟩
  · rintro ⟨pieces, c, rest, division, stuck, rfl⟩
    have outcome := all_eq_divided division stuck
    cases scanned : scanner.all.1 with
    | ok tokens =>
        rw [scanned] at outcome
        cases outcome
    | error e =>
        rw [scanned] at outcome
        exact ⟨e, rfl, Except.error.inj outcome⟩

/-- Scanning succeeds exactly if the text is divided from left to right into pieces, each
the longest that the rest begins with, and it gives the words among them in order, each
with the line on which it ends, and the end token. Otherwise it reports the first place at
which no piece fits. -/
theorem scanning_takes_longest_pieces (scanner : Scanner) :
    (∀ tokens, scanner.all.1 = .ok tokens ↔
      ∃ pieces, Divides scanner.text pieces [] ∧ tokens = tokensBehind [] pieces) ∧
    ∀ report, (∃ e, scanner.all.1 = .error e ∧ e.report = report) ↔
      ∃ pieces c rest, Divides scanner.text pieces (c :: rest) ∧ FitsNoPiece (c :: rest) ∧
        report = misfitReport (pieces.flatMap Prod.fst) c rest :=
  ⟨fun _ => Scanner.all_eq_ok_iff, fun _ => Scanner.all_eq_error_iff⟩

end TreeWalk
