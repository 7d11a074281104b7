import TreeWalk.Proofs.Counterparts.Trees
import TreeWalk.Proofs.Lexis.Joining

/-!
# Words keep apart by blanks

The words of a text with other blanks and comments between them are the same words: a text
that is put together from the lexemes of scanned tokens is scanned to these tokens, each on
the line on which it ends now.

## Implementation notes

Behind a word the first character of a gap is a blank. No longer piece begins there: a
piece with a blank behind its first character is a comment or a string, and a word that
begins like one of these is a slash or ends with its own quote. A comment alone would not
do, since it would go on with a slash before it.
-/

namespace TreeWalk

/-- The characters that separate words and are no part of a comment. -/
def blanks : List Char := [' ', '\r', '\t', '\n']

/-- Blanks and comments with the line feeds that end them, in any order. -/
inductive IsGap : List Char → Prop
  | stop : IsGap []
  | blank {c : Char} {more : List Char} : c ∈ blanks → IsGap more → IsGap (c :: more)
  | comment {text more : List Char} : '\n' ∉ text → IsGap more →
      IsGap ('/' :: '/' :: (text ++ '\n' :: more))

/-- A gap that begins with a blank. -/
def IsSeparator (gap : List Char) : Prop := IsGap gap ∧ ∃ c ∈ gap.head?, c ∈ blanks

/-- Words with gaps between them. -/
def joined : List (List Char) → List (List Char) → List Char
  | [], _ => []
  | word :: words, [] => word ++ joined words []
  | word :: words, gap :: gaps => word ++ (gap ++ joined words gaps)

/-- Blanks are no characters of names and numbers. -/
theorem not_nameChar_of_blank {c : Char} (isBlank : c ∈ blanks) : ¬ (BeginsName c ∨ IsDigit c) := by
  -- said by a test, so that no search through all characters decides it
  have all : blanks.all fun c => !Cut.isNameChar c := by decide
  rw [← isNameChar_iff, Bool.not_eq_true]
  simpa using List.all_eq_true.1 all c isBlank

theorem not_mem_mark_of_blank {c : Char} (isBlank : c ∈ blanks) {text : List Char}
    {kind : TokenKind} (listed : (text, kind) ∈ markTexts) : c ∉ text := by
  have all : blanks.all fun c => markTexts.all fun entry => !entry.1.contains c := by decide
  have test := List.all_eq_true.1 (List.all_eq_true.1 all c isBlank) _ listed
  simpa using test

theorem not_mem_keyword_of_blank {c : Char} (isBlank : c ∈ blanks) {word : String}
    {kind : TokenKind} (listed : (word, kind) ∈ TokenKind.keywords) : c ∉ word.toList := by
  intro among
  have letter := (TokenKind.keywords_letters _ listed).2 c among
  exact not_nameChar_of_blank isBlank (.inl (isLetter_iff.1 letter))

/-- A piece that holds a blank is this blank, a comment or a string. -/
theorem IsPiece.of_blank {text : List Char} {piece : Piece} {c : Char} (h : IsPiece text piece)
    (isBlank : c ∈ blanks) (inside : c ∈ text) :
    text = [c] ∨ (∃ cs, '\n' ∉ cs ∧ text = '/' :: '/' :: cs) ∨ ∃ cs, text = '"' :: cs := by
  obtain ⟨noName, noDigit⟩ := not_or.1 (not_nameChar_of_blank isBlank)
  cases h with
  | blank => exact .inl (congrArg (fun c => [c]) (List.mem_singleton.1 inside).symm)
  | comment outside => exact .inr (.inl ⟨_, outside, rfl⟩)
  | mark listed => exact absurd inside (not_mem_mark_of_blank isBlank listed)
  | string => exact .inr (.inr ⟨_, rfl⟩)
  | whole _ digits => exact absurd (digits c inside) noDigit
  | @decimal whole fraction _ _ digits =>
    have noPoint : c ≠ '.' := by
      rintro rfl
      exact absurd isBlank (by decide)
    have among : c ∈ whole ++ fraction := by simpa [noPoint] using inside
    exact absurd (digits c among) noDigit
  | keyword listed => exact absurd inside (by simpa using not_mem_keyword_of_blank isBlank listed)
  | name begins others _ =>
    obtain rfl | among := List.mem_cons.1 inside
    · exact absurd begins noName
    · exact absurd (others c among) (not_nameChar_of_blank isBlank)

/-- No piece goes on behind a word with a blank. -/
theorem IsPiece.not_blank_behind {word tail : List Char} {kind : TokenKind} {literal : Scalar}
    {piece : Piece} {c : Char} (h : IsPiece word (.word kind literal)) (isBlank : c ∈ blanks) :
    ¬ IsPiece (word ++ c :: tail) piece := by
  intro longer
  obtain ⟨d, ds, rfl⟩ := List.exists_cons_of_ne_nil h.ne_nil
  obtain alone | ⟨cs, noFeed, isComment⟩ | ⟨cs, isString⟩ := longer.of_blank isBlank (by simp)
  · simp at alone
  · obtain ⟨rfl, more⟩ := List.cons.inj isComment
    cases ds with
    | nil =>
      obtain ⟨rfl, -⟩ := List.cons.inj more
      exact absurd isBlank (by decide)
    | cons e es =>
      obtain ⟨rfl, rfl⟩ := List.cons.inj more
      have outside : '\n' ∉ es := fun among => noFeed (List.mem_append_left _ among)
      cases h.unique (.comment outside)
  · obtain ⟨rfl, -⟩ := List.cons.inj isString
    rw [List.cons_append] at longer
    have le := longer.length_le_of_quote h (List.prefix_append ds (c :: tail))
    simp only [List.length_append, List.length_cons] at le
    omega

/-- A word is the longest piece at the end of a text or before a blank. -/
theorem IsPiece.isLongest {word rest : List Char} {kind : TokenKind} {literal : Scalar}
    (h : IsPiece word (.word kind literal)) (apart : ∀ c ∈ rest.head?, c ∈ blanks) :
    Cut.IsLongest ⟨.word kind literal, word, rest⟩ where
  isPiece := h
  longest {text piece} isPiece begins := by
    obtain short | ⟨tail, rfl⟩ :=
      List.prefix_or_prefix_of_prefix begins (List.prefix_append word rest)
    · exact short.length_le
    · cases tail with
      | nil => simp
      | cons c tail =>
        obtain ⟨more, rfl⟩ := (List.prefix_append_right_inj word).1 begins
        exact absurd isPiece (h.not_blank_behind (apart c rfl))

theorem isLongest_blank {c : Char} (isBlank : c ∈ blanks) (rest : List Char) :
    Cut.IsLongest ⟨.blank, [c], rest⟩ := by
  have cut := Cut.first_blank isBlank rest
  rw [← cut]
  exact Cut.first_isLongest (by rw [cut]; exact id)

/-- A comment ends where its line does. -/
theorem isLongest_comment {text : List Char} (inside : '\n' ∉ text) (rest : List Char) :
    Cut.IsLongest ⟨.blank, '/' :: '/' :: text, '\n' :: rest⟩ := by
  have stays : ∀ d ∈ text, (d != '\n') = true := by
    intro d among
    exact bne_iff_ne.2 fun same => inside (same ▸ among)
  have cut : Cut.first '/' ('/' :: (text ++ '\n' :: rest)) =
      ⟨.blank, '/' :: '/' :: text, '\n' :: rest⟩ := by
    simp [Cut.first_slash, Cut.afterSlash, List.takeWhile_append_of_pos stays,
      List.dropWhile_append_of_pos stays]
  rw [← cut]
  exact Cut.first_isLongest (by rw [cut]; exact id)

/-- A gap before a text is divided into blanks, which give no tokens. -/
theorem IsGap.divides {gap text : List Char} {pieces : List (List Char × Piece)} (h : IsGap gap)
    (division : Divides text pieces []) :
    ∃ pieces', Divides (gap ++ text) pieces' [] ∧
      ∀ before, tokensBehind before pieces' = tokensBehind (before ++ gap) pieces := by
  induction h with
  | stop => exact ⟨pieces, division, fun before => by rw [List.append_nil]⟩
  | @blank c more isBlank _ ih =>
    obtain ⟨pieces', rest, same⟩ := ih
    refine ⟨([c], .blank) :: pieces', .piece (isLongest_blank isBlank _) rest, fun before => ?_⟩
    rw [tokensBehind, same, List.append_assoc, List.singleton_append]
    rintro kind literal ⟨⟩
  | @comment inner more inside _ ih =>
    obtain ⟨pieces', rest, same⟩ := ih
    have line := Divides.piece (isLongest_blank (c := '\n') (by decide) _) rest
    have step := Divides.piece (isLongest_comment inside _) line
    refine ⟨_, by simpa using step, fun before => ?_⟩
    rw [tokensBehind, tokensBehind, same]
    · simp
    · rintro kind literal ⟨⟩
    · rintro kind literal ⟨⟩

/-- A token is a word that its own text stands for. -/
def Token.IsWord (t : Token) : Prop := IsPiece t.lexeme.toList (.word t.kind t.literal)

/-- The tokens of a divided text are words up to the end token. -/
theorem Divides.words {text rest : List Char} {pieces : List (List Char × Piece)}
    (h : Divides text pieces rest) (before : List Char) :
    ∃ words line, tokensBehind before pieces = words ++ [.endOfText line] ∧
      ∀ t ∈ words, t.IsWord := by
  induction h generalizing before with
  | stop => exact ⟨[], _, rfl, fun t among => absurd among List.not_mem_nil⟩
  | @piece cut pieces rest longest _ ih =>
    obtain ⟨words, line, cutAtEnd, areWords⟩ := ih (before ++ cut.text)
    have isPiece := longest.isPiece
    cases piece : cut.piece with
    | word kind literal =>
      rw [piece] at isPiece
      rw [tokensBehind, cutAtEnd]
      refine ⟨_ :: words, line, rfl, fun t among => ?_⟩
      obtain rfl | among := List.mem_cons.1 among
      · rwa [Token.IsWord, String.toList_ofList]
      · exact areWords t among
    | blank | unexpected | unterminated => exact ⟨words, line, cutAtEnd, areWords⟩

/-- The texts of some tokens. -/
def lexemes (tokens : List Token) : List (List Char) := tokens.map fun t => t.lexeme.toList

/-- All gaps of a row separate, except that the last one may be missing. -/
structure Separate (gaps : List (List Char)) : Prop where
  inner : ∀ gap ∈ gaps.dropLast, IsSeparator gap
  last : ∀ gap ∈ gaps.getLast?, IsSeparator gap ∨ gap = []

theorem Separate.head {gap : List Char} {gaps : List (List Char)} (h : Separate (gap :: gaps)) :
    IsSeparator gap ∨ gap = [] ∧ gaps = [] := by
  cases gaps with
  | nil => exact (h.last gap rfl).imp_right fun none => ⟨none, rfl⟩
  | cons next gaps => exact .inl (h.inner gap List.mem_cons_self)

theorem Separate.tail {gap : List Char} {gaps : List (List Char)} (h : Separate (gap :: gaps)) :
    Separate gaps := by
  cases gaps with
  | nil => exact ⟨by simp, by simp⟩
  | cons next gaps =>
    refine ⟨fun other among => h.inner other (List.mem_cons_of_mem _ among), fun other ends => ?_⟩
    exact h.last other (by rwa [List.getLast?_cons_cons])

/-- Tokens are those of a row, each with the line at its end where the row has these gaps. -/
structure Spaced (before : List Char) (tokens : List Token) (gaps : List (List Char))
    (tokens' : List Token) : Prop where
  sameWords : List.Forall₂ Token.SameWord tokens tokens'
  lines : ∀ (i : Nat) t, tokens'[i]? = some t →
    t.line = lineBehind (before ++ joined ((lexemes tokens).take (i + 1)) (gaps.take i))

/-- A word and a gap before tokens. -/
theorem Spaced.cons {before gap : List Char} {tokens tokens' : List Token}
    {gaps : List (List Char)} {word : Token}
    (h : Spaced (before ++ (word.lexeme.toList ++ gap)) tokens gaps tokens') :
    Spaced before (word :: tokens) (gap :: gaps)
      ({ word with line := lineBehind (before ++ word.lexeme.toList) } :: tokens') where
  sameWords := .cons ⟨rfl, rfl, rfl⟩ h.sameWords
  lines := by
    rintro (_ | i) t found
    · obtain rfl := Option.some.inj found
      simp [lexemes, joined]
    · rw [h.lines i t found]
      simp [lexemes, joined]

/-- Words with gaps behind them are divided into these words and blanks. -/
theorem divides_joined {words : List Token} {gaps : List (List Char)} (line : Int)
    (areWords : ∀ t ∈ words, t.IsWord) (many : gaps.length = words.length)
    (separate : Separate gaps) :
    ∃ pieces, Divides (joined (lexemes (words ++ [.endOfText line])) gaps) pieces [] ∧
      ∀ before, Spaced before (words ++ [.endOfText line]) gaps (tokensBehind before pieces) := by
  induction words generalizing gaps with
  | nil =>
    obtain rfl := List.length_eq_zero_iff.1 many
    refine ⟨[], .stop, fun before => ⟨.cons ⟨rfl, rfl, rfl⟩ .nil, fun i t found => ?_⟩⟩
    obtain ⟨rfl, rfl⟩ : i = 0 ∧ Token.endOfText (lineBehind before) = t := by
      simpa [tokensBehind, List.getElem?_singleton] using found
    simp [lexemes, joined, Token.endOfText]
  | cons word words ih =>
    cases gaps with
    | nil => cases many
    | cons gap gaps =>
      obtain ⟨isWord, areWords⟩ := List.forall_mem_cons.1 areWords
      obtain ⟨pieces, rest, spaced⟩ := ih areWords (Nat.succ.inj many) separate.tail
      have isGap : IsGap gap := by
        obtain ⟨isGap, -⟩ | ⟨rfl, -⟩ := separate.head
        · exact isGap
        · exact .stop
      have apart : ∀ c ∈ (gap ++ joined (lexemes (words ++ [.endOfText line])) gaps).head?,
          c ∈ blanks := by
        obtain ⟨-, c, begins, isBlank⟩ | ⟨rfl, rfl⟩ := separate.head
        · intro d begins'
          rw [Option.mem_def, List.head?_append, Option.mem_def.1 begins, Option.some_or] at begins'
          exact Option.some.inj begins' ▸ isBlank
        · obtain rfl := List.length_eq_zero_iff.1 (Nat.succ.inj many).symm
          rintro c ⟨⟩
      obtain ⟨pieces', behind, same⟩ := isGap.divides rest
      have step := Divides.piece (isWord.isLongest apart) behind
      refine ⟨_, step, fun before => ?_⟩
      rw [tokensBehind, same, String.ofList_toList, List.append_assoc]
      exact (spaced _).cons

/-- The lexemes of the tokens that a text is scanned to, with separators between them, are a
text that is scanned to the same words. Each is on the line on which it ends there: one more
than there are line feeds in the lexemes and separators up to its end. The gap before the
end token may be missing. -/
theorem spacing_keeps_words {scanner : Scanner} {tokens : List Token} {gaps : List (List Char)}
    (scanned : scanner.all.1 = .ok tokens) (many : gaps.length + 1 = tokens.length)
    (separate : Separate gaps) :
    ∃ tokens', (Scanner.ofString (String.ofList (joined (lexemes tokens) gaps))).all.1 =
        .ok tokens' ∧
      List.Forall₂ Token.SameWord tokens tokens' ∧ ∀ (i : Nat) t, tokens'[i]? = some t →
        t.line = lineBehind (joined ((lexemes tokens).take (i + 1)) (gaps.take i)) := by
  obtain ⟨pieces, division, rfl⟩ := Scanner.all_eq_ok_iff.1 scanned
  obtain ⟨words, line, cutAtEnd, areWords⟩ := division.words []
  rw [cutAtEnd, List.length_append, List.length_singleton] at many
  obtain ⟨pieces', division', spaced⟩ := divides_joined line areWords (Nat.succ.inj many) separate
  rw [cutAtEnd]
  refine ⟨_, Scanner.all_eq_ok_iff.2 ⟨pieces', ?_, rfl⟩, (spaced []).sameWords, (spaced []).lines⟩
  simpa [Scanner.ofString] using division'

namespace SpacedQuotient

/-- A string that looks like a comment, divided by a name. -/
def source : String := "\"//\"/b"

/-- The tokens of the quotient. -/
def tokens : List Token :=
  [⟨.string, "\"//\"", .string "//", 1⟩, ⟨.slash, "/", .nil, 1⟩, ⟨.identifier, "b", .nil, 1⟩,
    .endOfText 1]

/-- A blank and a comment with a quote in it. -/
def remark : List Char := [' ', '/', '/', '"', '\n']

theorem isSeparator_remark : IsSeparator remark :=
  ⟨.blank (by decide) (@IsGap.comment ['"'] [] (by decide) .stop), ' ', rfl, by decide⟩

/-- The operator stays an operator between two comments. -/
theorem spacing_keeps_words_quotient :
    (Scanner.ofString source).all.1 = .ok tokens ∧ Separate [remark, remark, []] ∧
      ∃ tokens', (Scanner.ofString (String.ofList
          (joined (lexemes tokens) [remark, remark, []]))).all.1 = .ok tokens' ∧
        List.Forall₂ Token.SameWord tokens tokens' ∧ ∀ (i : Nat) t, tokens'[i]? = some t →
          t.line = lineBehind
            (joined ((lexemes tokens).take (i + 1)) ([remark, remark, []].take i)) := by
  have scanned : (Scanner.ofString source).all.1 = .ok tokens := by decide +kernel
  have separate : Separate [remark, remark, []] := by
    refine ⟨fun gap among => ?_, fun gap last => .inr (Option.some.inj last).symm⟩
    obtain rfl : gap = remark := by simpa using among
    exact isSeparator_remark
  exact ⟨scanned, separate, spacing_keeps_words scanned rfl separate⟩

end SpacedQuotient

end TreeWalk
