import TreeWalk.Proofs.Lexis.Pieces
import Mathlib.Data.List.TakeWhile

/-!
# The first cut is the longest piece

What is cut off a text first is the longest piece that the text begins with, and a text
whose first cut is faulty begins with no piece at all.

## Implementation notes

Two facts about each form carry the proof: a text of the form by itself is cut as a
whole, and if the text goes on, no less is cut off. The first one tells what the piece
stands for, the second one that no longer piece is missed.
-/

namespace TreeWalk

/-- A faulty piece is no token and separates nothing. -/
def Piece.IsFault : Piece → Prop
  | .blank | .word .. => False
  | .unexpected _ | .unterminated => True

namespace Cut

variable {c : Char} {cs : List Char}

theorem first_slash (cs : List Char) : first '/' cs = afterSlash cs := rfl

theorem first_quote (cs : List Char) : first '"' cs = afterQuote cs := rfl

theorem first_blank (blank : c ∈ [' ', '\r', '\t', '\n']) (cs : List Char) :
    first c cs = ⟨.blank, [c], cs⟩ := by
  simp only [List.mem_cons, List.not_mem_nil, or_false] at blank
  rcases blank with rfl | rfl | rfl | rfl <;> rfl

theorem ne_of_test {test : Char → Bool} (h : test c = true) {d : Char} (other : test d = false) :
    c ≠ d := by
  rintro rfl
  exact absurd h (by simp [other])

theorem first_digit (digit : c.isDigit) (cs : List Char) : first c cs = afterDigit c cs := by
  have ne {d : Char} : d.isDigit = false → c ≠ d := ne_of_test digit
  have notBlank : isBlank c = false := by
    simp [isBlank, ne (d := ' ') rfl, ne (d := '\r') rfl, ne (d := '\t') rfl, ne (d := '\n') rfl]
  simp [first, notBlank, digit, ne (d := '/') rfl, ne (d := '"') rfl]

theorem first_letter (letter : isLetter c) (cs : List Char) : first c cs = afterLetter c cs := by
  have ne {d : Char} : isLetter d = false → c ≠ d := ne_of_test letter
  have notBlank : isBlank c = false := by
    simp [isBlank, ne (d := ' ') rfl, ne (d := '\r') rfl, ne (d := '\t') rfl, ne (d := '\n') rfl]
  have notDigit : c.isDigit = false :=
    Bool.eq_false_iff.2 fun digit => (isLetter_iff.1 letter).not_isDigit (isDigit_iff.1 digit)
  simp [first, notBlank, notDigit, letter, ne (d := '/') rfl, ne (d := '"') rfl]

theorem first_mark {kind : TokenKind} (mark : TokenKind.ofMark c = some kind) (cs : List Char) :
    first c cs = ⟨.word kind .nil, [c], cs⟩ := by
  unfold TokenKind.ofMark at mark
  split at mark <;> cases mark <;> rfl

theorem first_comparison {single double : TokenKind}
    (comparison : TokenKind.ofComparison c = some (single, double)) (cs : List Char) :
    first c cs = afterComparison c single double cs := by
  unfold TokenKind.ofComparison at comparison
  split at comparison <;> cases comparison <;> rfl

/-- A text is cut as a whole, and if it goes on, no less is cut off. -/
structure CutsWhole (text : List Char) (piece : Piece) : Prop where
  whole : ∃ c cs, text = c :: cs ∧ first c cs = ⟨piece, text, []⟩
  further : ∀ c cs more, text = c :: cs →
    text.length ≤ (first c (cs ++ more)).text.length ∧ ¬ (first c (cs ++ more)).piece.IsFault

theorem CutsWhole.of_first {piece : Piece} (whole : first c cs = ⟨piece, c :: cs, []⟩)
    (further : ∀ more, cs.length < (first c (cs ++ more)).text.length ∧
      ¬ (first c (cs ++ more)).piece.IsFault) : CutsWhole (c :: cs) piece where
  whole := ⟨c, cs, rfl, whole⟩
  further := by
    rintro _ _ more ⟨⟩
    exact further more

theorem blank_cutsWhole (blank : c ∈ [' ', '\r', '\t', '\n']) : CutsWhole [c] .blank := by
  refine .of_first (first_blank blank []) fun more => ?_
  rw [List.nil_append, first_blank blank more]
  exact ⟨Nat.one_pos, id⟩

theorem comment_cutsWhole {text : List Char} (inside : '\n' ∉ text) :
    CutsWhole ('/' :: '/' :: text) .blank := by
  have stays : ∀ d ∈ text, (d != '\n') = true := by
    intro d among
    exact bne_iff_ne.2 fun same => inside (same ▸ among)
  have cut (more : List Char) : first '/' ('/' :: text ++ more) =
      ⟨.blank, '/' :: '/' :: (text ++ more.takeWhile (· != '\n')),
        more.dropWhile (· != '\n')⟩ := by
    rw [first_slash, List.cons_append, afterSlash, List.takeWhile_append_of_pos stays,
      List.dropWhile_append_of_pos stays]
  refine .of_first (by simpa using cut []) fun more => ?_
  rw [cut]
  exact ⟨by simp only [List.length_cons, List.length_append]; omega, id⟩

theorem string_cutsWhole {content : List Char} (inside : '"' ∉ content) :
    CutsWhole ('"' :: (content ++ ['"'])) (.word .string (.string (String.ofList content))) := by
  have stays : ∀ d ∈ content, (d != '"') = true := by
    intro d among
    exact bne_iff_ne.2 fun same => inside (same ▸ among)
  have cut (more : List Char) : first '"' (content ++ ['"'] ++ more) =
      ⟨.word .string (.string (String.ofList content)), '"' :: (content ++ ['"']), more⟩ := by
    simp [first_quote, afterQuote, List.takeWhile_append_of_pos stays,
      List.dropWhile_append_of_pos stays]
  refine .of_first (by simpa using cut []) fun more => ?_
  rw [cut]
  exact ⟨by simp, id⟩

/-- What is cut off at a digit is a number that holds all the digits. -/
theorem afterDigit_further (cs : List Char) :
    (cs.takeWhile Char.isDigit).length < (afterDigit c cs).text.length ∧
      ¬ (afterDigit c cs).piece.IsFault := by
  simp only [afterDigit]
  split
  · exact ⟨by simp, id⟩
  · exact ⟨by simp only [List.length_cons, List.length_append]; omega, id⟩

theorem whole_cutsWhole (first_is : c.isDigit) (digits : ∀ d ∈ cs, d.isDigit = true) :
    CutsWhole (c :: cs) (.word .number (numberLiteral (c :: cs) [])) := by
  refine .of_first ?_ fun more => ?_
  · rw [first_digit first_is]
    have all := List.takeWhile_eq_self_iff.2 digits
    have none := List.dropWhile_eq_nil_iff.2 digits
    simp [afterDigit, all, none, fraction?]
  · rw [first_digit first_is]
    obtain ⟨longer, sound⟩ := afterDigit_further (c := c) (cs ++ more)
    rw [List.takeWhile_append_of_pos digits] at longer
    exact ⟨by simp only [List.length_append] at longer; omega, sound⟩

/-- Digits, a point and digits: the digits behind the point may go on. -/
theorem decimal_cutsWhole {d : Char} {ds : List Char} (first_is : c.isDigit)
    (digits : ∀ x ∈ cs, x.isDigit = true) (next_is : d.isDigit)
    (others : ∀ x ∈ ds, x.isDigit = true) :
    CutsWhole (c :: (cs ++ '.' :: d :: ds))
      (.word .number (numberLiteral (c :: cs) (d :: ds))) := by
  have cut (more : List Char) : first c (cs ++ '.' :: d :: ds ++ more) =
      ⟨.word .number (numberLiteral (c :: cs) (d :: (ds ++ more.takeWhile Char.isDigit))),
        c :: (cs ++ '.' :: d :: (ds ++ more.takeWhile Char.isDigit)),
        more.dropWhile Char.isDigit⟩ := by
    have point : Char.isDigit '.' = false := rfl
    rw [first_digit first_is, List.append_assoc, List.cons_append, List.cons_append]
    simp [afterDigit, List.takeWhile_append_of_pos digits, List.dropWhile_append_of_pos digits,
      point, fraction?, next_is, List.takeWhile_append_of_pos others,
      List.dropWhile_append_of_pos others]
  refine .of_first (by simpa using cut []) fun more => ?_
  rw [cut]
  exact ⟨by simp only [List.length_cons, List.length_append]; omega, id⟩

theorem letters_cutsWhole (first_is : isLetter c) (others : ∀ d ∈ cs, isNameChar d = true) :
    let kind := TokenKind.ofWord (String.ofList (c :: cs))
    CutsWhole (c :: cs) (.word kind kind.wordLiteral) := by
  have cut (more : List Char) :
      (first c (cs ++ more)).text = c :: (cs ++ more.takeWhile isNameChar) := by
    rw [first_letter first_is, afterLetter, List.takeWhile_append_of_pos others]
  refine .of_first ?_ fun more => ?_
  · have all := List.takeWhile_eq_self_iff.2 others
    have none := List.dropWhile_eq_nil_iff.2 others
    rw [first_letter first_is, afterLetter, all, none]
  · rw [cut]
    refine ⟨by simp only [List.length_cons, List.length_append]; omega, ?_⟩
    rw [first_letter first_is]
    exact id

theorem slash_cutsWhole : CutsWhole ['/'] (.word .slash .nil) := by
  refine .of_first rfl fun more => ?_
  rw [first_slash, List.nil_append]
  unfold afterSlash
  split
  · exact ⟨Nat.succ_pos _, id⟩
  · exact ⟨Nat.one_pos, id⟩

theorem mark_cutsWhole {text : List Char} {kind : TokenKind} (listed : (text, kind) ∈ markTexts) :
    CutsWhole text (.word kind .nil) := by
  obtain slash | ⟨c, -, single, mark⟩ | ⟨c, -, ⟨single, double⟩, comparison, entry⟩ :=
    markTexts_cases _ listed
  · cases slash
    exact slash_cutsWhole
  · obtain rfl : text = [c] := single
    refine .of_first (first_mark mark []) fun more => ?_
    rw [first_mark mark]
    exact ⟨Nat.one_pos, id⟩
  · have cut := first_comparison comparison
    obtain ⟨⟨⟩⟩ | ⟨⟨⟩⟩ := entry
    · refine .of_first (cut []) fun more => ?_
      rw [cut, List.nil_append]
      unfold afterComparison
      split
      · exact ⟨Nat.succ_pos _, id⟩
      · exact ⟨Nat.one_pos, id⟩
    · refine .of_first (cut ['=']) fun more => ?_
      rw [cut, List.singleton_append, afterComparison]
      exact ⟨Nat.lt_succ_self 1, id⟩

end Cut

/-- The value of a row of digits is read from the left. -/
theorem numeral_eq (whole fraction : List Char) :
    numeral whole fraction = Cut.numberLiteral whole fraction := by
  simp only [numeral, Cut.numberLiteral, Decimal.ofText, Decimal.ofDigits, Nat.ofDigits_eq_foldr,
    List.foldr_reverse, List.foldl_map, Nat.cast_id, Nat.add_comm]

theorem TokenKind.ofWord_of_mem {word : String} {kind : TokenKind} (h : (word, kind) ∈ keywords) :
    ofWord word = kind := by
  have all : ∀ entry ∈ keywords, ofWord entry.1 = entry.2 := by decide
  exact all _ h

theorem TokenKind.ofWord_of_not_mem {word : String} (h : ∀ kind, (word, kind) ∉ keywords) :
    ofWord word = .identifier := by
  unfold ofWord
  cases found : keywords.lookup word with
  | none => rfl
  | some kind =>
      obtain ⟨before, after, cut, -⟩ := List.lookup_eq_some_iff.1 found
      exact absurd (cut ▸ by simp) (h kind)

/-- The reserved words are rows of letters. -/
theorem TokenKind.keywords_letters : ∀ entry ∈ keywords,
    entry.1.toList ≠ [] ∧ ∀ c ∈ entry.1.toList, Cut.isLetter c = true := by
  have all : keywords.all fun entry =>
      entry.1.toList ≠ [] && entry.1.toList.all Cut.isLetter := by decide
  simpa only [List.all_eq_true, Bool.and_eq_true, decide_eq_true_eq] using all

open Cut in
/-- Every piece by itself is cut as a whole, as what it stands for. -/
theorem IsPiece.cutsWhole {text : List Char} {piece : Piece} (h : IsPiece text piece) :
    CutsWhole text piece := by
  cases h with
  | blank among => exact blank_cutsWhole among
  | comment inside => exact comment_cutsWhole inside
  | mark listed => exact mark_cutsWhole listed
  | string inside => exact string_cutsWhole inside
  | whole some digits =>
      obtain ⟨c, cs, rfl⟩ := List.exists_cons_of_ne_nil some
      simp only [List.forall_mem_cons, ← isDigit_iff] at digits
      rw [numeral_eq]
      exact whole_cutsWhole digits.1 digits.2
  | @decimal whole fraction some some' digits =>
      obtain ⟨c, cs, rfl⟩ := List.exists_cons_of_ne_nil some
      obtain ⟨d, ds, rfl⟩ := List.exists_cons_of_ne_nil some'
      simp only [List.forall_mem_append, List.forall_mem_cons, ← isDigit_iff] at digits
      obtain ⟨⟨one, more⟩, one', more'⟩ := digits
      rw [numeral_eq]
      exact decimal_cutsWhole one more one' more'
  | @keyword text kind listed =>
      obtain ⟨some, letters⟩ := TokenKind.keywords_letters _ listed
      rw [String.toList_ofList] at some letters
      obtain ⟨c, cs, rfl⟩ := List.exists_cons_of_ne_nil some
      obtain ⟨one, more⟩ := List.forall_mem_cons.1 letters
      have others : ∀ d ∈ cs, isNameChar d = true := fun d among => by
        simp [isNameChar, more d among]
      have cut := letters_cutsWhole one others
      rwa [TokenKind.ofWord_of_mem listed] at cut
  | @name c cs begins others free =>
      have cut := letters_cutsWhole (isLetter_iff.2 begins) fun d among =>
        isNameChar_iff.2 (others d among)
      rwa [TokenKind.ofWord_of_not_mem free] at cut

theorem IsPiece.not_isFault {text : List Char} {piece : Piece} (h : IsPiece text piece) :
    ¬ piece.IsFault := by
  cases h <;> exact id

/-- A text is a piece in one way only. -/
theorem IsPiece.unique {text : List Char} {piece piece' : Piece} (h : IsPiece text piece)
    (h' : IsPiece text piece') : piece = piece' := by
  obtain ⟨c, cs, rfl, cut⟩ := h.cutsWhole.whole
  obtain ⟨_, _, ⟨⟩, cut'⟩ := h'.cutsWhole.whole
  exact congrArg Cut.piece (cut.symm.trans cut')

/-- No more than what is cut off first is a piece, and if a text begins with a piece its
first cut is no fault. -/
theorem IsPiece.le_first {text cs : List Char} {piece : Piece} {c : Char} (h : IsPiece text piece)
    (begins : text <+: c :: cs) :
    text.length ≤ (Cut.first c cs).text.length ∧ ¬ (Cut.first c cs).piece.IsFault := by
  obtain ⟨d, ds, rfl, -⟩ := h.cutsWhole.whole
  obtain ⟨more, whole⟩ := begins
  obtain ⟨rfl, rfl⟩ := List.cons.inj whole
  exact h.cutsWhole.further d ds more rfl

namespace Cut

variable {c : Char} {cs : List Char}

theorem afterSlash_isPiece (cs : List Char) :
    IsPiece (afterSlash cs).text (afterSlash cs).piece := by
  unfold afterSlash
  split
  · exact .comment fun among => by simpa using List.mem_takeWhile_imp among
  · exact .mark (show (['/'], .slash) ∈ markTexts by decide)

/-- After a quote there is a string, or none ends before the text does. -/
theorem afterQuote_cases (cs : List Char) :
    IsPiece (afterQuote cs).text (afterQuote cs).piece ∨
      afterQuote cs = ⟨.unterminated, '"' :: cs, []⟩ := by
  simp only [afterQuote]
  split
  next none =>
    have all := List.takeWhile_append_dropWhile (p := (· != '"')) (l := cs)
    rw [none, List.append_nil] at all
    exact .inr (by rw [all])
  next quote rest found =>
    have isQuote := List.head?_dropWhile_not (· != '"') cs
    obtain rfl : quote = '"' := by simpa [found] using isQuote
    exact .inl (.string fun among => by simpa using List.mem_takeWhile_imp among)

theorem afterDigit_isPiece (digit : c.isDigit) (cs : List Char) :
    IsPiece (afterDigit c cs).text (afterDigit c cs).piece := by
  have digits : ∀ d ∈ c :: cs.takeWhile Char.isDigit, IsDigit d :=
    List.forall_mem_cons.2 ⟨isDigit_iff.1 digit, fun d among =>
      isDigit_iff.1 (List.mem_takeWhile_imp among)⟩
  simp only [afterDigit, ← numeral_eq]
  split
  next => exact .whole (List.cons_ne_nil _ _) digits
  next fraction rest found =>
    unfold fraction? at found
    split at found
    next d more _ =>
      split at found
      next next_is =>
        obtain ⟨⟨⟩⟩ := found
        refine .decimal (List.cons_ne_nil _ _) (List.cons_ne_nil _ _) fun x among => ?_
        obtain among | among := List.mem_append.1 among
        · exact digits x among
        · obtain rfl | among := List.mem_cons.1 among
          · exact isDigit_iff.1 next_is
          · exact isDigit_iff.1 (List.mem_takeWhile_imp among)
      next => cases found
    next => cases found

theorem afterLetter_isPiece (letter : isLetter c) (cs : List Char) :
    IsPiece (afterLetter c cs).text (afterLetter c cs).piece := by
  have others : ∀ d ∈ cs.takeWhile isNameChar, BeginsName d ∨ IsDigit d :=
    fun d among => isNameChar_iff.1 (List.mem_takeWhile_imp among)
  simp only [afterLetter]
  by_cases reserved :
    ∃ kind, (String.ofList (c :: cs.takeWhile isNameChar), kind) ∈ TokenKind.keywords
  · obtain ⟨kind, listed⟩ := reserved
    rw [TokenKind.ofWord_of_mem listed]
    exact .keyword listed
  · rw [TokenKind.ofWord_of_not_mem (not_exists.1 reserved)]
    exact .name (isLetter_iff.1 letter) others (not_exists.1 reserved)

theorem afterComparison_isPiece {single double : TokenKind}
    (comparison : TokenKind.ofComparison c = some (single, double)) (cs : List Char) :
    IsPiece (afterComparison c single double cs).text
      (afterComparison c single double cs).piece := by
  obtain ⟨listed, listed'⟩ := mem_markTexts_of_comparison comparison
  unfold afterComparison
  split
  · exact .mark listed'
  · exact .mark listed

/-- What is cut off first is a piece, or all of a string without an end, or a character
that begins nothing. -/
theorem first_cases (c : Char) (cs : List Char) :
    IsPiece (first c cs).text (first c cs).piece ∨
      first c cs =
        if c = '"' then ⟨.unterminated, '"' :: cs, []⟩ else ⟨.unexpected c, [c], cs⟩ := by
  unfold first
  split
  next => exact .inl (afterSlash_isPiece cs)
  next =>
    split
    next blank => exact .inl (.blank (by simpa [isBlank, or_assoc] using blank))
    next =>
      split
      next => exact afterQuote_cases cs
      next =>
        split
        next digit => exact .inl (afterDigit_isPiece digit cs)
        next =>
          split
          next letter => exact .inl (afterLetter_isPiece letter cs)
          next =>
            split
            next mark => exact .inl (.mark (mem_markTexts_of_mark mark))
            next comparison => exact .inl (afterComparison_isPiece comparison cs)
            next => exact .inr rfl

theorem first_isPiece (sound : ¬ (first c cs).piece.IsFault) :
    IsPiece (first c cs).text (first c cs).piece := by
  obtain isPiece | fault := first_cases c cs
  · exact isPiece
  · rw [fault] at sound
    split at sound <;> exact absurd trivial sound

/-- A faulty first cut is all of a string without an end, or a character that begins
nothing. -/
theorem first_fault (fault : (first c cs).piece.IsFault) :
    first c cs =
      if c = '"' then ⟨.unterminated, '"' :: cs, []⟩ else ⟨.unexpected c, [c], cs⟩ := by
  obtain isPiece | eq := first_cases c cs
  · exact absurd fault isPiece.not_isFault
  · exact eq

/-- If the first cut is no fault, it is the longest piece. -/
theorem first_isLongest (sound : ¬ (first c cs).piece.IsFault) : (first c cs).IsLongest where
  isPiece := first_isPiece sound
  longest isPiece begins := (isPiece.le_first (first_append c cs ▸ begins)).1

/-- The longest piece that a text begins with is its first cut. -/
theorem IsLongest.eq_first {cut : Cut} (h : cut.IsLongest)
    (whole : cut.text ++ cut.rest = c :: cs) :
    cut = first c cs := by
  obtain ⟨le, sound⟩ := h.isPiece.le_first (whole ▸ List.prefix_append cut.text cut.rest)
  have longest := first_isLongest sound
  have ge := h.longest longest.isPiece
    (whole.trans (first_append c cs).symm ▸ List.prefix_append _ _)
  obtain ⟨text, rest⟩ :=
    List.append_inj (whole.trans (first_append c cs).symm) (Nat.le_antisymm le ge)
  have piece := h.isPiece.unique (text ▸ longest.isPiece)
  cases cut
  exact Cut.mk.injEq .. ▸ ⟨piece, text, rest⟩

/-- The first cut is a fault exactly if the text begins with no piece. -/
theorem first_isFault_iff :
    (first c cs).piece.IsFault ↔ ∀ text piece, IsPiece text piece → ¬ text <+: c :: cs := by
  constructor
  · exact fun fault text piece isPiece begins => (isPiece.le_first begins).2 fault
  · intro none
    by_contra sound
    exact none _ _ (first_isPiece sound) (first_append c cs ▸ List.prefix_append _ _)

end Cut

end TreeWalk
