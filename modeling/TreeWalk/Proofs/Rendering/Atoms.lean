import TreeWalk.Proofs.Numbers.Distinct
import TreeWalk.Proofs.Rendering.Forming
import TreeWalk.Proofs.Rendering.Nests

/-!
# Atoms of renderings

What stands between the parentheses of a rendering: words but for strings, the texts of
literals, and the heads of lists. None of them has a delimiter in it, and what stands for a
token or a number gives it back.

## Implementation notes

A word is read back by cutting it. The texts of numbers are more than the numerals among the
words, so how they are read is left open: any way will do that finds the number with a text.
-/

namespace TreeWalk

open Binary64 Nest

/-- A token on no line. -/
def Token.bare (t : Token) : Token := { t with line := 0 }

/-- The word that a text is, on no line. -/
def wordOf (text : String) : Token :=
  match text.toList with
  | [] => .endOfText 0
  | c :: cs =>
    match (Cut.first c cs).piece with
    | .word kind literal => ⟨kind, text, literal, 0⟩
    | _ => .endOfText 0

theorem wordOf_eq {text : String} {kind : TokenKind} {literal : Scalar}
    (isPiece : IsPiece text.toList (.word kind literal)) :
    wordOf text = ⟨kind, text, literal, 0⟩ := by
  obtain ⟨c, cs, cut, first⟩ := isPiece.cutsWhole.whole
  simp only [wordOf, cut, first]

/-- A token is read back from its lexeme. -/
theorem Token.IsWord.wordOf_lexeme {t : Token} (isWord : t.IsWord) : wordOf t.lexeme = t.bare :=
  wordOf_eq isWord

theorem not_delimiter_of_isNameChar {c : Char} (h : Cut.isNameChar c = true) : c ∉ delimiters := by
  have none : delimiters.all fun d => !Cut.isNameChar d := by decide
  intro among
  have other := List.all_eq_true.1 none c among
  simp [h] at other

theorem not_delimiter_of_isDigit {c : Char} (digit : IsDigit c) : c ∉ delimiters :=
  not_delimiter_of_isNameChar (isNameChar_iff.2 (.inr digit))

/-- The kinds of words that hold a delimiter. -/
def delimited : List TokenKind := [.leftParen, .rightParen, .string]

/-- Words but for strings and parentheses are atoms. -/
theorem IsPiece.unbroken {text : String} {kind : TokenKind} {literal : Scalar}
    (isPiece : IsPiece text.toList (.word kind literal)) (other : kind ∉ delimited) :
    Unbroken text := by
  refine ⟨isPiece.ne_nil, fun c among => ?_⟩
  generalize text.toList = chars at isPiece among
  cases isPiece with
  | mark listed =>
    have marks : markTexts.all fun entry =>
        delimited.contains entry.2 || entry.1.all fun c => !delimiters.contains c := by decide
    have clean := List.all_eq_true.1 marks _ listed
    simp only [Bool.or_eq_true, List.contains_iff_mem, List.all_eq_true, Bool.not_eq_true',
      ← Bool.not_eq_true] at clean
    exact clean.resolve_left other c among
  | string => exact absurd (by decide) other
  | whole some digits => exact not_delimiter_of_isDigit (digits c among)
  | @decimal whole fraction _ _ digits =>
    rw [List.mem_append, List.mem_cons] at among
    obtain before | rfl | behind := among
    · exact not_delimiter_of_isDigit (digits c (List.mem_append_left _ before))
    · decide
    · exact not_delimiter_of_isDigit (digits c (List.mem_append_right _ behind))
  | keyword listed =>
    have letters := (TokenKind.keywords_letters _ listed).2
    rw [String.toList_ofList] at letters
    exact not_delimiter_of_isNameChar (by simp [Cut.isNameChar, letters c among])
  | name begins others =>
    obtain rfl | inside := List.mem_cons.1 among
    · exact not_delimiter_of_isNameChar (isNameChar_iff.2 (.inl begins))
    · exact not_delimiter_of_isNameChar (isNameChar_iff.2 (others c inside))

theorem Token.IsWord.unbroken {t : Token} (isWord : t.IsWord) (other : t.kind ∉ delimited) :
    Unbroken t.lexeme :=
  IsPiece.unbroken isWord other

theorem Token.IsA.unbroken {t : Token} {kind : TokenKind} (isA : t.IsA kind)
    (other : kind ∉ delimited) : Unbroken t.lexeme :=
  isA.isWord.unbroken (isA.kind ▸ other)

/-- Whether a text is an atom can be tested. -/
theorem unbroken_of_test {text : String}
    (h : (text.toList ≠ [] && text.toList.all fun c => !delimiters.contains c) = true) :
    Unbroken text := by
  unfold Unbroken
  simpa only [Bool.and_eq_true, decide_eq_true_eq, List.all_eq_true, Bool.not_eq_true',
    ← Bool.not_eq_true, List.contains_iff_mem] using h

/-- The kind of a keyword is that of no other text. -/
theorem keyword_kinds {word : String} {kind : TokenKind}
    (listed : (word, kind) ∈ TokenKind.keywords) :
    kind ∉ [.identifier, .string, .number] ∧ (∀ mark ∈ markTexts, mark.2 ≠ kind) ∧
      ∀ other ∈ TokenKind.keywords, other.2 = kind → other.1 = word := by
  have all : ∀ entry ∈ TokenKind.keywords, entry.2 ∉ [.identifier, .string, .number] ∧
      (∀ mark ∈ markTexts, mark.2 ≠ entry.2) ∧
        ∀ other ∈ TokenKind.keywords, other.2 = entry.2 → other.1 = entry.1 := by decide
  exact all _ listed

/-- A keyword has one lexeme. -/
theorem lexeme_of_keyword {t : Token} {word : String} {kind : TokenKind} (isA : t.IsA kind)
    (listed : (word, kind) ∈ TokenKind.keywords) : t.lexeme = word := by
  obtain ⟨several, noMark, one⟩ := keyword_kinds listed
  have isWord := isA.isWord
  rw [Token.IsWord, isA.kind] at isWord
  generalize cut : t.lexeme.toList = chars, t.literal = literal at isWord
  cases isWord with
  | mark other => exact absurd rfl (noMark _ other)
  | keyword other => rw [← one _ other rfl, ← cut, String.ofList_toList]
  | string | whole | decimal | name => exact absurd (by simp) several

/-- A name is no keyword, and its characters are those of names. -/
theorem IsPiece.name_cases {text : List Char} {literal : Scalar}
    (isPiece : IsPiece text (.word .identifier literal)) :
    ∃ c cs, text = c :: cs ∧ BeginsName c ∧ (∀ d ∈ text, Cut.isNameChar d = true) ∧
      ∀ kind, (String.ofList text, kind) ∉ TokenKind.keywords := by
  cases isPiece with
  | mark listed =>
    have others : ∀ entry ∈ markTexts, entry.2 ≠ .identifier := by decide
    exact absurd rfl (others _ listed)
  | keyword listed => exact absurd (by simp) (keyword_kinds listed).1
  | @name c cs begins others free =>
    refine ⟨c, cs, rfl, begins, fun d among => isNameChar_iff.2 ?_, free⟩
    obtain rfl | inside := List.mem_cons.1 among
    · exact .inl begins
    · exact others d inside

/-- What a word stands for is a constant, a string or a number without a sign. -/
theorem Scalar.IsWritten.cases {value : Scalar} (h : value.IsWritten) :
    value = .nil ∨ (∃ b, value = .boolean b) ∨ (∃ s, value = .string s) ∨
      ∃ x, IsUnsigned x ∧ value = .number x := by
  have number {d : Decimal} : IsUnsigned (toFloat false d.magnitude) :=
    isUnsigned_toFloat (NumberText.magnitude_le d)
  obtain ⟨text, kind, isPiece⟩ := h
  cases isPiece with
  | mark | name => exact .inl rfl
  | string => exact .inr (.inr (.inl ⟨_, rfl⟩))
  | whole | decimal => exact .inr (.inr (.inr ⟨_, number, rfl⟩))
  | keyword =>
    unfold TokenKind.wordLiteral
    split
    · exact .inr (.inl ⟨_, rfl⟩)
    · exact .inr (.inl ⟨_, rfl⟩)
    · exact .inl rfl

section

variable {x : Float}

theorem number_text (h : IsUnsigned x) :
    (Scalar.number x).text.toList = NumberText.ofMagnitude .short (ofFloat x) := by
  rw [Scalar.text, NumberText.ofFloat_eq h, String.toList_ofList]

/-- The text of a number begins with a digit unless the number is infinite. -/
theorem number_text_head (h : IsUnsigned x) :
    (∃ c ∈ (Scalar.number x).text.toList.head?, IsDigit c) ∨ (Scalar.number x).text = "inf" := by
  obtain finite | infinite := Nat.lt_or_eq_of_le h.le
  · exact .inl (number_text h ▸ NumberText.isDigit_head finite)
  · right
    rw [Scalar.text, NumberText.ofFloat_eq h, infinite, NumberText.ofMagnitude_infinity]

theorem ofMagnitude_clean {m : Nat} {c : Char} (le : m ≤ infinity)
    (among : c ∈ NumberText.ofMagnitude .short m) : c ∉ delimiters := by
  obtain finite | rfl := Nat.lt_or_eq_of_le le
  · rw [NumberText.ofMagnitude_finite finite] at among
    by_cases inFull : NumberText.InFull (Decimal.shortest m)
    · have numeral := NumberText.ofDecimal_isNumeral inFull
      obtain digit | rfl := NumberText.isDigit_or_point numeral among
      · exact not_delimiter_of_isDigit digit
      · decide
    · rw [NumberText.ofDecimal_not_inFull inFull] at among
      obtain digit | other := NumberText.mem_scientific among
      · exact not_delimiter_of_isDigit digit
      · have clean : ∀ c ∈ ['.', 'e', '+', '-'], c ∉ delimiters := by simp [delimiters]
        exact clean c other
  · rw [NumberText.ofMagnitude_infinity] at among
    have clean : ∀ c ∈ ['i', 'n', 'f'], c ∉ delimiters := by simp [delimiters]
    exact clean c among

/-- The texts of numbers are atoms. -/
theorem number_unbroken (h : IsUnsigned x) : Unbroken (Scalar.number x).text := by
  refine ⟨fun none => ?_, fun c among => ?_⟩
  · obtain ⟨c, first, -⟩ | infinite := number_text_head h
    · simp [none] at first
    · simp [infinite] at none
  · rw [number_text h] at among
    exact ofMagnitude_clean h.le among

end

/-- A way to read numbers finds the number with a text, if a number has it. -/
def ReadsNumbers (read : String → Option Float) : Prop :=
  ∀ text x, read text = some x ↔ IsUnsigned x ∧ (Scalar.number x).text = text

open Classical in
/-- As distinct numbers have distinct texts, there is a way to read them. -/
theorem exists_readsNumbers : ∃ read, ReadsNumbers read := by
  refine ⟨fun text => if some : ∃ x, IsUnsigned x ∧ (Scalar.number x).text = text
    then some.choose else none, fun text x => ?_⟩
  beta_reduce
  split
  next some =>
    obtain ⟨unsigned, same⟩ := some.choose_spec
    rw [Option.some.injEq]
    constructor
    · rintro rfl
      exact ⟨unsigned, same⟩
    · rintro ⟨unsigned', same'⟩
      exact NumberText.ofFloat_injective unsigned unsigned' (same.trans same'.symm)
  next none => exact ⟨nofun, fun is => absurd ⟨x, is⟩ none⟩

/-- What begins like a name is no number but the infinite one. -/
theorem ReadsNumbers.eq_none {read : String → Option Float} (reads : ReadsNumbers read)
    {text : String} {c : Char} (first : c ∈ text.toList.head?) (noDigit : ¬ IsDigit c)
    (noInfinity : text ≠ "inf") : read text = none := by
  rw [Option.eq_none_iff_forall_ne_some]
  intro x found
  obtain ⟨unsigned, rfl⟩ := (reads text x).1 found
  obtain ⟨d, first', digit⟩ | infinite := number_text_head unsigned
  · exact noDigit (Option.some.inj (first'.symm.trans first) ▸ digit)
  · exact noInfinity infinite

end TreeWalk
