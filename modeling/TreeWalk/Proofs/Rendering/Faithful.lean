import TreeWalk.Proofs.Rendering.Expressions

/-!
# Renderings are faithful

An expression without strings and functions, none of whose variables is named like the head
of a list or like infinity, is known from its rendering up to the lines of its tokens and the
parentheses that close its calls.

## Implementation notes

The expression is built again from its nest: what a list is, and which of its parts are names,
is seen from its head and the number of its parts alone. So no two expressions have to be
compared.
-/

namespace TreeWalk

open Binary64 Grammar Nest

/-- What the head of a list makes of it. -/
inductive Head
  | assignment
  | this
  | super
  | grouping
  | conditional
  | comma
  | property
  | operation (operator : Token)

/-- The heads that are no operators. -/
def heads : List (String × Head) :=
  [("set!", .assignment), ("this", .this), ("super", .super), ("group", .grouping),
    ("if", .conditional), ("begin", .comma), ("get", .property)]

/-- What a nest makes of a list with it as the head: nothing special if it is a callee. -/
def Nest.head? : Nest → Option Head
  | .list .. => none
  | .atom text =>
    if isOperator (wordOf text).kind then some (.operation (wordOf text)) else heads.lookup text

theorem head?_operator {t : Token} (isWord : t.IsWord) (h : isOperator t.kind = true) :
    (Nest.atom t.lexeme).head? = some (.operation t.bare) := by
  rw [head?, isWord.wordOf_lexeme]
  exact if_pos h

/-- The head of a list is the name of something else, a keyword or no word at all. -/
theorem heads_cases : ∀ entry ∈ heads, (entry.1 ∈ reservedAtoms ∨
    ∃ kind, (entry.1, kind) ∈ TokenKind.keywords) ∨ ∃ c ∈ entry.1.toList, ¬ Cut.isNameChar c := by
  have all : heads.all fun entry => (reservedAtoms.contains entry.1 ||
      TokenKind.keywords.any fun keyword => keyword.1 = entry.1) ||
        entry.1.toList.any fun c => !Cut.isNameChar c := by decide
  intro entry among
  have test := List.all_eq_true.1 all entry among
  simp only [Bool.or_eq_true, List.contains_iff_mem, List.any_eq_true, decide_eq_true_eq,
    Bool.not_eq_true', ← Bool.not_eq_true] at test
  refine test.imp_left (Or.imp_right ?_)
  rintro ⟨⟨word, kind⟩, listed, rfl⟩
  exact ⟨kind, listed⟩

theorem heads_letters : ∀ entry ∈ heads, ∀ c ∈ entry.1.toList.head?, ¬ IsDigit c := by
  have all : heads.all fun entry => !entry.1.toList.head?.any Char.isDigit := by decide
  intro entry among c first digit
  have test := List.all_eq_true.1 all entry among
  rw [Option.mem_def.1 first] at test
  simp [isDigit_iff.2 digit] at test

theorem head?_eq_none {text : String} (noOperator : isOperator (wordOf text).kind = false)
    (noHead : ∀ entry ∈ heads, text ≠ entry.1) : (Nest.atom text).head? = none := by
  rw [head?, if_neg (by simp [noOperator]), List.lookup_eq_none_iff]
  exact fun entry among => bne_iff_ne.2 (noHead entry among)

/-- A variable that is named like nothing else is no head. -/
theorem head?_name {t : Token} (isA : t.IsA .identifier) (free : t.lexeme ∉ reservedAtoms) :
    (Nest.atom t.lexeme).head? = none := by
  have isWord := isA.isWord
  rw [Token.IsWord, isA.kind] at isWord
  obtain ⟨-, -, -, -, nameChars, noKeyword⟩ := isWord.name_cases
  refine head?_eq_none ?_ fun entry among same => ?_
  · rw [isA.isWord.wordOf_lexeme, Token.bare, isA.kind]
    rfl
  · obtain (reserved | ⟨kind, listed⟩) | ⟨c, inside, other⟩ := heads_cases entry among
    · exact free (same ▸ reserved)
    · exact noKeyword kind (by rwa [String.ofList_toList, same])
    · exact other (nameChars c (same ▸ inside))

theorem wordOf_digit {text : String} {c : Char} (first : c ∈ text.toList.head?)
    (digit : IsDigit c) : (wordOf text).kind = .number := by
  obtain ⟨cs, cut⟩ := List.head?_eq_some_iff.1 first
  simp only [wordOf, cut, Cut.first_digit (isDigit_iff.2 digit), Cut.afterDigit]
  cases Cut.fraction? (cs.dropWhile Char.isDigit) <;> rfl

/-- A number is no head. -/
theorem head?_number {x : Float} (unsigned : IsUnsigned x) :
    (Nest.atom (Scalar.number x).text).head? = none := by
  obtain ⟨c, first, digit⟩ | infinite := number_text_head unsigned
  · refine head?_eq_none ?_ fun entry among same => ?_
    · rw [wordOf_digit first digit]
      rfl
    · exact heads_letters entry among c (same ▸ first) digit
  · rw [infinite]
    rfl

/-- An expression is no head. -/
theorem Expr.head?_nest {e : Expr} (formed : e.Formed) (telling : e.Telling) :
    e.nest.head? = none := by
  cases e with
  | literal value =>
    obtain rfl | ⟨b, rfl⟩ | ⟨s, rfl⟩ | ⟨x, unsigned, rfl⟩ := Scalar.IsWritten.cases formed
    · rfl
    · cases b <;> rfl
    · exact absurd rfl (telling s)
    · exact head?_number unsigned
  | «variable» reference => exact head?_name formed.name telling
  | lambda => exact telling.elim
  | _ => rfl

/-- The operation of an operator. -/
def operation? (left : Expr) (operator : Token) (right : Expr) : Option Expr :=
  (Level.ofKind? operator.kind).map fun level => level.node left operator right

/-- The word that a part is, if it is an atom. -/
def Nest.word : Nest → Token
  | .atom text => wordOf text
  | .list .. => closing

/-- The expression of a list: from its head, the expressions of its other parts, and these
parts where they are names. -/
def build (head : Option Head) (callee : Expr) (parts : List Nest) (trees : List Expr) : Expr :=
  match head, parts, trees with
  | some .assignment, [name, _], [_, value] => .assign (.ofToken name.word) value
  | some .assignment, [_, name, _], [object, _, value] => .set object name.word value
  | some .this, _, _ => .this (.ofToken (wordOf "this"))
  | some .super, [method], _ => .super (.ofToken (wordOf "super")) method.word
  | some .grouping, _, [inner] => .grouping inner
  | some .conditional, _, [condition, consequent, alternative] =>
    .conditional condition consequent alternative
  | some .comma, _, items => .comma items
  | some .property, [_, name], [object, _] => .get object name.word
  | some (.operation operator), _, [operand] => .unary operator operand
  | some (.operation operator), _, [left, right] =>
    (operation? left operator right).getD (.comma [])
  | none, _, arguments => .call callee closing arguments
  | _, _, _ => .comma []

section

variable (read : String → Option Float)

/-- The expression of an atom. -/
def leaf (text : String) : Expr :=
  match read text with
  | some x => .literal (.number x)
  | none =>
    match (wordOf text).kind with
    | .nilWord => .literal .nil
    | .trueWord => .literal (.boolean true)
    | .falseWord => .literal (.boolean false)
    | _ => .variable (.ofToken (wordOf text))

mutual

/-- The expression of a nest. -/
def Nest.tree : Nest → Expr
  | .atom text => leaf read text
  | .list head parts => build head.head? head.tree parts (treeEach parts)

/-- The expressions of some nests. -/
def Nest.treeEach : List Nest → List Expr
  | [] => []
  | part :: others => part.tree :: treeEach others

end

end

theorem Reference.IsA.ofToken_wordOf {r : Reference} {kind : TokenKind} (isA : r.IsA kind) :
    .ofToken (wordOf r.name.lexeme) = r.bare := by
  rw [isA.name.isWord.wordOf_lexeme, Reference.bare, isA.distance]
  rfl

/-- A keyword is read back from its kind. -/
theorem Reference.IsA.ofToken_keyword {r : Reference} {kind : TokenKind} (isA : r.IsA kind)
    (word : String) (listed : (word, kind) ∈ TokenKind.keywords) :
    .ofToken (wordOf word) = r.bare := by
  rw [← lexeme_of_keyword isA.name listed, isA.ofToken_wordOf]

theorem operation?_eq {left right : Expr} {operator : Token} {level : Level}
    (among : operator.kind ∈ level.operators) :
    operation? left operator.bare right = some (level.node left operator.bare right) := by
  rw [operation?, show operator.bare.kind = operator.kind from rfl, ofKind?_eq_some.2 among]
  rfl

section

variable {read : String → Option Float}

theorem leaf_literal (reads : ReadsNumbers read) {value : Scalar} (written : value.IsWritten)
    (noString : ∀ s, value ≠ .string s) : leaf read value.text = .literal value := by
  have unread {c : Char} {text : String} (first : c ∈ text.toList.head?)
      (noDigit : c.isDigit = false) (noInfinity : text ≠ "inf") : read text = none :=
    reads.eq_none first (fun digit => by simp [isDigit_iff.2 digit] at noDigit) noInfinity
  obtain rfl | ⟨b, rfl⟩ | ⟨s, rfl⟩ | ⟨x, unsigned, rfl⟩ := written.cases
  · rw [leaf, show read Scalar.nil.text = none from unread (c := 'n') rfl rfl (by decide)]
    rfl
  · cases b with
    | false =>
      rw [leaf, show read (Scalar.boolean false).text = none from
        unread (c := 'f') rfl rfl (by decide)]
      rfl
    | true =>
      rw [leaf, show read (Scalar.boolean true).text = none from
        unread (c := 't') rfl rfl (by decide)]
      rfl
  · exact absurd rfl (noString s)
  · rw [leaf, (reads _ x).2 ⟨unsigned, rfl⟩]

theorem leaf_name (reads : ReadsNumbers read) {r : Reference} (isA : r.IsA .identifier)
    (free : r.name.lexeme ∉ reservedAtoms) : leaf read r.name.lexeme = .variable r.bare := by
  have isWord := isA.name.isWord
  rw [Token.IsWord, isA.name.kind] at isWord
  obtain ⟨c, cs, cut, begins, -⟩ := isWord.name_cases
  have noInfinity : r.name.lexeme ≠ "inf" := fun same => free (by rw [same]; decide)
  have unread : read r.name.lexeme = none :=
    reads.eq_none (by rw [cut]; rfl) begins.not_isDigit noInfinity
  rw [leaf, unread, ← isA.ofToken_wordOf, isA.name.isWord.wordOf_lexeme]
  simp only [Token.bare, isA.name.kind]

mutual

/-- A telling expression of words is built again from its nest. -/
theorem Expr.tree_nest (reads : ReadsNumbers read) : ∀ e : Expr, e.Formed → e.Telling →
    e.nest.tree read = e.bare
  | .literal _, formed, telling => leaf_literal reads formed telling
  | .variable _, formed, telling => leaf_name reads formed telling
  | .assign _ value, formed, telling => by
    have rebuilt := value.tree_nest reads formed.2 telling
    simp only [nest, tree, treeEach, bare, rebuilt, ← formed.1.ofToken_wordOf]
    rfl
  | .this _, formed, _ => by
    simp only [nest, tree, treeEach, bare, ← formed.ofToken_keyword "this" (by decide)]
    rfl
  | .super _ method, formed, _ => by
    simp only [nest, tree, treeEach, bare, ← formed.2.isWord.wordOf_lexeme,
      ← formed.1.ofToken_keyword "super" (by decide)]
    rfl
  | .grouping inner, formed, telling => by
    have rebuilt := inner.tree_nest reads formed telling
    simp only [nest, tree, treeEach, bare, rebuilt]
    rfl
  | .unary _ operand, ⟨isWord, among, formed⟩, telling => by
    have rebuilt := operand.tree_nest reads formed telling
    simp only [nest, tree, treeEach, bare, rebuilt,
      head?_operator isWord (isOperator_of_unary among)]
    rfl
  | .binary left _ right, ⟨formed, formed', isWord, level, among, noOr, noAnd⟩, telling => by
    have rebuilt := left.tree_nest reads formed telling.1
    have rebuilt' := right.tree_nest reads formed' telling.2
    simp only [nest, tree, treeEach, bare, rebuilt, rebuilt',
      head?_operator isWord (isOperator_of_mem among), build, operation?_eq among]
    cases level <;> first | rfl | contradiction
  | .logical left _ right, ⟨formed, formed', isWord, level, among, isLogical⟩, telling => by
    have rebuilt := left.tree_nest reads formed telling.1
    have rebuilt' := right.tree_nest reads formed' telling.2
    simp only [nest, tree, treeEach, bare, rebuilt, rebuilt',
      head?_operator isWord (isOperator_of_mem among), build, operation?_eq among]
    obtain rfl | rfl := isLogical <;> rfl
  | .conditional condition consequent alternative, formed, telling => by
    have rebuilt := condition.tree_nest reads formed.1 telling.1
    have rebuilt' := consequent.tree_nest reads formed.2.1 telling.2.1
    have rebuilt'' := alternative.tree_nest reads formed.2.2 telling.2.2
    simp only [nest, tree, treeEach, bare, rebuilt, rebuilt', rebuilt'']
    rfl
  | .comma items, formed, telling => by
    have rebuilt := Expr.treeEach_nestEach reads items formed telling
    simp only [nest, tree, bare, rebuilt]
    rfl
  | .call callee _ arguments, formed, telling => by
    have rebuilt := callee.tree_nest reads formed.1 telling.1
    have rebuilt' := Expr.treeEach_nestEach reads arguments formed.2 telling.2
    simp only [nest, tree, bare, rebuilt, rebuilt', callee.head?_nest formed.1 telling.1, build]
  | .get object _, formed, telling => by
    have rebuilt := object.tree_nest reads formed.1 telling
    simp only [nest, tree, treeEach, bare, rebuilt, ← formed.2.isWord.wordOf_lexeme]
    rfl
  | .set object _ value, formed, telling => by
    have rebuilt := object.tree_nest reads formed.1 telling.1
    have rebuilt' := value.tree_nest reads formed.2.2 telling.2
    simp only [nest, tree, treeEach, bare, rebuilt, rebuilt', ← formed.2.1.isWord.wordOf_lexeme]
    rfl
  | .lambda .., _, telling => telling.elim

theorem Expr.treeEach_nestEach (reads : ReadsNumbers read) : ∀ items : List Expr,
    Expr.AllFormed items → Expr.AllTelling items →
    treeEach read (Expr.nestEach items) = Expr.bareEach items
  | [], _, _ => rfl
  | item :: others, formed, telling => by
    have rebuilt := item.tree_nest reads formed.1 telling.1
    have rebuilt' := Expr.treeEach_nestEach reads others formed.2 telling.2
    simp only [nestEach, treeEach, bareEach, rebuilt, rebuilt']

end

end

/-- Two telling expressions that are read from sources and have the same rendering are the
same but for the lines of their tokens and the parentheses that close their calls. -/
theorem rendering_is_faithful {source source' : String} {e e' : Expr}
    (parsed : parseExpression source = .ok e) (parsed' : parseExpression source' = .ok e')
    (telling : e.Telling) (telling' : e'.Telling) (same : e.render = e'.render) :
    e.bare = e'.bare := by
  have formed := parseExpression_formed parsed
  have formed' := parseExpression_formed parsed'
  obtain ⟨read, reads⟩ := exists_readsNumbers
  have nests : e.nest = e'.nest :=
    text_injective (e.clean_nest formed telling) (e'.clean_nest formed' telling')
      (by rw [e.text_nest, e'.text_nest, same])
  calc e.bare = e.nest.tree read := (e.tree_nest reads formed telling).symm
    _ = e'.nest.tree read := by rw [nests]
    _ = e'.bare := e'.tree_nest reads formed' telling'

namespace SpreadComparison

open TokenKind (word)

/-- A call compared with a number. -/
def source : String := "f(-a) < 1.50"

/-- The same comparison with a comment and without a zero. -/
def spread : String := "f(// one\n-a) < 1.5"

/-- The tokens of the comparison on a line behind the first two, with the lexeme of the number. -/
def tokens (line : Int) (number : String) : List Token :=
  [word .identifier "f", word .leftParen "(", { word .minus "-" with line := line },
    { word .identifier "a" with line := line }, { word .rightParen ")" with line := line },
    { word .less "<" with line := line },
    ⟨.number, number, .number (Binary64.toFloat false 0x3FF8000000000000), line⟩,
    .endOfText line]

/-- The tree of the comparison. -/
def tree (line : Int) : Expr :=
  .binary (.call (.variable (.ofToken (word .identifier "f")))
      { word .rightParen ")" with line := line }
      [.unary { word .minus "-" with line := line }
        (.variable (.ofToken { word .identifier "a" with line := line }))])
    { word .less "<" with line := line }
    (.literal (.number (Binary64.toFloat false 0x3FF8000000000000)))

theorem parsed : parseExpression source = .ok (tree 1) := by
  have scanned : (scanSource source).result = .ok (tokens 1 "1.50") := by decide +kernel
  rw [parseExpression, scanned]
  rfl

theorem parsed_spread : parseExpression spread = .ok (tree 2) := by
  have scanned : (scanSource spread).result = .ok (tokens 2 "1.5") := by decide +kernel
  rw [parseExpression, scanned]
  rfl

theorem telling (line : Int) : (tree line).Telling := by
  have callee : "f" ∉ reservedAtoms := by decide
  have argument : "a" ∉ reservedAtoms := by decide
  exact ⟨⟨callee, argument, trivial⟩, nofun⟩

/-- Both are rendered alike, and they are the same comparison on different lines. -/
theorem rendering_is_faithful_comparison :
    parseExpression source = .ok (tree 1) ∧ parseExpression spread = .ok (tree 2) ∧
      (tree 1).Telling ∧ (tree 2).Telling ∧ (tree 1).render = (tree 2).render ∧
      (tree 1).bare = (tree 2).bare := by
  have same : (tree 1).render = (tree 2).render := rfl
  exact ⟨parsed, parsed_spread, telling 1, telling 2, same,
    rendering_is_faithful parsed parsed_spread (telling 1) (telling 2) same⟩

end SpreadComparison

end TreeWalk
