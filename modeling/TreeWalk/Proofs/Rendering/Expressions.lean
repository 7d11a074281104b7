import TreeWalk.Proofs.Rendering.Atoms

/-!
# Renderings of expressions as nests

The rendering of an expression is the text of a nest. For expressions without strings and
functions the nest has no broken atoms, so it is known from the rendering.

## Implementation notes

A function is an atom as a whole, with all its blanks: its rendering is still the text of its
nest, but nothing more is said of it.
-/

namespace TreeWalk

open Grammar Nest

/-- The names that stand for something else at the place of a variable. -/
def reservedAtoms : List String := ["begin", "get", "group", "inf"]

mutual

/-- An expression without strings, without functions and without variables that are named
like something else. -/
def Expr.Telling : Expr → Prop
  | .literal value => ∀ s, value ≠ .string s
  | .variable reference => reference.name.lexeme ∉ reservedAtoms
  | .assign _ value => value.Telling
  | .this _ => True
  | .super .. => True
  | .grouping inner => inner.Telling
  | .unary _ operand => operand.Telling
  | .binary left _ right => left.Telling ∧ right.Telling
  | .logical left _ right => left.Telling ∧ right.Telling
  | .conditional condition consequent alternative =>
    condition.Telling ∧ consequent.Telling ∧ alternative.Telling
  | .comma items => Expr.AllTelling items
  | .call callee _ arguments => callee.Telling ∧ Expr.AllTelling arguments
  | .get object _ => object.Telling
  | .set object _ value => object.Telling ∧ value.Telling
  | .lambda .. => False

/-- Expressions each of which is telling. -/
def Expr.AllTelling : List Expr → Prop
  | [] => True
  | item :: others => item.Telling ∧ Expr.AllTelling others

end

/-- A use of a name on no line. -/
def Reference.bare (r : Reference) : Reference := { r with name := r.name.bare }

/-- The parenthesis that closes a call, on no line. -/
def closing : Token := ⟨.rightParen, ")", .nil, 0⟩

mutual

/-- An expression with all its tokens on no line and the same parenthesis closing all its
calls. Functions stay as they are. -/
def Expr.bare : Expr → Expr
  | .literal value => .literal value
  | .variable reference => .variable reference.bare
  | .assign reference value => .assign reference.bare value.bare
  | .this reference => .this reference.bare
  | .super reference method => .super reference.bare method.bare
  | .grouping inner => .grouping inner.bare
  | .unary operator operand => .unary operator.bare operand.bare
  | .binary left operator right => .binary left.bare operator.bare right.bare
  | .logical left operator right => .logical left.bare operator.bare right.bare
  | .conditional condition consequent alternative =>
    .conditional condition.bare consequent.bare alternative.bare
  | .comma items => .comma (Expr.bareEach items)
  | .call callee _ arguments => .call callee.bare closing (Expr.bareEach arguments)
  | .get object name => .get object.bare name.bare
  | .set object name value => .set object.bare name.bare value.bare
  | .lambda keyword params body => .lambda keyword params body

/-- Some expressions on no line. -/
def Expr.bareEach : List Expr → List Expr
  | [] => []
  | item :: others => item.bare :: Expr.bareEach others

end

mutual

/-- The nest that an expression is written as. A function is taken as a whole. -/
def Expr.nest : Expr → Nest
  | .literal value => .atom value.text
  | .variable reference => .atom reference.name.lexeme
  | .assign reference value => .list (.atom "set!") [.atom reference.name.lexeme, value.nest]
  | .this _ => .list (.atom "this") []
  | .super _ method => .list (.atom "super") [.atom method.lexeme]
  | .grouping inner => .list (.atom "group") [inner.nest]
  | .unary operator operand => .list (.atom operator.lexeme) [operand.nest]
  | .binary left operator right => .list (.atom operator.lexeme) [left.nest, right.nest]
  | .logical left operator right => .list (.atom operator.lexeme) [left.nest, right.nest]
  | .conditional condition consequent alternative =>
    .list (.atom "if") [condition.nest, consequent.nest, alternative.nest]
  | .comma items => .list (.atom "begin") (Expr.nestEach items)
  | .call callee _ arguments => .list callee.nest (Expr.nestEach arguments)
  | .get object name => .list (.atom "get") [object.nest, .atom name.lexeme]
  | .set object name value => .list (.atom "set!") [object.nest, .atom name.lexeme, value.nest]
  | .lambda keyword params body => .atom (Expr.lambda keyword params body).render

/-- The nests of some expressions. -/
def Expr.nestEach : List Expr → List Nest
  | [] => []
  | item :: others => item.nest :: Expr.nestEach others

end

mutual

/-- The text of its nest is the rendering of an expression. -/
theorem Expr.text_nest : ∀ e : Expr, e.nest.text = e.render
  | .literal _ | .variable _ | .lambda .. => by simp only [nest, text, render]
  | .this _ => rfl
  | .super .. => by simp only [nest, text, textEach, render]
  | .assign _ value => by simp only [nest, text, textEach, render, value.text_nest]
  | .grouping inner => by simp only [nest, text, textEach, render, inner.text_nest]
  | .unary _ operand => by simp only [nest, text, textEach, render, operand.text_nest]
  | .binary left _ right => by
    simp only [nest, text, textEach, render, left.text_nest, right.text_nest]
  | .logical left _ right => by
    simp only [nest, text, textEach, render, left.text_nest, right.text_nest]
  | .conditional condition consequent alternative => by
    simp only [nest, text, textEach, render, condition.text_nest, consequent.text_nest,
      alternative.text_nest]
  | .comma items => by simp only [nest, text, render, Expr.textEach_nestEach items]
  | .call callee _ arguments => by
    simp only [nest, text, render, callee.text_nest, Expr.textEach_nestEach arguments]
  | .get object _ => by simp only [nest, text, textEach, render, object.text_nest]
  | .set object _ value => by
    simp only [nest, text, textEach, render, object.text_nest, value.text_nest]

theorem Expr.textEach_nestEach : ∀ items : List Expr,
    textEach (Expr.nestEach items) = Expr.renderEach items
  | [] => rfl
  | item :: others => by
    simp only [nestEach, textEach, renderEach, item.text_nest, Expr.textEach_nestEach others]

end

/-- A kind of token is an operator of one or two operands. -/
def isOperator (kind : TokenKind) : Bool := kind = .bang || (Level.ofKind? kind).isSome

theorem isOperator_of_mem {level : Level} {kind : TokenKind} (among : kind ∈ level.operators) :
    isOperator kind = true := by
  rw [isOperator, ofKind?_eq_some.2 among]
  simp

theorem isOperator_of_unary {kind : TokenKind} (among : kind ∈ [.bang, .minus]) :
    isOperator kind = true := by
  obtain rfl | rfl : kind = .bang ∨ kind = .minus := by simpa using among
  · rfl
  · rfl

theorem not_delimited_of_isOperator {kind : TokenKind} (h : isOperator kind = true) :
    kind ∉ delimited := by
  intro among
  have none : delimited.all fun other => !isOperator other := by decide
  simpa [h] using List.all_eq_true.1 none kind among

mutual

/-- The nest of a telling expression of words has only atoms. -/
theorem Expr.clean_nest : ∀ e : Expr, e.Formed → e.Telling → e.nest.Clean
  | .literal value, formed, telling => by
    obtain rfl | ⟨b, rfl⟩ | ⟨s, rfl⟩ | ⟨x, unsigned, rfl⟩ := formed.cases
    · exact unbroken_of_test (by decide)
    · cases b <;> exact unbroken_of_test (by decide)
    · exact absurd rfl (telling s)
    · exact number_unbroken unsigned
  | .variable _, formed, _ => formed.name.unbroken (by decide)
  | .assign _ value, formed, telling =>
    ⟨unbroken_of_test (by decide), formed.1.name.unbroken (by decide),
      value.clean_nest formed.2 telling, trivial⟩
  | .this _, _, _ => ⟨unbroken_of_test (by decide), trivial⟩
  | .super .., formed, _ =>
    ⟨unbroken_of_test (by decide), formed.2.unbroken (by decide), trivial⟩
  | .grouping inner, formed, telling =>
    ⟨unbroken_of_test (by decide), inner.clean_nest formed telling, trivial⟩
  | .unary _ operand, formed, telling =>
    ⟨formed.1.unbroken (not_delimited_of_isOperator (isOperator_of_unary formed.2.1)),
      operand.clean_nest formed.2.2 telling, trivial⟩
  | .binary left _ right, ⟨formed, formed', isWord, _, among, _⟩, telling =>
    ⟨isWord.unbroken (not_delimited_of_isOperator (isOperator_of_mem among)),
      left.clean_nest formed telling.1, right.clean_nest formed' telling.2, trivial⟩
  | .logical left _ right, ⟨formed, formed', isWord, _, among, _⟩, telling =>
    ⟨isWord.unbroken (not_delimited_of_isOperator (isOperator_of_mem among)),
      left.clean_nest formed telling.1, right.clean_nest formed' telling.2, trivial⟩
  | .conditional condition consequent alternative, formed, telling =>
    ⟨unbroken_of_test (by decide), condition.clean_nest formed.1 telling.1,
      consequent.clean_nest formed.2.1 telling.2.1,
      alternative.clean_nest formed.2.2 telling.2.2, trivial⟩
  | .comma items, formed, telling =>
    ⟨unbroken_of_test (by decide), Expr.cleanEach_nestEach items formed telling⟩
  | .call callee _ arguments, formed, telling =>
    ⟨callee.clean_nest formed.1 telling.1,
      Expr.cleanEach_nestEach arguments formed.2 telling.2⟩
  | .get object _, formed, telling =>
    ⟨unbroken_of_test (by decide), object.clean_nest formed.1 telling,
      formed.2.unbroken (by decide), trivial⟩
  | .set object _ value, formed, telling =>
    ⟨unbroken_of_test (by decide), object.clean_nest formed.1 telling.1,
      formed.2.1.unbroken (by decide), value.clean_nest formed.2.2 telling.2, trivial⟩
  | .lambda .., _, telling => telling.elim

theorem Expr.cleanEach_nestEach : ∀ items : List Expr, Expr.AllFormed items →
    Expr.AllTelling items → CleanEach (Expr.nestEach items)
  | [], _, _ => trivial
  | item :: others, formed, telling =>
    ⟨item.clean_nest formed.1 telling.1, Expr.cleanEach_nestEach others formed.2 telling.2⟩

end

end TreeWalk
