import TreeWalk.Grammar.Level
import TreeWalk.Grammar.Requirement
import Mathlib.Data.List.Forall2

/-!
# Writing trees out

A tree is written out as a row of words in the order of its text. A word is a token
that the tree has kept, or it stands for one of which the tree only knows the kind, or
for a literal. `Layered` says which trees can be written out without brackets that they
do not have: every operand is tight enough for its place, and no part takes a token that
belongs to what follows it.

## Implementation notes

How tight an expression is is its `rank`: 0 for a row of items with commas, 1 for an
assignment, 2 for a choice, 3 to 8 for the levels of operators, 9 for an operator before
its operand and 10 for everything tighter.
-/

namespace TreeWalk

/-- What a tree knows about one token of its text. -/
inductive Word
  | kept (token : Token)
  | mark (kind : TokenKind)
  | constant (value : Scalar)

/-- The kind of the token that is written for a literal. -/
def Scalar.tokenKind : Scalar → TokenKind
  | .nil => .nilWord
  | .boolean true => .trueWord
  | .boolean false => .falseWord
  | .number _ => .number
  | .string _ => .string

namespace Word

/-- The kind of the token that a word stands for. -/
def kind : Word → TokenKind
  | kept token => token.kind
  | mark kind => kind
  | constant value => value.tokenKind

/-- A token is what a word stands for. Only the tokens of numbers and strings carry
their values; other literals are known by their kind. -/
def Spells : Word → Token → Prop
  | kept token, t => t = token
  | mark kind, t => t.kind = kind
  | constant value, t =>
    t.kind = value.tokenKind ∧ (t.kind = .number ∨ t.kind = .string → t.literal = value)

/-- One token that a word stands for. -/
def token : Word → Token
  | kept token => token
  | mark kind => ⟨kind, kind.name, .nil, 1⟩
  | constant value => ⟨value.tokenKind, value.text, value, 1⟩

theorem spells_token (w : Word) : w.Spells w.token := by
  cases w <;> simp [Spells, token]

theorem Spells.kind_eq {w : Word} {t : Token} (h : w.Spells t) : t.kind = w.kind := by
  cases w with
  | kept => exact congrArg Token.kind h
  | mark => exact h
  | constant => exact h.1

end Word

/-- A row of tokens is a row of words. -/
abbrev Spelled (ws : List Word) (ts : List Token) : Prop := List.Forall₂ Word.Spells ws ts

theorem spelled_tokens (ws : List Word) : Spelled ws (ws.map Word.token) := by
  induction ws with
  | nil => exact .nil
  | cons w ws ih => exact .cons w.spells_token ih

section

variable {ts : List Token}

theorem spelled_nil : Spelled [] ts ↔ ts = [] := List.forall₂_nil_left_iff

theorem spelled_cons {w : Word} {ws : List Word} :
    Spelled (w :: ws) ts ↔ ∃ t tl, ts = t :: tl ∧ w.Spells t ∧ Spelled ws tl := by
  rw [Spelled, List.forall₂_cons_left_iff]
  grind

theorem spelled_kept {t : Token} {ws : List Word} :
    Spelled (.kept t :: ws) ts ↔ ∃ tl, ts = t :: tl ∧ Spelled ws tl := by
  simp [spelled_cons, Word.Spells]

theorem spelled_append {ws ws' : List Word} :
    Spelled (ws ++ ws') ts ↔ ∃ tl tl', ts = tl ++ tl' ∧ Spelled ws tl ∧ Spelled ws' tl' := by
  induction ws generalizing ts with
  | nil => simp
  | cons w ws ih =>
    simp only [List.cons_append, spelled_cons, ih]
    constructor
    · rintro ⟨t, _, rfl, isWord, tl, tl', rfl, first, second⟩
      exact ⟨t :: tl, tl', rfl, ⟨t, tl, rfl, isWord, first⟩, second⟩
    · rintro ⟨_, tl', rfl, ⟨t, tl, rfl, isWord, first⟩, second⟩
      exact ⟨t, tl ++ tl', rfl, isWord, tl, tl', rfl, first, second⟩

end

/-- The words of a list of names with commas between them. -/
def nameWords : List Token → List Word
  | [] => []
  | name :: names => .kept name :: names.flatMap fun other => [.mark .comma, .kept other]

/-- A word that is among the names of a list. -/
theorem mem_nameWords {names : List Token} {t : Token} (h : t ∈ names) :
    .kept t ∈ nameWords names := by
  cases names with
  | nil => cases h
  | cons name names =>
      rw [nameWords]
      obtain rfl | among := List.mem_cons.1 h
      · exact List.mem_cons_self
      · refine List.mem_cons_of_mem _ (List.mem_flatMap.2 ⟨t, among, ?_⟩)
        exact List.mem_cons_of_mem _ List.mem_cons_self

mutual

/-- The words of an expression. -/
def Expr.words : Expr → List Word
  | .literal value => [.constant value]
  | .variable reference => [.kept reference.name]
  | .assign reference value => .kept reference.name :: .mark .equal :: value.words
  | .this reference => [.kept reference.name]
  | .super reference method => [.kept reference.name, .mark .dot, .kept method]
  | .grouping inner => .mark .leftParen :: (inner.words ++ [.mark .rightParen])
  | .unary operator operand => .kept operator :: operand.words
  | .binary left operator right => left.words ++ .kept operator :: right.words
  | .logical left operator right => left.words ++ .kept operator :: right.words
  | .conditional condition consequent alternative =>
    condition.words ++ .mark .question ::
      (consequent.words ++ .mark .colon :: alternative.words)
  | .comma items => Expr.listWords items
  | .call callee paren arguments =>
    callee.words ++ .mark .leftParen :: (Expr.listWords arguments ++ [.kept paren])
  | .get object name => object.words ++ [.mark .dot, .kept name]
  | .set object name value =>
    object.words ++ .mark .dot :: .kept name :: .mark .equal :: value.words
  | .lambda keyword params body =>
    .kept keyword :: .mark .leftParen :: (nameWords params ++ .mark .rightParen ::
      .mark .leftBrace :: (Stmt.rowWords body ++ [.mark .rightBrace]))

/-- The words of items with commas between them. -/
def Expr.listWords : List Expr → List Word
  | [] => []
  | item :: others => item.words ++ Expr.moreWords others

/-- The words of items with a comma before each. -/
def Expr.moreWords : List Expr → List Word
  | [] => []
  | item :: others => .mark .comma :: (item.words ++ Expr.moreWords others)

/-- The words of a statement. -/
def Stmt.words : Stmt → List Word
  | .expression value => value.words ++ [.mark .semicolon]
  | .print value => .mark .printWord :: (value.words ++ [.mark .semicolon])
  | .varDecl name none => [.mark .varWord, .kept name, .mark .semicolon]
  | .varDecl name (some initial) =>
    .mark .varWord :: .kept name :: .mark .equal :: (initial.words ++ [.mark .semicolon])
  | .block body => .mark .leftBrace :: (Stmt.rowWords body ++ [.mark .rightBrace])
  | .branch condition consequent none =>
    .mark .ifWord :: .mark .leftParen ::
      (condition.words ++ .mark .rightParen :: consequent.words)
  | .branch condition consequent (some alternative) =>
    .mark .ifWord :: .mark .leftParen ::
      (condition.words ++ .mark .rightParen ::
        (consequent.words ++ .mark .elseWord :: alternative.words))
  | .loop condition body =>
    .mark .whileWord :: .mark .leftParen :: (condition.words ++ .mark .rightParen :: body.words)
  | .functionDecl function => .mark .funWord :: function.words
  | .classDecl name none methods =>
    .mark .classWord :: .kept name :: .mark .leftBrace ::
      (FunctionDecl.rowWords methods ++ [.mark .rightBrace])
  | .classDecl name (some superclass) methods =>
    .mark .classWord :: .kept name :: .mark .less :: .kept superclass.name ::
      .mark .leftBrace :: (FunctionDecl.rowWords methods ++ [.mark .rightBrace])
  | .returns keyword none => [.kept keyword, .mark .semicolon]
  | .returns keyword (some value) => .kept keyword :: (value.words ++ [.mark .semicolon])

/-- The words of statements, one after the other. -/
def Stmt.rowWords : List Stmt → List Word
  | [] => []
  | statement :: others => statement.words ++ Stmt.rowWords others

/-- The words of a function from its name on. -/
def FunctionDecl.words : FunctionDecl → List Word
  | .mk name params body =>
    .kept name :: .mark .leftParen :: (nameWords params ++ .mark .rightParen ::
      .mark .leftBrace :: (Stmt.rowWords body ++ [.mark .rightBrace]))

/-- The words of methods, one after the other. -/
def FunctionDecl.rowWords : List FunctionDecl → List Word
  | [] => []
  | method :: others => method.words ++ FunctionDecl.rowWords others

end

/-- The level of an operator of two operands. -/
def Grammar.Level.ofKind? : TokenKind → Option Grammar.Level
  | .orWord => some .or
  | .andWord => some .and
  | .bangEqual | .equalEqual => some .equality
  | .greater | .greaterEqual | .less | .lessEqual => some .comparison
  | .minus | .plus => some .term
  | .slash | .star => some .factor
  | _ => none

/-- How tight the operators of a level are. -/
def Grammar.Level.rank : Grammar.Level → Nat
  | .or => 3
  | .and => 4
  | .equality => 5
  | .comparison => 6
  | .term => 7
  | .factor => 8

/-- How tight an expression is. -/
def Expr.rank : Expr → Nat
  | .comma _ => 0
  | .assign .. | .set .. => 1
  | .conditional .. => 2
  | .binary _ operator _ | .logical _ operator _ =>
    ((Grammar.Level.ofKind? operator.kind).map Grammar.Level.rank).getD 0
  | .unary .. => 9
  | _ => 10

/-- An expression ends in the alternative of a choice without brackets around it, which
takes all that may follow in an expression. -/
def Expr.endsOpen : Expr → Bool
  | .conditional .. => true
  | .assign _ value | .set _ _ value => value.endsOpen
  | _ => false

/-- A statement ends in a branch without an alternative, which takes an alternative that
follows. -/
def Stmt.endsShort : Stmt → Bool
  | .branch _ _ none => true
  | .branch _ _ (some alternative) => alternative.endsShort
  | .loop _ body => body.endsShort
  | _ => false

/-- The name that a statement declares, if it is a declaration. -/
def Stmt.declared? : Stmt → Option Token
  | .varDecl name _ => some name
  | .functionDecl function => some function.name
  | .classDecl name _ _ => some name
  | _ => none

/-- A name as it is written where a variable is used. -/
def Reference.IsWritten (reference : Reference) (kind : TokenKind) : Prop :=
  reference.name.kind = kind ∧ reference.distance = none

/-- The names of parameters. -/
def AreParameters (params : List Token) : Prop :=
  params.length ≤ maxArguments ∧ ∀ param ∈ params, param.kind = .identifier

/-- Items that commas can separate. -/
def Expr.Separable : List Expr → Prop
  | [] => True
  | item :: others =>
    0 < item.rank ∧ (others ≠ [] → item.endsOpen = false) ∧ Expr.Separable others

mutual

/-- Every operand in an expression is tight enough for its place. -/
def Expr.Layered : Expr → Prop
  | .literal _ => True
  | .variable reference => reference.IsWritten .identifier
  | .assign reference value => reference.IsWritten .identifier ∧ value.Layered ∧ 0 < value.rank
  | .this reference => reference.IsWritten .thisWord
  | .super reference method => reference.IsWritten .superWord ∧ method.kind = .identifier
  | .grouping inner => inner.Layered
  | .unary operator operand =>
    (operator.kind = .bang ∨ operator.kind = .minus) ∧ operand.Layered ∧ 9 ≤ operand.rank
  | .binary left operator right =>
    (∃ level, Grammar.Level.ofKind? operator.kind = some level ∧
      level ≠ .or ∧ level ≠ .and ∧ level.rank ≤ left.rank ∧ level.rank < right.rank) ∧
      left.Layered ∧ right.Layered
  | .logical left operator right =>
    (∃ level, Grammar.Level.ofKind? operator.kind = some level ∧
      (level = .or ∨ level = .and) ∧ level.rank ≤ left.rank ∧ level.rank < right.rank) ∧
      left.Layered ∧ right.Layered
  | .conditional condition consequent alternative =>
    condition.Layered ∧ 3 ≤ condition.rank ∧ consequent.Layered ∧ alternative.Layered
  | .comma items => 2 ≤ items.length ∧ Expr.Separable items ∧ Expr.AllLayered items
  | .call callee paren arguments =>
    callee.Layered ∧ 10 ≤ callee.rank ∧ paren.kind = .rightParen ∧
      arguments.length ≤ maxArguments ∧ Expr.Separable arguments ∧ Expr.AllLayered arguments
  | .get object name => object.Layered ∧ 10 ≤ object.rank ∧ name.kind = .identifier
  | .set object name value =>
    object.Layered ∧ 10 ≤ object.rank ∧ name.kind = .identifier ∧
      value.Layered ∧ 0 < value.rank
  | .lambda keyword params body =>
    keyword.kind = .funWord ∧ AreParameters params ∧ Stmt.AllLayered body

/-- Expressions each of which is layered. -/
def Expr.AllLayered : List Expr → Prop
  | [] => True
  | item :: others => item.Layered ∧ Expr.AllLayered others

/-- Every part of a statement is tight enough for its place, the bodies of branches and
loops are no declarations, and an alternative belongs to the nearest branch before it. -/
def Stmt.Layered : Stmt → Prop
  | .expression value => value.Layered
  | .print value => value.Layered
  | .varDecl name none => name.kind = .identifier
  | .varDecl name (some initial) => name.kind = .identifier ∧ initial.Layered
  | .block body => Stmt.AllLayered body
  | .branch condition consequent none =>
    condition.Layered ∧ consequent.Layered ∧ consequent.declared? = none
  | .branch condition consequent (some alternative) =>
    condition.Layered ∧ consequent.Layered ∧ consequent.declared? = none ∧
      consequent.endsShort = false ∧ alternative.Layered ∧ alternative.declared? = none
  | .loop condition body => condition.Layered ∧ body.Layered ∧ body.declared? = none
  | .functionDecl function => function.Layered
  | .classDecl name none methods =>
    name.kind = .identifier ∧ FunctionDecl.AllLayered methods
  | .classDecl name (some superclass) methods =>
    name.kind = .identifier ∧ superclass.IsWritten .identifier ∧
      FunctionDecl.AllLayered methods
  | .returns keyword none => keyword.kind = .returnWord
  | .returns keyword (some value) => keyword.kind = .returnWord ∧ value.Layered

/-- Statements each of which is layered. -/
def Stmt.AllLayered : List Stmt → Prop
  | [] => True
  | statement :: others => statement.Layered ∧ Stmt.AllLayered others

/-- A function whose name and parameters are names and whose statements are layered. -/
def FunctionDecl.Layered : FunctionDecl → Prop
  | .mk name params body =>
    name.kind = .identifier ∧ AreParameters params ∧ Stmt.AllLayered body

/-- Methods each of which is layered. -/
def FunctionDecl.AllLayered : List FunctionDecl → Prop
  | [] => True
  | method :: others => method.Layered ∧ FunctionDecl.AllLayered others

end

/-- What is tighter than a choice is closed. -/
theorem Expr.endsOpen_of_rank {e : Expr} (h : 3 ≤ e.rank) : e.endsOpen = false := by
  cases e <;> simp_all [Expr.rank, Expr.endsOpen]

namespace Grammar

theorem three_le_rank (level : Level) : 3 ≤ level.rank := by
  cases level <;> decide

theorem ofKind?_eq_some {level : Level} {kind : TokenKind} :
    Level.ofKind? kind = some level ↔ kind ∈ level.operators := by
  cases level <;> cases kind <;> simp [Level.ofKind?, Level.operators]

/-- The operation of a level is layered and as tight as the level. -/
theorem node_layered {level : Level} {operator : Token} {left right : Expr}
    (isOperator : operator.kind ∈ level.operators) (hl : left.Layered)
    (hr : right.Layered) (looser : level.rank ≤ left.rank) (tighter : level.rank < right.rank) :
    (level.node left operator right).Layered ∧
      (level.node left operator right).rank = level.rank := by
  have kind := ofKind?_eq_some.2 isOperator
  cases level <;> simp_all [Level.node, Expr.Layered, Expr.rank]

theorem node_words {level : Level} {operator : Token} {left right : Expr} :
    (level.node left operator right).words = left.words ++ .kept operator :: right.words := by
  cases level <;> simp [Level.node, Expr.words]

theorem tighter_rank {level tighter : Level} (h : level.tighter = some tighter) :
    tighter.rank = level.rank + 1 := by
  cases level <;> cases h <;> rfl

end Grammar

end TreeWalk
