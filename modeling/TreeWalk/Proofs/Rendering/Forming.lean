import TreeWalk.Proofs.Grammar.Accounting.Programs
import TreeWalk.Proofs.Lexis.Joining
import TreeWalk.Proofs.Lexis.Spacing
import TreeWalk.Proofs.Run.Sessions

/-!
# Expressions of scanned words

The tokens of an expression that is read from a source are words, each of a kind that its
place allows, and its literals are what words stand for.

## Implementation notes

Nothing is said of functions, so the statements need not be followed. The proof is by
induction on the depth: `Forms` states for every production of expressions that it makes
such trees of rows of words and leaves such rows.
-/

namespace TreeWalk

/-- A token is a word of a kind. -/
structure Token.IsA (t : Token) (kind : TokenKind) : Prop where
  isWord : t.IsWord
  kind : t.kind = kind

/-- The use of a name that is a word of a kind, as it is written. -/
structure Reference.IsA (r : Reference) (kind : TokenKind) : Prop where
  name : r.name.IsA kind
  distance : r.distance = none

/-- A value that some word stands for. -/
def Scalar.IsWritten (value : Scalar) : Prop := ∃ text kind, IsPiece text (.word kind value)

mutual

/-- The tokens of an expression outside of functions are words of the kinds that their
places allow, and its literals are what words stand for. -/
def Expr.Formed : Expr → Prop
  | .literal value => value.IsWritten
  | .variable reference => reference.IsA .identifier
  | .assign reference value => reference.IsA .identifier ∧ value.Formed
  | .this reference => reference.IsA .thisWord
  | .super reference method => reference.IsA .superWord ∧ method.IsA .identifier
  | .grouping inner => inner.Formed
  | .unary operator operand =>
    operator.IsWord ∧ operator.kind ∈ [.bang, .minus] ∧ operand.Formed
  | .binary left operator right =>
    left.Formed ∧ right.Formed ∧ operator.IsWord ∧
      ∃ level, operator.kind ∈ Grammar.Level.operators level ∧ level ≠ .or ∧ level ≠ .and
  | .logical left operator right =>
    left.Formed ∧ right.Formed ∧ operator.IsWord ∧
      ∃ level, operator.kind ∈ Grammar.Level.operators level ∧ (level = .or ∨ level = .and)
  | .conditional condition consequent alternative =>
    condition.Formed ∧ consequent.Formed ∧ alternative.Formed
  | .comma items => Expr.AllFormed items
  | .call callee _ arguments => callee.Formed ∧ Expr.AllFormed arguments
  | .get object name => object.Formed ∧ name.IsA .identifier
  | .set object name value => object.Formed ∧ name.IsA .identifier ∧ value.Formed
  | .lambda .. => True

/-- Expressions each of which is made of words. -/
def Expr.AllFormed : List Expr → Prop
  | [] => True
  | item :: others => item.Formed ∧ Expr.AllFormed others

end

namespace Grammar

variable {ts tl mid rest : List Token} {d : Nat} {t : Token} {kind : TokenKind}

/-- A row of words and end tokens. -/
def AreWords (ts : List Token) : Prop := ∀ t ∈ ts, t.kind ≠ .endOfText → t.IsWord

theorem AreWords.tail (words : AreWords (t :: tl)) : AreWords tl :=
  fun u among => words u (List.mem_cons_of_mem t among)

theorem AreWords.head (words : AreWords (t :: tl)) (same : t.kind = kind)
    (noEnd : kind ≠ .endOfText) : t.IsA kind :=
  ⟨words t List.mem_cons_self (same ▸ noEnd), same⟩

theorem AreWords.left {ws : List Word} (words : AreWords ts) (accounts : Accounts ws ts rest) :
    AreWords rest := by
  obtain ⟨taken, rfl, -⟩ := accounts
  exact fun t among => words t (List.mem_append_right taken among)

/-- The operation of a level on expressions of words. -/
theorem node_formed {level : Level} {left right : Expr} (formed : left.Formed)
    (words : AreWords (t :: tl)) (isOperator : t.kind ∈ level.operators) (formed' : right.Formed) :
    (level.node left t right).Formed := by
  have isWord : t.IsWord := words t List.mem_cons_self (operator_ne_end isOperator)
  cases level with
  | or => exact ⟨formed, formed', isWord, .or, isOperator, .inl rfl⟩
  | and => exact ⟨formed, formed', isWord, .and, isOperator, .inr rfl⟩
  | equality => exact ⟨formed, formed', isWord, .equality, isOperator, nofun, nofun⟩
  | comparison => exact ⟨formed, formed', isWord, .comparison, isOperator, nofun, nofun⟩
  | term => exact ⟨formed, formed', isWord, .term, isOperator, nofun, nofun⟩
  | factor => exact ⟨formed, formed', isWord, .factor, isOperator, nofun, nofun⟩

/-- At a depth every production makes expressions of rows of words. -/
structure Forms (d : Nat) : Prop where
  expression {ts e rest} : (expression d).Gives ts e rest → AreWords ts →
    e.Formed ∧ AreWords rest
  commaItems {ts items rest} : (commaItems d).Gives ts items rest → AreWords ts →
    Expr.AllFormed items ∧ AreWords rest
  assignment {ts e rest} : (assignment d).Gives ts e rest → AreWords ts →
    e.Formed ∧ AreWords rest
  conditional {ts e rest} : (conditional d).Gives ts e rest → AreWords ts →
    e.Formed ∧ AreWords rest
  operation {level ts e rest} : (operation d level).Gives ts e rest → AreWords ts →
    e.Formed ∧ AreWords rest
  operationTail {level left ts e rest} : (operationTail d level left).Gives ts e rest →
    AreWords ts → left.Formed → e.Formed ∧ AreWords rest
  operand {level ts e rest} : (operand d level).Gives ts e rest → AreWords ts →
    e.Formed ∧ AreWords rest
  unary {ts e rest} : (unary d).Gives ts e rest → AreWords ts → e.Formed ∧ AreWords rest
  callTail {callee ts e rest} : (callTail d callee).Gives ts e rest → AreWords ts →
    callee.Formed → e.Formed ∧ AreWords rest
  arguments {ts items rest} : (arguments d).Gives ts items rest → AreWords ts →
    Expr.AllFormed (items.map Prod.snd) ∧ AreWords rest
  primary {ts e rest} : (primary d).Gives ts e rest → AreWords ts → e.Formed ∧ AreWords rest

theorem expression_forms (ih : Forms d) {e : Expr} (h : (expression (d + 1)).Gives ts e rest)
    (words : AreWords ts) : e.Formed ∧ AreWords rest := by
  obtain ⟨first, mid, others, head, tail, rfl⟩ := expression_gives.1 h
  obtain ⟨formed, left⟩ := ih.assignment head words
  obtain ⟨formed', left'⟩ := ih.commaItems tail left
  refine ⟨?_, left'⟩
  cases others with
  | nil => exact formed
  | cons => exact ⟨formed, formed'⟩

theorem commaItems_forms (ih : Forms d) {items : List Expr}
    (h : (commaItems (d + 1)).Gives ts items rest) (words : AreWords ts) :
    Expr.AllFormed items ∧ AreWords rest := by
  obtain ⟨-, rfl, rfl⟩ | ⟨comma, tl, item, mid, others, rfl, -, head, tail, rfl⟩ :=
    commaItems_gives.1 h
  · exact ⟨trivial, words⟩
  · obtain ⟨formed, left⟩ := ih.assignment head words.tail
    obtain ⟨formed', left'⟩ := ih.commaItems tail left
    exact ⟨⟨formed, formed'⟩, left'⟩

theorem assignment_forms (ih : Forms d) {e : Expr} (h : (assignment (d + 1)).Gives ts e rest)
    (words : AreWords ts) : e.Formed ∧ AreWords rest := by
  obtain ⟨target, mid, before, ⟨-, rfl, rfl⟩ | ⟨equals, tl, value, rfl, -, after, made⟩⟩ :=
    assignment_gives.1 h
  · exact ih.conditional before words
  · obtain ⟨formed, left⟩ := ih.conditional before words
    obtain ⟨formed', left'⟩ := ih.assignment after left.tail
    refine ⟨?_, left'⟩
    obtain ⟨reference, rfl, rfl⟩ | ⟨object, name, rfl, rfl⟩ := assignment?_eq_some made
    · exact ⟨formed, formed'⟩
    · exact ⟨formed.1, formed.2, formed'⟩

theorem conditional_forms (ih : Forms d) {e : Expr} (h : (conditional (d + 1)).Gives ts e rest)
    (words : AreWords ts) : e.Formed ∧ AreWords rest := by
  obtain ⟨condition, mid, first, ⟨-, rfl, rfl⟩ | ⟨question, tl, consequent, colon, mid',
    alternative, rfl, -, second, -, third, rfl⟩⟩ := conditional_gives.1 h
  · exact ih.operation first words
  · obtain ⟨formed, left⟩ := ih.operation first words
    obtain ⟨formed', left'⟩ := ih.expression second left.tail
    obtain ⟨formed'', left''⟩ := ih.expression third left'.tail
    exact ⟨⟨formed, formed', formed''⟩, left''⟩

theorem operation_forms (ih : Forms d) {level : Level} {e : Expr}
    (h : (operation (d + 1) level).Gives ts e rest) (words : AreWords ts) :
    e.Formed ∧ AreWords rest := by
  obtain ⟨left, mid, first, tail⟩ := operation_gives.1 h
  obtain ⟨formed, words'⟩ := ih.operand first words
  exact ih.operationTail tail words' formed

theorem operationTail_forms (ih : Forms d) {level : Level} {left e : Expr}
    (h : (operationTail (d + 1) level left).Gives ts e rest) (words : AreWords ts)
    (formed : left.Formed) : e.Formed ∧ AreWords rest := by
  obtain ⟨-, rfl, rfl⟩ | ⟨operator, tl, right, mid, rfl, isOperator, first, tail⟩ :=
    operationTail_gives.1 h
  · exact ⟨formed, words⟩
  · obtain ⟨formed', words'⟩ := ih.operand first words.tail
    exact ih.operationTail tail words' (node_formed formed words isOperator formed')

theorem operand_forms (ih : Forms d) {level : Level} {e : Expr}
    (h : (operand (d + 1) level).Gives ts e rest) (words : AreWords ts) :
    e.Formed ∧ AreWords rest := by
  have h := operand_gives.1 h
  cases next : level.tighter with
  | some tighter =>
    rw [next] at h
    exact ih.operation h words
  | none =>
    rw [next] at h
    exact ih.unary h words

theorem unary_forms (ih : Forms d) {e : Expr} (h : (unary (d + 1)).Gives ts e rest)
    (words : AreWords ts) : e.Formed ∧ AreWords rest := by
  obtain ⟨operator, tl, operand, rfl, isOperator, inner, rfl⟩ | ⟨-, callee, mid, first, tail⟩ :=
    unary_gives.1 h
  · obtain ⟨formed, left⟩ := ih.unary inner words.tail
    have noEnd : operator.kind ≠ .endOfText := by
      rintro isEnd
      rw [isEnd] at isOperator
      exact absurd isOperator (by decide)
    exact ⟨⟨words operator List.mem_cons_self noEnd, isOperator, formed⟩, left⟩
  · obtain ⟨formed, left⟩ := ih.primary first words
    exact ih.callTail tail left formed

theorem callTail_forms (ih : Forms d) {callee e : Expr}
    (h : (callTail (d + 1) callee).Gives ts e rest) (words : AreWords ts)
    (formed : callee.Formed) : e.Formed ∧ AreWords rest := by
  obtain ⟨t, tl, rfl, h⟩ := callTail_gives.1 h
  split at h
  next =>
    obtain ⟨items, paren, mid, inner, -, -, tail⟩ := h
    obtain ⟨t', tl', rfl, inner⟩ := unlessNext_gives.1 inner
    obtain ⟨formed', left⟩ :
        Expr.AllFormed (items.map Prod.snd) ∧ AreWords (paren :: mid) := by
      split at inner
      next =>
        obtain ⟨rfl, cut⟩ := inner
        exact ⟨trivial, cut ▸ words.tail⟩
      next => exact ih.arguments inner words.tail
    exact ih.callTail tail left.tail ⟨formed, formed'⟩
  next =>
    obtain ⟨name, mid, rfl, isName, tail⟩ := h
    exact ih.callTail tail words.tail.tail ⟨formed, words.tail.head isName nofun⟩
  next =>
    obtain ⟨rfl, rfl⟩ := h
    exact ⟨formed, words⟩

theorem arguments_forms (ih : Forms d) {items : List (Token × Expr)}
    (h : (arguments (d + 1)).Gives ts items rest) (words : AreWords ts) :
    Expr.AllFormed (items.map Prod.snd) ∧ AreWords rest := by
  obtain ⟨first, item, mid, -, head, ⟨-, rfl, rfl⟩ | ⟨comma, tl, others, rfl, -, tail, rfl⟩⟩ :=
    arguments_gives.1 h
  · obtain ⟨formed, left⟩ := ih.assignment head words
    exact ⟨⟨formed, trivial⟩, left⟩
  · obtain ⟨formed, left⟩ := ih.assignment head words
    obtain ⟨formed', left'⟩ := ih.arguments tail left.tail
    exact ⟨⟨formed, formed'⟩, left'⟩

/-- The values of the three words that are literals. -/
theorem isWritten_keyword (word : String) (kind : TokenKind)
    (listed : (word, kind) ∈ TokenKind.keywords) : kind.wordLiteral.IsWritten :=
  ⟨word.toList, kind, .keyword (by rwa [String.ofList_toList])⟩

theorem primary_forms (ih : Forms d) {e : Expr} (h : (primary (d + 1)).Gives ts e rest)
    (words : AreWords ts) : e.Formed ∧ AreWords rest := by
  refine ⟨?_, words.left (primary_accounts (accounted d) h).accounts⟩
  obtain ⟨t, tl, rfl, made⟩ := primary_gives.1 h
  split at made
  next =>
    obtain ⟨rfl, -⟩ := made
    exact isWritten_keyword "false" .falseWord (by decide)
  next =>
    obtain ⟨rfl, -⟩ := made
    exact isWritten_keyword "true" .trueWord (by decide)
  next =>
    obtain ⟨rfl, -⟩ := made
    exact isWritten_keyword "nil" .nilWord (by decide)
  next same =>
    obtain ⟨rfl, -⟩ := made
    exact ⟨_, _, (words.head same nofun).isWord⟩
  next same =>
    obtain ⟨rfl, -⟩ := made
    exact ⟨_, _, (words.head same nofun).isWord⟩
  next =>
    obtain ⟨inner, close, gives, -, rfl⟩ := made
    exact (ih.expression gives words.tail).1
  next same =>
    obtain ⟨dot, method, rfl, -, isName, rfl⟩ := made
    exact ⟨⟨words.head same nofun, rfl⟩, words.tail.tail.head isName nofun⟩
  next same =>
    obtain ⟨rfl, -⟩ := made
    exact ⟨words.head same nofun, rfl⟩
  next =>
    obtain ⟨_, _, _, _, _, _, -, -, -, -, -, rfl⟩ := made
    trivial
  next same =>
    obtain ⟨rfl, -⟩ := made
    exact ⟨words.head same nofun, rfl⟩
  next => exact made.elim

theorem forms (d : Nat) : Forms d := by
  induction d with
  | zero =>
    constructor <;> intros <;>
      simp_all [expression, commaItems, assignment, conditional, operation, operationTail,
        operand, unary, callTail, arguments, primary]
  | succ d ih =>
    exact
      { expression := expression_forms ih
        commaItems := commaItems_forms ih
        assignment := assignment_forms ih
        conditional := conditional_forms ih
        operation := operation_forms ih
        operationTail := operationTail_forms ih
        operand := operand_forms ih
        unary := unary_forms ih
        callTail := callTail_forms ih
        arguments := arguments_forms ih
        primary := primary_forms ih }

end Grammar

/-- The tokens of a source are words up to the end token. -/
theorem scanSource_areWords {source : String} {tokens : List Token}
    (scanned : (scanSource source).result = .ok tokens) : Grammar.AreWords tokens := by
  obtain ⟨pieces, division, rfl⟩ := scanSource_eq_ok_iff.1 scanned
  obtain ⟨words, line, cutAtEnd, areWords⟩ := division.words []
  rw [cutAtEnd]
  intro t among noEnd
  obtain among | among := List.mem_append.1 among
  · exact areWords t among
  · rw [List.mem_singleton.1 among] at noEnd
    exact absurd rfl noEnd

/-- The expression of a source is made of words. -/
theorem parseExpression_formed {source : String} {e : Expr}
    (parsed : parseExpression source = .ok e) : e.Formed := by
  obtain ⟨tokens, rest, scanned, read⟩ := parseExpression_ok parsed
  obtain ⟨inner, -⟩ := Grammar.loneExpression_gives.1 (Grammar.read_eq_ok.1 read)
  exact ((Grammar.forms _).expression inner (scanSource_areWords scanned)).1

end TreeWalk
