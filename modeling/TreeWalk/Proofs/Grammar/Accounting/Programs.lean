import TreeWalk.Proofs.Grammar.Accounting.Statements

/-!
# Programs account for their tokens

What is read is layered, and written out it gives the tokens that were read.
-/

namespace TreeWalk.Grammar

variable {ts rest : List Token} {d : Nat}

theorem accounted (d : Nat) : Accounted d := by
  induction d with
  | zero =>
    constructor <;> intros <;>
      simp_all [expression, commaItems, assignment, conditional, operation, operationTail,
        operand, unary, callTail, arguments, primary, routine, declaration, classRest, methods,
        varRest, blockRest, blockItems, statement, expressionStatement, forRest, forInitial,
        ifRest]
  | succ d ih =>
    exact
      { expression := expression_accounts ih
        commaItems := commaItems_accounts ih
        assignment := assignment_accounts ih
        conditional := conditional_accounts ih
        operation := operation_accounts ih
        operationTail := operationTail_accounts ih
        operand := operand_accounts ih
        unary := unary_accounts ih
        callTail := callTail_accounts ih
        arguments := arguments_accounts ih
        primary := primary_accounts ih
        routine := routine_accounts ih
        declaration := declaration_accounts ih
        classRest := classRest_accounts ih
        methods := methods_accounts ih
        varRest := varRest_accounts ih
        blockRest := blockRest_accounts ih
        blockItems := blockItems_accounts ih
        statement := statement_accounts ih
        expressionStatement := expressionStatement_accounts ih
        forRest := forRest_accounts ih
        forInitial := forInitial_accounts ih
        ifRest := ifRest_accounts ih }

theorem items_accounts {found : List Stmt} (h : (items d).Gives ts found rest) :
    Accounts (Stmt.rowWords found) ts rest ∧ Stmt.AllLayered found ∧
      ∃ t, rest.head? = some t ∧ t.kind = .endOfText := by
  induction d generalizing ts found with
  | zero => simp [items] at h
  | succ d ih =>
    obtain ⟨t, tl, rfl, made⟩ := items_gives.1 h
    split at made
    next isEnd =>
      obtain ⟨rfl, rfl⟩ := made
      exact ⟨.nil, trivial, t, rfl, isEnd⟩
    next =>
      obtain ⟨item, mid, others, first, more, rfl⟩ := made
      obtain ⟨accounts, layered⟩ := (accounted d).declaration first
      obtain ⟨accounts', layered', ends⟩ := ih more
      exact ⟨accounts.append accounts', ⟨layered, layered'⟩, ends⟩

theorem loneExpression_accounts {e : Expr} (h : (loneExpression d).Gives ts e rest) :
    Accounts e.words ts rest ∧ e.Layered ∧ ∃ t, rest.head? = some t ∧ t.kind = .endOfText := by
  obtain ⟨inner, ends⟩ := loneExpression_gives.1 h
  obtain ⟨e, -⟩ := (accounted d).expression inner
  exact ⟨e.accounts, e.layered, ends⟩

/-- A row of tokens up to its first end token, and from there on. -/
def CutAtEnd (tokens taken rest : List Token) : Prop :=
  tokens = taken ++ rest ∧ (∀ t ∈ taken, t.kind ≠ .endOfText) ∧
    ∃ t, rest.head? = some t ∧ t.kind = .endOfText

/-- What is read is layered, and written out it is the tokens before the first end
token. -/
theorem written_of_read (tokens : List Token) (plain : Plain tokens) :
    (∀ tree rest, program tokens = (.ok tree, rest) → Stmt.AllLayered tree ∧
      ∃ taken, CutAtEnd tokens taken rest ∧ Spelled (Stmt.rowWords tree) taken) ∧
    (∀ e rest, wholeExpression tokens = (.ok e, rest) → e.Layered ∧
      ∃ taken, CutAtEnd tokens taken rest ∧ Spelled e.words taken) := by
  have spelled {ws : List Word} {rest : List Token} (h : Accounts ws tokens rest)
      (ends : ∃ t, rest.head? = some t ∧ t.kind = .endOfText) :
      ∃ taken, CutAtEnd tokens taken rest ∧ Spelled ws taken := by
    obtain ⟨taken, rfl, noEnd, -, spelled⟩ := h
    exact ⟨taken, ⟨rfl, noEnd, ends⟩, spelled fun t ht => plain t (by simp [ht])⟩
  constructor
  · intro tree rest h
    obtain ⟨accounts, layered, ends⟩ := items_accounts (read_eq_ok.1 h)
    exact ⟨layered, spelled accounts ends⟩
  · intro e rest h
    obtain ⟨accounts, layered, ends⟩ := loneExpression_accounts (read_eq_ok.1 h)
    exact ⟨layered, spelled accounts ends⟩

/-- A block with a choice and an assignment in it is read and written out again. -/
theorem written_of_read_block :
    let name (s : String) : Token := ⟨.identifier, s, .nil, 1⟩
    let word (kind : TokenKind) : Token := ⟨kind, kind.name, .nil, 1⟩
    let text : Token := ⟨.string, "s", .string "s", 1⟩
    let tokens := [word .leftBrace, name "a", word .equal, name "b", word .question, text,
      word .colon, word .minus, name "c", word .semicolon, word .rightBrace, word .endOfText]
    let tree : List Stmt := [.block [.expression (.assign (.ofToken (name "a"))
      (.conditional (.variable (.ofToken (name "b"))) (.literal (.string "s"))
        (.unary (word .minus) (.variable (.ofToken (name "c"))))))]]
    program tokens = (.ok tree, [word .endOfText]) ∧ Stmt.AllLayered tree ∧
      ∃ taken, CutAtEnd tokens taken [word .endOfText] ∧
        Spelled (Stmt.rowWords tree) taken := by
  intro name word text tokens tree
  have plain : Plain tokens := by
    simp [Plain, CarriesValue, tokens, word, name, text]
  have read : program tokens = (.ok tree, [word .endOfText]) := rfl
  exact ⟨read, (written_of_read tokens plain).1 tree _ read⟩

end TreeWalk.Grammar
