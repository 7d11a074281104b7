import TreeWalk.Proofs.Grammar.Accounting.Expressions

/-!
# Functions and statements account for their tokens

What the productions that hold statements give one step deeper, if every production
gives what it should at a depth.

## Implementation notes

A counting loop gives a tree of blocks and a loop whose words are not those of its text.
For it only the tokens that its parts have kept are accounted for.
-/

namespace TreeWalk.Grammar

variable {ts tl mid rest : List Token} {ws ws' : List Word} {d : Nat} {t : Token}

theorem lambda_accounts (ih : Accounted d) {keyword paren brace : Token} {params : List Token}
    {body : List Stmt} {mid' : List Token} (isFun : keyword.kind = .funWord)
    (isOpening : paren.kind = .leftParen) (ps : (parameters d).Gives mid params (brace :: mid'))
    (isBrace : brace.kind = .leftBrace) (block : (blockRest d).Gives mid' body rest) :
    ReadExpr (.lambda keyword params body) 10 (keyword :: paren :: mid) rest := by
  obtain ⟨named, areParameters⟩ := parameters_accounts ps
  obtain ⟨rows, layered⟩ := ih.blockRest block
  have accounts := named.append (Accounts.mark isBrace (by decide) rows)
  simp only [List.append_assoc, List.cons_append, List.nil_append] at accounts
  refine .ofTight (.kept (by simp [isFun]) (.mark isOpening (by decide) accounts)) ?_ le_rfl
    (by decide)
  exact ⟨isFun, areParameters, layered⟩

theorem literal_accounts {value : Scalar} (noEnd : t.kind ≠ .endOfText)
    (same : CarriesValue t → (Word.constant value).Spells t) :
    ReadExpr (.literal value) 10 (t :: rest) rest :=
  .ofTight (.constant noEnd same) trivial le_rfl (by decide)

theorem primary_accounts (ih : Accounted d) {e : Expr} (h : (primary (d + 1)).Gives ts e rest) :
    ReadExpr e 10 ts rest := by
  obtain ⟨t, tl, rfl, made⟩ := primary_gives.1 h
  split at made
  next isFalse =>
    obtain ⟨rfl, rfl⟩ := made
    exact literal_accounts (by simp [isFalse]) fun _ => by
      simp [Word.Spells, Scalar.tokenKind, isFalse]
  next isTrue =>
    obtain ⟨rfl, rfl⟩ := made
    exact literal_accounts (by simp [isTrue]) fun _ => by
      simp [Word.Spells, Scalar.tokenKind, isTrue]
  next isNil =>
    obtain ⟨rfl, rfl⟩ := made
    exact literal_accounts (by simp [isNil]) fun _ => by
      simp [Word.Spells, Scalar.tokenKind, isNil]
  next isNumber =>
    obtain ⟨rfl, rfl⟩ := made
    refine literal_accounts (by simp [isNumber]) fun carries => ?_
    obtain ⟨x, value⟩ := carries.1 isNumber
    simp [Word.Spells, Scalar.tokenKind, isNumber, value]
  next isString =>
    obtain ⟨rfl, rfl⟩ := made
    refine literal_accounts (by simp [isString]) fun carries => ?_
    obtain ⟨s, value⟩ := carries.2 isString
    simp [Word.Spells, Scalar.tokenKind, isString, value]
  next isOpening =>
    obtain ⟨inner, close, within, isClosing, rfl⟩ := made
    obtain ⟨inner, -⟩ := ih.expression within
    refine .ofTight ?_ inner.layered le_rfl (by decide)
    exact .mark isOpening (by decide) (inner.accounts.append (.mark isClosing (by decide) .nil))
  next isSuper =>
    obtain ⟨dot, method, rfl, isDot, isName, rfl⟩ := made
    refine .ofTight ?_ ⟨⟨isSuper, rfl⟩, isName⟩ le_rfl (by decide)
    exact .kept (by simp [Reference.ofToken, isSuper])
      (.mark isDot (by decide) (.kept (by simp [isName]) .nil))
  next isThis =>
    obtain ⟨rfl, rfl⟩ := made
    exact .ofTight (.kept (by simp [Reference.ofToken, isThis]) .nil) ⟨isThis, rfl⟩ le_rfl
      (by decide)
  next isFun =>
    obtain ⟨paren, params, brace, body, mid, mid', rfl, isOpening, ps, isBrace, block, rfl⟩ := made
    exact lambda_accounts ih isFun isOpening ps isBrace block
  next isName =>
    obtain ⟨rfl, rfl⟩ := made
    exact .ofTight (.kept (by simp [Reference.ofToken, isName]) .nil) ⟨isName, rfl⟩ le_rfl
      (by decide)
  next => exact made.elim

theorem routine_accounts (ih : Accounted d) {kind : Routine} {f : FunctionDecl}
    (h : (routine (d + 1) kind).Gives ts f rest) : Accounts f.words ts rest ∧ f.Layered := by
  obtain ⟨name, paren, params, brace, body, mid, mid', rfl, isName, isOpening, ps, isBrace,
    block, rfl⟩ := routine_gives.1 h
  obtain ⟨named, areParameters⟩ := parameters_accounts ps
  obtain ⟨rows, layered⟩ := ih.blockRest block
  have accounts := named.append (Accounts.mark isBrace (by decide) rows)
  simp only [List.append_assoc, List.cons_append, List.nil_append] at accounts
  exact ⟨.kept (by simp [isName]) (.mark isOpening (by decide) accounts),
    isName, areParameters, layered⟩

theorem methods_accounts (ih : Accounted d) {found : List FunctionDecl}
    (h : (methods (d + 1)).Gives ts found rest) :
    Accounts (FunctionDecl.rowWords found) ts rest ∧ FunctionDecl.AllLayered found := by
  obtain ⟨t, tl, rfl, made⟩ := methods_gives.1 h
  split at made
  next =>
    obtain ⟨rfl, rfl⟩ := made
    exact ⟨.nil, trivial⟩
  next =>
    obtain ⟨method, mid, others, first, more, rfl⟩ := made
    obtain ⟨accounts, layered⟩ := ih.routine first
    obtain ⟨accounts', layered'⟩ := ih.methods more
    exact ⟨accounts.append accounts', layered, layered'⟩

theorem classRest_accounts (ih : Accounted d) {s : Stmt}
    (h : (classRest (d + 1)).Gives ts s rest) :
    (∃ ws, s.words = .mark .classWord :: ws ∧ Accounts ws ts rest) ∧ s.Layered := by
  obtain ⟨name, tl, superclass, brace, mid, members, close, rfl, isName, extending, isBrace, more,
    isClosing, rfl⟩ := classRest_gives.1 h
  obtain ⟨accounts, layered⟩ := ih.methods more
  have body := Accounts.mark isBrace (by decide)
    (accounts.append (.mark isClosing (by decide) .nil))
  obtain ⟨-, rfl, cut⟩ | ⟨less, tl, reference, rfl, isLess, named, rfl⟩ :=
    following_gives.1 extending
  · exact ⟨⟨_, rfl, .kept (by simp [isName]) (cut ▸ body)⟩, isName, layered⟩
  · obtain ⟨superclass, taken, rfl⟩ := map_gives.1 named
    obtain ⟨rfl, isSuperclass⟩ := require_gives.1 taken
    have isSuperclass : superclass.kind = .identifier := isSuperclass
    refine ⟨⟨_, rfl, .kept (by simp [isName]) (.mark isLess (by decide) ?_)⟩, isName,
      ⟨isSuperclass, rfl⟩, layered⟩
    exact .kept (by simp [Reference.ofToken, isSuperclass]) body

theorem ReadStmt.ofRow {s : Stmt} (h : Accounts s.words ts rest) (layered : s.Layered)
    (plain : s.declared? = none) (closed : s.endsShort = false) : ReadStmt s ts rest :=
  ⟨h, layered, plain, by simp [closed]⟩

theorem varRest_accounts (ih : Accounted d) {s : Stmt} (h : (varRest (d + 1)).Gives ts s rest) :
    (∃ ws, s.words = .mark .varWord :: ws ∧ Accounts ws ts rest) ∧ s.Layered := by
  obtain ⟨name, tl, initial, semicolon, rfl, isName, setting, isSemicolon, rfl⟩ :=
    varRest_gives.1 h
  have ending : Accounts [.mark .semicolon] (semicolon :: rest) rest :=
    .mark isSemicolon (by decide) .nil
  obtain ⟨-, rfl, cut⟩ | ⟨equal, tl, value, rfl, isEqual, inner, rfl⟩ :=
    following_gives.1 setting
  · exact ⟨⟨_, rfl, .kept (by simp [isName]) (cut ▸ ending)⟩, isName⟩
  · obtain ⟨value, -⟩ := ih.expression inner
    exact ⟨⟨_, rfl, .kept (by simp [isName]) (.mark isEqual (by decide)
      (value.accounts.append ending))⟩, isName, value.layered⟩

theorem blockRest_accounts (ih : Accounted d) {body : List Stmt}
    (h : (blockRest (d + 1)).Gives ts body rest) :
    Accounts (Stmt.rowWords body ++ [.mark .rightBrace]) ts rest ∧ Stmt.AllLayered body := by
  obtain ⟨close, inner, isClosing⟩ := blockRest_gives.1 h
  obtain ⟨accounts, layered⟩ := ih.blockItems inner
  exact ⟨accounts.append (.mark isClosing (by decide) .nil), layered⟩

theorem blockItems_accounts (ih : Accounted d) {body : List Stmt}
    (h : (blockItems (d + 1)).Gives ts body rest) :
    Accounts (Stmt.rowWords body) ts rest ∧ Stmt.AllLayered body := by
  obtain ⟨t, tl, rfl, made⟩ := blockItems_gives.1 h
  split at made
  next =>
    obtain ⟨rfl, rfl⟩ := made
    exact ⟨.nil, trivial⟩
  next =>
    obtain ⟨item, mid, others, first, more, rfl⟩ := made
    obtain ⟨accounts, layered⟩ := ih.declaration first
    obtain ⟨accounts', layered'⟩ := ih.blockItems more
    exact ⟨accounts.append accounts', layered, layered'⟩

theorem declaration_accounts (ih : Accounted d) {s : Stmt}
    (h : (declaration (d + 1)).Gives ts s rest) : Accounts s.words ts rest ∧ s.Layered := by
  obtain ⟨t, tl, rfl, made⟩ := declaration_gives.1 h
  split at made
  next isClass =>
    obtain ⟨⟨ws, words, accounts⟩, layered⟩ := ih.classRest made
    exact ⟨words ▸ .mark isClass (by decide) accounts, layered⟩
  next isFun =>
    split at made
    next =>
      obtain ⟨f, made, rfl⟩ := made
      obtain ⟨accounts, layered⟩ := ih.routine made
      exact ⟨.mark isFun (by decide) accounts, layered⟩
    next => exact ⟨(ih.statement made).accounts, (ih.statement made).layered⟩
  next isVar =>
    obtain ⟨⟨ws, words, accounts⟩, layered⟩ := ih.varRest made
    exact ⟨words ▸ .mark isVar (by decide) accounts, layered⟩
  next => exact ⟨(ih.statement made).accounts, (ih.statement made).layered⟩

theorem expressionStatement_accounts (ih : Accounted d) {s : Stmt}
    (h : (expressionStatement (d + 1)).Gives ts s rest) : ReadStmt s ts rest := by
  obtain ⟨value, semicolon, inner, isSemicolon, rfl⟩ := expressionStatement_gives.1 h
  obtain ⟨value, -⟩ := ih.expression inner
  exact .ofRow (value.accounts.append (.mark isSemicolon (by decide) .nil)) value.layered rfl rfl

theorem ifRest_accounts (ih : Accounted d) {s : Stmt} (h : (ifRest (d + 1)).Gives ts s rest) :
    ∃ ws, s.words = .mark .ifWord :: ws ∧ Accounts ws ts rest ∧ s.Layered ∧
      s.declared? = none ∧ (s.endsShort → NextNot [.elseWord] rest) := by
  obtain ⟨paren, condition, close, consequent, alternative, mid, mid', mid'', rfl, isOpening,
    inner, isClosing, first, second, rfl⟩ := ifRest_gives.1 h
  obtain ⟨condition, -⟩ := ih.expression inner
  have consequent := ih.statement first
  obtain ⟨noElse, rfl, rfl⟩ | ⟨elseToken, tl, alternative, rfl, isElse, third, rfl⟩ :=
    following_gives.1 second
  · refine ⟨_, rfl, .mark isOpening (by decide) (condition.accounts.append
      (.mark isClosing (by decide) consequent.accounts)), ?_, rfl, fun _ => noElse⟩
    exact ⟨condition.layered, consequent.layered, consequent.plain⟩
  · have alternative := ih.statement third
    refine ⟨_, rfl, .mark isOpening (by decide) (condition.accounts.append
      (.mark isClosing (by decide) (consequent.accounts.append
        (.mark isElse (by decide) alternative.accounts)))), ?_, rfl, alternative.closed⟩
    -- a branch that ends short would have taken the alternative
    have long := Bool.eq_false_iff.2 fun short => by
      simpa [nextNot_cons, isElse] using consequent.closed short
    exact ⟨condition.layered, consequent.layered, consequent.plain, long, alternative.layered,
      alternative.plain⟩

theorem statement_accounts (ih : Accounted d) {s : Stmt}
    (h : (statement (d + 1)).Gives ts s rest) : ReadStmt s ts rest := by
  obtain ⟨t, tl, rfl, made⟩ := statement_gives.1 h
  split at made
  next isFor =>
    obtain ⟨covers, layered, plain, closed⟩ := ih.forRest made
    exact ⟨covers.accounts isFor, layered, plain, closed⟩
  next isIf =>
    obtain ⟨ws, words, accounts, layered, plain, closed⟩ := ih.ifRest made
    exact ⟨words ▸ .mark isIf (by decide) accounts, layered, plain, closed⟩
  next isPrint =>
    obtain ⟨value, semicolon, inner, isSemicolon, rfl⟩ := made
    obtain ⟨value, -⟩ := ih.expression inner
    exact .ofRow (.mark isPrint (by decide) (value.accounts.append
      (.mark isSemicolon (by decide) .nil))) value.layered rfl rfl
  next isReturn =>
    obtain ⟨value, semicolon, inner, isSemicolon, rfl⟩ := made
    have ending : Accounts [.mark .semicolon] (semicolon :: rest) rest :=
      .mark isSemicolon (by decide) .nil
    obtain ⟨_, _, rfl, inner⟩ := unlessNext_gives.1 inner
    split at inner
    next =>
      obtain ⟨rfl, cut⟩ := inner
      exact .ofRow (.kept (by simp [isReturn]) (cut ▸ ending)) isReturn rfl rfl
    next =>
      obtain ⟨value, within, rfl⟩ := map_gives.1 inner
      obtain ⟨value, -⟩ := ih.expression within
      exact .ofRow (.kept (by simp [isReturn]) (value.accounts.append ending))
        ⟨isReturn, value.layered⟩ rfl rfl
  next isWhile =>
    obtain ⟨paren, condition, close, body, mid, mid', rfl, isOpening, inner, isClosing, pass,
      rfl⟩ := made
    obtain ⟨condition, -⟩ := ih.expression inner
    have body := ih.statement pass
    exact ⟨.mark isWhile (by decide) (.mark isOpening (by decide) (condition.accounts.append
      (.mark isClosing (by decide) body.accounts))),
      ⟨condition.layered, body.layered, body.plain⟩, rfl, body.closed⟩
  next isBrace =>
    obtain ⟨body, block, rfl⟩ := made
    obtain ⟨accounts, layered⟩ := ih.blockRest block
    exact .ofRow (.mark isBrace (by decide) accounts) layered rfl rfl
  next => exact ih.expressionStatement made

/-- The tokens that the tree of a counting loop has kept are those of its parts. -/
theorem forLoop_kept {initial : Option Stmt} {condition increment : Option Expr} {body : Stmt}
    {t : Token} (h : .kept t ∈ (forLoop initial condition increment body).words) :
    .kept t ∈ (initial.map Stmt.words).getD [] ++ ((condition.map Expr.words).getD [] ++
      ((increment.map Expr.words).getD [] ++ body.words)) := by
  cases initial <;> cases condition <;> cases increment <;>
    simp_all [forLoop, Stmt.words, Stmt.rowWords, Expr.words] <;> grind

theorem forLoop_layered {initial : Option Stmt} {condition increment : Option Expr}
    {body : Stmt} (first : ∀ s ∈ initial, s.Layered) (second : ∀ e ∈ condition, e.Layered)
    (third : ∀ e ∈ increment, e.Layered) (pass : body.Layered) (plain : body.declared? = none) :
    (forLoop initial condition increment body).Layered ∧
      (forLoop initial condition increment body).declared? = none := by
  cases initial <;> cases condition <;> cases increment <;>
    simp_all [forLoop, Stmt.Layered, Stmt.AllLayered, Expr.Layered, Stmt.declared?]

theorem forLoop_endsShort {initial : Option Stmt} {condition increment : Option Expr}
    {body : Stmt} (h : (forLoop initial condition increment body).endsShort) :
    body.endsShort := by
  cases initial <;> cases increment <;> simp_all [forLoop, Stmt.endsShort]

theorem forInitial_accounts (ih : Accounted d) {initial : Option Stmt}
    (h : (forInitial (d + 1)).Gives ts initial rest) :
    Covers ((initial.map Stmt.words).getD []) ts rest ∧ ∀ s ∈ initial, s.Layered := by
  obtain ⟨t, tl, rfl, made⟩ := forInitial_gives.1 h
  split at made
  next isSemicolon =>
    obtain ⟨rfl, rfl⟩ := made
    exact ⟨.cons (by simp [isSemicolon]) Accounts.nil.covers, by simp⟩
  next isVar =>
    obtain ⟨s, made, rfl⟩ := made
    obtain ⟨⟨ws, words, accounts⟩, layered⟩ := ih.varRest made
    refine ⟨?_, by simpa using layered⟩
    rw [Option.map_some, Option.getD_some, words]
    exact (Accounts.mark isVar (by decide) accounts).covers
  next =>
    obtain ⟨s, made, rfl⟩ := made
    have first := ih.expressionStatement made
    exact ⟨first.accounts.covers, by simpa using first.layered⟩

/-- A clause of a counting loop that may be left out. -/
theorem clause_covers (ih : Accounted d) {kind : TokenKind} {clause : Option Expr}
    (h : (unlessNext kind none (some <$> expression d)).Gives ts clause rest) :
    Covers ((clause.map Expr.words).getD []) ts rest ∧ ∀ e ∈ clause, e.Layered := by
  obtain ⟨t, tl, rfl, made⟩ := unlessNext_gives.1 h
  split at made
  next =>
    obtain ⟨rfl, rfl⟩ := made
    exact ⟨Accounts.nil.covers, by simp⟩
  next =>
    obtain ⟨e, inner, rfl⟩ := map_gives.1 made
    obtain ⟨e, -⟩ := ih.expression inner
    exact ⟨e.accounts.covers, by simpa using e.layered⟩

theorem forRest_accounts (ih : Accounted d) {s : Stmt} (h : (forRest (d + 1)).Gives ts s rest) :
    Covers s.words ts rest ∧ s.Layered ∧ s.declared? = none ∧
      (s.endsShort → NextNot [.elseWord] rest) := by
  obtain ⟨initial, condition, increment, body, clauses, rfl⟩ := forRest_gives.1 h
  obtain ⟨paren, semicolon, close, mid, mid', mid'', mid''', rfl, isOpening, first, second,
    isSemicolon, third, isClosing, pass⟩ := clauses
  obtain ⟨covers, layered⟩ := ih.forInitial first
  obtain ⟨covers', layered'⟩ := clause_covers ih second
  obtain ⟨covers'', layered''⟩ := clause_covers ih third
  have body := ih.statement pass
  have whole := covers.append (covers'.append (.cons (by simp [isSemicolon])
    (covers''.append (.cons (by simp [isClosing]) body.accounts.covers))))
  obtain ⟨layered, plain⟩ :=
    forLoop_layered layered layered' layered'' body.layered body.plain
  exact ⟨.cons (by simp [isOpening]) (whole.mono fun _ => forLoop_kept), layered, plain,
    fun short => body.closed (forLoop_endsShort short)⟩

end TreeWalk.Grammar
