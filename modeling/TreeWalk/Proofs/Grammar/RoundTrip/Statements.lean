import TreeWalk.Proofs.Grammar.RoundTrip.Expressions

/-!
# Statements are readable

One lemma for each kind of statement: it is readable if its parts are. A statement may
stand where a declaration may stand, but not the other way round.
-/

namespace TreeWalk.Grammar

open Filter

variable {ts tl mid rest : List Token} {e : Expr}

theorem names_reads {name : Token} {others : List Token}
    (areNames : ∀ other ∈ name :: others, other.kind = .identifier)
    (spelled : Spelled (nameWords (name :: others)) ts) (noComma : NextNot [.comma] rest) :
    Reads names (ts ++ rest) (name :: others) rest := by
  have isName := areNames name (by simp)
  induction others generalizing name ts with
  | nil =>
    obtain ⟨t, tl, rfl, rfl, more⟩ := spelled_cons.1 spelled
    obtain rfl := spelled_nil.1 more
    exact reads_of_succ (.of_forall fun d =>
      names_gives.2 ⟨t, rest, rfl, isName, .inl ⟨noComma, rfl, rfl⟩⟩)
  | cons other others ih =>
    obtain ⟨t, tl, rfl, rfl, more⟩ := spelled_cons.1 spelled
    obtain ⟨comma, tl, rfl, isComma, more⟩ := spelled_cons.1 more
    have more := ih (fun other inside => areNames other (by simp [inside])) more
      (areNames other (by simp))
    refine reads_of_succ (more.mono fun d more => ?_)
    exact names_gives.2 ⟨t, comma :: (tl ++ rest), rfl, isName,
      .inr ⟨comma, tl ++ rest, other :: others, rfl, isComma, more, rfl⟩⟩

theorem parameters_reads {params : List Token} {close : Token} (h : AreParameters params)
    (spelled : Spelled (nameWords params) ts) (isClosing : close.kind = .rightParen) :
    Reads parameters (ts ++ close :: rest) params rest := by
  obtain ⟨few, areNames⟩ := h
  cases params with
  | nil =>
    obtain rfl := spelled_nil.1 spelled
    refine .of_forall fun d => parameters_gives.2 ⟨close, isClosing, few, ?_⟩
    exact unlessNext_gives.2 ⟨close, rest, rfl, by simp [isClosing]⟩
  | cons name others =>
    have more := names_reads areNames spelled
      (nextNot_cons.2 (by simp [isClosing]) : NextNot [.comma] (close :: rest))
    obtain ⟨t, tl, rfl, rfl, -⟩ := spelled_cons.1 spelled
    refine more.mono fun d more => parameters_gives.2 ⟨close, isClosing, few, ?_⟩
    refine unlessNext_gives.2 ⟨t, tl ++ close :: rest, rfl, ?_⟩
    rwa [if_neg (by simp [areNames t (by simp)])]

theorem Readable.lambda {keyword opening closing brace : Token} {params : List Token}
    {body : List Stmt} (isFun : keyword.kind = .funWord) (isOpening : opening.kind = .leftParen)
    (areParameters : AreParameters params) (spelled : Spelled (nameWords params) ts)
    (isClosing : closing.kind = .rightParen) (isBrace : brace.kind = .leftBrace)
    (block : ∀ rest, Reads blockRest (tl ++ rest) body rest) :
    Readable (.lambda keyword params body)
      (keyword :: opening :: (ts ++ closing :: brace :: tl)) := by
  refine .ofPrimary rfl ⟨keyword, _, rfl, by simp [isFun, tightStarts],
    fun _ => ⟨opening, _, rfl, isOpening⟩⟩ fun rest => reads_of_succ ?_
  have ps : Reads parameters (ts ++ closing :: brace :: (tl ++ rest)) params
      (brace :: (tl ++ rest)) := parameters_reads areParameters spelled isClosing
  filter_upwards [ps, block rest] with d ps block
  refine primary_gives.2 ⟨keyword, opening :: (ts ++ closing :: brace :: (tl ++ rest)),
    by simp, ?_⟩
  simp only [isFun]
  exact ⟨opening, params, brace, body, _, tl ++ rest, rfl, isOpening, ps, isBrace, block, rfl⟩

theorem routine_reads {kind : Routine} {name opening closing brace : Token} {params : List Token}
    {body : List Stmt} (isName : name.kind = .identifier) (isOpening : opening.kind = .leftParen)
    (areParameters : AreParameters params) (spelled : Spelled (nameWords params) ts)
    (isClosing : closing.kind = .rightParen) (isBrace : brace.kind = .leftBrace)
    (block : ∀ rest, Reads blockRest (tl ++ rest) body rest) :
    Reads (routine · kind) (name :: opening :: (ts ++ closing :: brace :: tl) ++ rest)
      (.mk name params body) rest := by
  have ps : Reads parameters (ts ++ closing :: brace :: (tl ++ rest)) params
      (brace :: (tl ++ rest)) := parameters_reads areParameters spelled isClosing
  refine reads_of_succ ?_
  filter_upwards [ps, block rest] with d ps block
  exact routine_gives.2 ⟨name, opening, params, brace, body, _, tl ++ rest, by simp, isName,
    isOpening, ps, isBrace, block, rfl⟩

/-- What follows a statement does not belong to it. -/
def Follows (s : Stmt) (rest : List Token) : Prop :=
  ∃ t tl, rest = t :: tl ∧ (s.endsShort → t.kind ≠ .elseWord)

/-- Tokens are read as a statement wherever it may stand. -/
structure ReadableStmt (s : Stmt) (ts : List Token) : Prop where
  plain {rest : List Token} : s.declared? = none → Follows s rest →
    Reads statement (ts ++ rest) s rest
  declared {rest : List Token} : Follows s rest → Reads declaration (ts ++ rest) s rest

/-- The kinds of token that a statement that declares nothing can begin with. -/
def plainStarts : List TokenKind :=
  [.ifWord, .printWord, .returnWord, .whileWord, .leftBrace] ++ expressionStarts

/-- A statement that declares nothing is read as a statement also where a declaration may
stand. -/
theorem ReadableStmt.ofPlain {s : Stmt} (begins : BeginsWith plainStarts ts)
    (own : ∀ rest, Follows s rest → Reads statement (ts ++ rest) s rest) : ReadableStmt s ts := by
  refine ⟨fun _ => own _, fun {rest} follows => reads_of_succ ?_⟩
  obtain ⟨t, tl, cut, inside, second⟩ : BeginsWith plainStarts (ts ++ rest) := begins.append
  refine (own rest follows).mono fun d h => declaration_gives.2 ⟨t, tl, cut, ?_⟩
  split
  next isClass => simp [isClass, plainStarts, expressionStarts, tightStarts] at inside
  next isFun =>
    obtain ⟨t', tl', rfl, isOpening⟩ := second isFun
    simpa [isOpening] using h
  next isVar => simp [isVar, plainStarts, expressionStarts, tightStarts] at inside
  next => exact h

theorem ReadableStmt.ofKeyword {s : Stmt} {t : Token} (inside : t.kind ∈ plainStarts)
    (noFun : t.kind ≠ .funWord)
    (own : ∀ rest, Follows s rest → Reads statement (t :: (ts ++ rest)) s rest) :
    ReadableStmt s (t :: ts) :=
  .ofPlain (beginsWith_cons inside noFun) own

/-- A declaration is read only where declarations may stand. -/
theorem ReadableStmt.ofDeclaration {s : Stmt} {name : Token} (h : s.declared? = some name)
    (own : ∀ rest, Reads declaration (ts ++ rest) s rest) : ReadableStmt s ts :=
  ⟨fun plain => absurd (h.symm.trans plain) nofun, fun _ => own _⟩

theorem stops_semicolon {n : Nat} {t : Token} (h : t.kind = .semicolon) : Stops n (t :: tl) :=
  stops_cons (by simp [h, joins, Level.ofKind?])

theorem stops_rightParen {n : Nat} {t : Token} (h : t.kind = .rightParen) : Stops n (t :: tl) :=
  stops_cons (by simp [h, joins, Level.ofKind?])

/-- A whole expression is read up to a token that joins nothing. -/
theorem Readable.whole (h : Readable e ts) (stops : Stops 0 rest) :
    Reads expression (ts ++ rest) e rest :=
  h.onRung (Nat.zero_le _) (by decide) stops fun _ => stops

theorem ReadableStmt.expression {semicolon : Token} (h : Readable e ts)
    (begins : BeginsWith expressionStarts ts) (isSemicolon : semicolon.kind = .semicolon) :
    ReadableStmt (.expression e) (ts ++ [semicolon]) := by
  have begins' : BeginsWith plainStarts ts := by
    obtain ⟨t, tl, cut, inside, second⟩ := begins
    exact ⟨t, tl, cut, by simp [plainStarts, inside], second⟩
  refine .ofPlain begins'.append fun rest _ => ?_
  have whole : Reads Grammar.expression (ts ++ semicolon :: rest) e (semicolon :: rest) :=
    h.whole (stops_semicolon isSemicolon)
  have statement : Reads expressionStatement (ts ++ semicolon :: rest) (.expression e) rest :=
    reads_of_succ (whole.mono fun d whole =>
      expressionStatement_gives.2 ⟨e, semicolon, whole, isSemicolon, rfl⟩)
  obtain ⟨t, tl, rfl, inside, -⟩ := begins
  refine reads_of_succ (statement.mono fun d h =>
    statement_gives.2 ⟨t, tl ++ semicolon :: rest, by simp, ?_⟩)
  simp only [expressionStarts, tightStarts, List.mem_cons, List.not_mem_nil, or_false] at inside
  split <;> simp_all

theorem ReadableStmt.print {keyword semicolon : Token} (h : Readable e ts)
    (isPrint : keyword.kind = .printWord) (isSemicolon : semicolon.kind = .semicolon) :
    ReadableStmt (.print e) (keyword :: (ts ++ [semicolon])) := by
  refine .ofKeyword (by simp [isPrint, plainStarts]) (by simp [isPrint]) fun rest _ => ?_
  have whole : Reads Grammar.expression (ts ++ semicolon :: rest) e (semicolon :: rest) :=
    h.whole (stops_semicolon isSemicolon)
  refine reads_of_succ (whole.mono fun d whole =>
    statement_gives.2 ⟨keyword, ts ++ semicolon :: rest, by simp, ?_⟩)
  simp only [isPrint]
  exact ⟨e, semicolon, whole, isSemicolon, rfl⟩

theorem ReadableStmt.varDecl_none {keyword name semicolon : Token}
    (isVar : keyword.kind = .varWord) (isName : name.kind = .identifier)
    (isSemicolon : semicolon.kind = .semicolon) :
    ReadableStmt (.varDecl name none) [keyword, name, semicolon] := by
  have var (rest : List Token) :
      Reads varRest (name :: semicolon :: rest) (.varDecl name none) rest := by
    refine reads_of_succ (.of_forall fun d => varRest_gives.2 ⟨name, semicolon :: rest, none,
      semicolon, rfl, isName, following_gives.2 (.inl ⟨?_, rfl, rfl⟩), isSemicolon, rfl⟩)
    exact nextNot_cons.2 (by simp [isSemicolon])
  refine .ofDeclaration rfl fun rest => reads_of_succ ((var rest).mono fun d h =>
    declaration_gives.2 ⟨keyword, name :: semicolon :: rest, rfl, ?_⟩)
  simpa only [isVar] using h

theorem ReadableStmt.varDecl_some {keyword name equals semicolon : Token} (h : Readable e ts)
    (isVar : keyword.kind = .varWord) (isName : name.kind = .identifier)
    (isEqual : equals.kind = .equal) (isSemicolon : semicolon.kind = .semicolon) :
    ReadableStmt (.varDecl name (some e)) (keyword :: name :: equals :: (ts ++ [semicolon])) := by
  have var (rest : List Token) : Reads varRest (name :: equals :: (ts ++ semicolon :: rest))
      (.varDecl name (some e)) rest := by
    have whole : Reads Grammar.expression (ts ++ semicolon :: rest) e (semicolon :: rest) :=
      h.whole (stops_semicolon isSemicolon)
    refine reads_of_succ (whole.mono fun d whole => varRest_gives.2 ⟨name, _, some e, semicolon,
      rfl, isName, following_gives.2 (.inr ⟨equals, _, e, rfl, isEqual, whole, rfl⟩),
      isSemicolon, rfl⟩)
  refine .ofDeclaration rfl fun rest => reads_of_succ ((var rest).mono fun d h =>
    declaration_gives.2 ⟨keyword, name :: equals :: (ts ++ semicolon :: rest), by simp, ?_⟩)
  simpa only [isVar] using h

theorem ReadableStmt.block {brace : Token} {body : List Stmt} (isBrace : brace.kind = .leftBrace)
    (block : ∀ rest, Reads blockRest (ts ++ rest) body rest) :
    ReadableStmt (.block body) (brace :: ts) := by
  refine .ofKeyword (by simp [isBrace, plainStarts]) (by simp [isBrace]) fun rest _ =>
    reads_of_succ ((block rest).mono fun d h => statement_gives.2 ⟨brace, ts ++ rest, rfl, ?_⟩)
  simp only [isBrace]
  exact ⟨body, h, rfl⟩

theorem ReadableStmt.loop {keyword opening closing : Token} {body : Stmt} (h : Readable e ts)
    (h' : ReadableStmt body tl) (isWhile : keyword.kind = .whileWord)
    (isOpening : opening.kind = .leftParen) (isClosing : closing.kind = .rightParen)
    (plain : body.declared? = none) :
    ReadableStmt (.loop e body) (keyword :: opening :: (ts ++ closing :: tl)) := by
  refine .ofKeyword (by simp [isWhile, plainStarts]) (by simp [isWhile]) fun rest follows => ?_
  have condition : Reads Grammar.expression (ts ++ closing :: (tl ++ rest)) e
      (closing :: (tl ++ rest)) := h.whole (stops_rightParen isClosing)
  refine reads_of_succ ?_
  filter_upwards [condition, h'.plain plain follows] with d condition pass
  refine statement_gives.2 ⟨keyword, opening :: (ts ++ closing :: (tl ++ rest)), by simp, ?_⟩
  simp only [isWhile]
  exact ⟨opening, e, closing, body, _, tl ++ rest, rfl, isOpening, condition, isClosing, pass, rfl⟩

/-- A branch whose alternative, if there is one, is read behind its first part. -/
theorem branch_reads {keyword opening closing : Token} {consequent : Stmt}
    {alternative : Option Stmt} (h : Readable e ts) (h' : ReadableStmt consequent tl)
    (isIf : keyword.kind = .ifWord) (isOpening : opening.kind = .leftParen)
    (isClosing : closing.kind = .rightParen) (plain : consequent.declared? = none)
    (follows : Follows consequent mid)
    (second : Reads (fun d => following .elseWord (statement d)) mid alternative rest) :
    Reads statement (keyword :: opening :: (ts ++ closing :: (tl ++ mid)))
      (.branch e consequent alternative) rest := by
  have condition : Reads Grammar.expression (ts ++ closing :: (tl ++ mid)) e
      (closing :: (tl ++ mid)) := h.whole (stops_rightParen isClosing)
  have tail : Reads ifRest (opening :: (ts ++ closing :: (tl ++ mid)))
      (.branch e consequent alternative) rest := by
    refine reads_of_succ ?_
    filter_upwards [condition, h'.plain plain follows, second] with d condition first second
    exact ifRest_gives.2 ⟨opening, e, closing, consequent, alternative, _, _, _, rfl, isOpening,
      condition, isClosing, first, second, rfl⟩
  refine reads_of_succ (tail.mono fun d tail => statement_gives.2 ⟨keyword, _, rfl, ?_⟩)
  simpa only [isIf] using tail

theorem ReadableStmt.branch_none {keyword opening closing : Token} {consequent : Stmt}
    (h : Readable e ts) (h' : ReadableStmt consequent tl) (isIf : keyword.kind = .ifWord)
    (isOpening : opening.kind = .leftParen) (isClosing : closing.kind = .rightParen)
    (plain : consequent.declared? = none) :
    ReadableStmt (.branch e consequent none) (keyword :: opening :: (ts ++ closing :: tl)) := by
  refine .ofKeyword (by simp [isIf, plainStarts]) (by simp [isIf]) fun rest follows => ?_
  obtain ⟨t, tl', rfl, noElse⟩ := follows
  have second : Reads (fun d => following .elseWord (statement d)) (t :: tl') none (t :: tl') :=
    .of_forall fun d => following_gives.2
      (.inl ⟨nextNot_cons.2 (by simpa using noElse rfl), rfl, rfl⟩)
  simpa using branch_reads h h' isIf isOpening isClosing plain ⟨t, tl', rfl, fun _ => noElse rfl⟩
    second

theorem ReadableStmt.branch_some {keyword opening closing elseToken : Token}
    {consequent alternative : Stmt} {tl' : List Token} (h : Readable e ts)
    (h' : ReadableStmt consequent tl) (h'' : ReadableStmt alternative tl')
    (isIf : keyword.kind = .ifWord) (isOpening : opening.kind = .leftParen)
    (isClosing : closing.kind = .rightParen) (isElse : elseToken.kind = .elseWord)
    (plain : consequent.declared? = none) (long : consequent.endsShort = false)
    (plain' : alternative.declared? = none) :
    ReadableStmt (.branch e consequent (some alternative))
      (keyword :: opening :: (ts ++ closing :: (tl ++ elseToken :: tl'))) := by
  refine .ofKeyword (by simp [isIf, plainStarts]) (by simp [isIf]) fun rest follows => ?_
  have second : Reads (fun d => following .elseWord (statement d)) (elseToken :: (tl' ++ rest))
      (some alternative) rest :=
    (h''.plain plain' follows).mono fun d third => following_gives.2
      (.inr ⟨elseToken, tl' ++ rest, alternative, rfl, isElse, third, rfl⟩)
  simpa using branch_reads h h' isIf isOpening isClosing plain
    ⟨elseToken, tl' ++ rest, rfl, by simp [long]⟩ second

theorem returns_reads {keyword semicolon : Token} {value : Option Expr}
    (isReturn : keyword.kind = .returnWord) (isSemicolon : semicolon.kind = .semicolon)
    (h : Reads (fun d => unlessNext .semicolon none (some <$> expression d)) ts value
      (semicolon :: rest)) : Reads statement (keyword :: ts) (.returns keyword value) rest := by
  refine reads_of_succ (h.mono fun d h => statement_gives.2 ⟨keyword, ts, rfl, ?_⟩)
  simp only [isReturn]
  exact ⟨value, semicolon, h, isSemicolon, rfl⟩

theorem ReadableStmt.returns_none {keyword semicolon : Token}
    (isReturn : keyword.kind = .returnWord) (isSemicolon : semicolon.kind = .semicolon) :
    ReadableStmt (.returns keyword none) [keyword, semicolon] :=
  .ofKeyword (by simp [isReturn, plainStarts]) (by simp [isReturn]) fun rest _ =>
    returns_reads isReturn isSemicolon (.of_forall fun d =>
      unlessNext_gives.2 ⟨semicolon, rest, rfl, by simp [isSemicolon]⟩)

theorem ReadableStmt.returns_some {keyword semicolon : Token} (h : Readable e ts)
    (begins : BeginsWith expressionStarts ts) (isReturn : keyword.kind = .returnWord)
    (isSemicolon : semicolon.kind = .semicolon) :
    ReadableStmt (.returns keyword (some e)) (keyword :: (ts ++ [semicolon])) := by
  refine .ofKeyword (by simp [isReturn, plainStarts]) (by simp [isReturn]) fun rest _ => ?_
  have whole : Reads Grammar.expression (ts ++ semicolon :: rest) e (semicolon :: rest) :=
    h.whole (stops_semicolon isSemicolon)
  rw [List.append_assoc]
  obtain ⟨t, tl, rfl, inside, -⟩ := begins
  refine returns_reads isReturn isSemicolon (whole.mono fun d whole =>
    unlessNext_gives.2 ⟨t, tl ++ semicolon :: rest, rfl, ?_⟩)
  rw [if_neg fun isEnd => by simp [isEnd, expressionStarts, tightStarts] at inside]
  exact map_gives.2 ⟨e, whole, rfl⟩

theorem Stmt.first_token {s : Stmt} (layered : s.Layered) (spelled : Spelled s.words ts) :
    ∃ t tl, ts = t :: tl ∧ t.kind ∈ statementStarts := by
  obtain ⟨w, ws, words, inside⟩ := s.first_word layered
  rw [words] at spelled
  obtain ⟨t, tl, rfl, isWord, -⟩ := spelled_cons.1 spelled
  exact ⟨t, tl, rfl, isWord.kind_eq ▸ inside⟩

/-- A row of statements can follow every statement. -/
theorem row_follows {s : Stmt} {body : List Stmt} {t : Token} (rest : List Token)
    (layered : Stmt.AllLayered body)
    (spelled : Spelled (Stmt.rowWords body) ts) (noElse : t.kind ≠ .elseWord) :
    Follows s (ts ++ t :: rest) := by
  cases body with
  | nil =>
    obtain rfl := spelled_nil.1 spelled
    exact ⟨t, rest, rfl, fun _ => noElse⟩
  | cons first others =>
    obtain ⟨ts, tl, rfl, head, -⟩ := spelled_append.1 spelled
    obtain ⟨t', tl', rfl, inside⟩ := Stmt.first_token layered.1 head
    refine ⟨t', tl' ++ tl ++ t :: rest, by simp, fun _ isElse => ?_⟩
    simp [isElse, statementStarts, expressionStarts, tightStarts] at inside

theorem blockItems_reads {body : List Stmt} {close : Token} (rest : List Token)
    (layered : Stmt.AllLayered body)
    (all : ∀ s ∈ body, ∀ ts, Spelled s.words ts → ReadableStmt s ts)
    (spelled : Spelled (Stmt.rowWords body) ts) (isClosing : close.kind = .rightBrace) :
    Reads blockItems (ts ++ close :: rest) body (close :: rest) := by
  induction body generalizing ts with
  | nil =>
    obtain rfl := spelled_nil.1 spelled
    exact reads_of_succ (.of_forall fun d =>
      blockItems_gives.2 ⟨close, rest, rfl, by simp [isClosing]⟩)
  | cons item others ih =>
    obtain ⟨ts, tl, rfl, first, more⟩ := spelled_append.1 spelled
    have head := (all item (by simp) ts first).declared
      (row_follows rest layered.2 more (by simp [isClosing] : close.kind ≠ .elseWord))
    have tail := ih layered.2 (fun s inside => all s (by simp [inside])) more
    obtain ⟨t, tl', rfl, inside⟩ := Stmt.first_token layered.1 first
    refine reads_of_succ ?_
    filter_upwards [head, tail] with d head tail
    refine blockItems_gives.2 ⟨t, tl' ++ (tl ++ close :: rest), by simp, ?_⟩
    rw [if_neg fun ends => by
      obtain isEnd | isEnd := ends <;>
        simp [isEnd, statementStarts, expressionStarts, tightStarts] at inside]
    exact ⟨item, _, others, by simpa using head, tail, rfl⟩

theorem blockRest_reads {body : List Stmt} (layered : Stmt.AllLayered body)
    (all : ∀ s ∈ body, ∀ ts, Spelled s.words ts → ReadableStmt s ts)
    (spelled : Spelled (Stmt.rowWords body ++ [.mark .rightBrace]) ts) (rest : List Token) :
    Reads blockRest (ts ++ rest) body rest := by
  obtain ⟨ts, tl, rfl, row, last⟩ := spelled_append.1 spelled
  obtain ⟨close, _, rfl, isClosing, last⟩ := spelled_cons.1 last
  obtain rfl := spelled_nil.1 last
  have items := blockItems_reads rest layered all row isClosing
  refine reads_of_succ (items.mono fun d items => blockRest_gives.2 ⟨close, ?_, isClosing⟩)
  simpa using items

theorem methods_reads {members : List FunctionDecl} {close : Token} (rest : List Token)
    (layered : FunctionDecl.AllLayered members)
    (all : ∀ f ∈ members, ∀ ts rest, Spelled f.words ts →
      Reads (routine · .method) (ts ++ rest) f rest)
    (spelled : Spelled (FunctionDecl.rowWords members) ts) (isClosing : close.kind = .rightBrace) :
    Reads methods (ts ++ close :: rest) members (close :: rest) := by
  induction members generalizing ts with
  | nil =>
    obtain rfl := spelled_nil.1 spelled
    exact reads_of_succ (.of_forall fun d =>
      methods_gives.2 ⟨close, rest, rfl, by simp [isClosing]⟩)
  | cons method others ih =>
    obtain ⟨ts, tl, rfl, first, more⟩ := spelled_append.1 spelled
    have head := all method (by simp) ts (tl ++ close :: rest) first
    have tail := ih layered.2 (fun f inside => all f (by simp [inside])) more
    obtain ⟨name, params, body⟩ := method
    obtain ⟨t, tl', rfl, rfl, -⟩ := spelled_cons.1 first
    have isName : t.kind = .identifier := layered.1.1
    refine reads_of_succ ?_
    filter_upwards [head, tail] with d head tail
    refine methods_gives.2 ⟨t, tl' ++ (tl ++ close :: rest), by simp, ?_⟩
    rw [if_neg (by simp [isName])]
    exact ⟨_, _, others, by simpa using head, tail, rfl⟩

/-- A class whose superclass, if there is one, is read behind its name. -/
theorem class_reads (ts : List Token) {keyword name brace : Token} {superclass : Option Reference}
    {members : List FunctionDecl} (isClass : keyword.kind = .classWord)
    (isName : name.kind = .identifier) (isBrace : brace.kind = .leftBrace)
    (layered : FunctionDecl.AllLayered members)
    (all : ∀ f ∈ members, ∀ ts rest, Spelled f.words ts →
      Reads (routine · .method) (ts ++ rest) f rest)
    (spelled : Spelled (FunctionDecl.rowWords members ++ [.mark .rightBrace]) tl)
    (extending : ∀ rest, (following .less (Reference.ofToken <$> require .superclassName)).Gives
      (ts ++ brace :: rest) superclass (brace :: rest)) :
    ReadableStmt (.classDecl name superclass members) (keyword :: name :: (ts ++ brace :: tl)) := by
  obtain ⟨tl, _, rfl, row, last⟩ := spelled_append.1 spelled
  obtain ⟨close, _, rfl, isClosing, last⟩ := spelled_cons.1 last
  obtain rfl := spelled_nil.1 last
  refine .ofDeclaration rfl fun rest => ?_
  have members := methods_reads rest layered all row isClosing
  have tail : Reads classRest (name :: (ts ++ brace :: (tl ++ close :: rest)))
      (.classDecl name superclass _) rest :=
    reads_of_succ (members.mono fun d members => classRest_gives.2 ⟨name, _, superclass, brace, _,
      _, close, rfl, isName, extending _, isBrace, members, isClosing, rfl⟩)
  refine reads_of_succ (tail.mono fun d tail => declaration_gives.2 ⟨keyword, _, rfl, ?_⟩)
  simpa [isClass] using tail

theorem ReadableStmt.functionDecl {keyword : Token} {function : FunctionDecl}
    (isFun : keyword.kind = .funWord) (layered : function.Layered)
    (spelled : Spelled function.words ts)
    (h : ∀ rest, Reads (routine · .function) (ts ++ rest) function rest) :
    ReadableStmt (.functionDecl function) (keyword :: ts) := by
  obtain ⟨name, params, body⟩ := function
  obtain ⟨t, tl, rfl, rfl, -⟩ := spelled_cons.1 spelled
  have isName : t.kind = .identifier := layered.1
  refine .ofDeclaration rfl fun rest => reads_of_succ ((h rest).mono fun d h =>
    declaration_gives.2 ⟨keyword, t :: (tl ++ rest), rfl, ?_⟩)
  simp only [isFun]
  rw [if_pos (by simp [isName])]
  exact ⟨_, h, rfl⟩

end TreeWalk.Grammar
