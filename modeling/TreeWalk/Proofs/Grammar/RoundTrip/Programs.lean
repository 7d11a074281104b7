import TreeWalk.Proofs.Grammar.Depth.Productions
import TreeWalk.Proofs.Grammar.RoundTrip.Statements

/-!
# Reading back what is written out

The tokens that the words of a layered tree stand for are read as that tree, whatever
follows the end token.

## Implementation notes

The proof is by induction on the tree, with one case for each of its constructors. That
the depth of the descent is large enough comes last.
-/

namespace TreeWalk

open Grammar Filter

mutual

/-- The tokens that the words of a layered expression stand for are read as it. -/
theorem Expr.readable : ∀ (e : Expr) (ts : List Token), e.Layered → Spelled e.words ts →
    Readable e ts
  | .literal value, ts, _, spelled => by
    obtain ⟨t, _, rfl, isWord, last⟩ := spelled_cons.1 spelled
    obtain rfl := spelled_nil.1 last
    exact .literal isWord
  | .variable reference, ts, layered, spelled => by
    obtain ⟨_, rfl, last⟩ := spelled_kept.1 spelled
    obtain rfl := spelled_nil.1 last
    exact .variable layered
  | .assign reference value, ts, ⟨written, layered, noComma⟩, spelled => by
    obtain ⟨_, rfl, more⟩ := spelled_kept.1 spelled
    obtain ⟨equals, tl, rfl, isEqual, more⟩ := spelled_cons.1 more
    exact (Readable.variable written).assigned (value.readable tl layered more) le_rfl isEqual
      noComma rfl rfl rfl
  | .this reference, ts, layered, spelled => by
    obtain ⟨_, rfl, last⟩ := spelled_kept.1 spelled
    obtain rfl := spelled_nil.1 last
    exact .this layered
  | .super reference method, ts, ⟨written, isName⟩, spelled => by
    obtain ⟨_, rfl, more⟩ := spelled_kept.1 spelled
    obtain ⟨dot, _, rfl, isDot, more⟩ := spelled_cons.1 more
    obtain ⟨_, rfl, last⟩ := spelled_kept.1 more
    obtain rfl := spelled_nil.1 last
    exact .super written isDot isName
  | .grouping inner, ts, layered, spelled => by
    obtain ⟨opening, _, rfl, isOpening, more⟩ := spelled_cons.1 spelled
    obtain ⟨tl, _, rfl, within, last⟩ := spelled_append.1 more
    obtain ⟨close, _, rfl, isClosing, last⟩ := spelled_cons.1 last
    obtain rfl := spelled_nil.1 last
    exact .grouping isOpening isClosing (inner.readable tl layered within)
  | .unary operator operand, ts, ⟨isOperator, layered, tight⟩, spelled => by
    obtain ⟨tl, rfl, more⟩ := spelled_kept.1 spelled
    exact .unary (operand.readable tl layered more) isOperator tight
  | .binary left operator right, ts,
      ⟨⟨level, kind, notOr, notAnd, looser, tighter⟩, layered, layered'⟩, spelled => by
    obtain ⟨ts, _, rfl, first, more⟩ := spelled_append.1 spelled
    obtain ⟨tl, rfl, second⟩ := spelled_kept.1 more
    have same : level.node left operator right = .binary left operator right := by
      cases level <;> simp_all [Level.node]
    have isOperator := ofKind?_eq_some.1 kind
    exact same ▸ (left.readable ts layered first).node (right.readable tl layered' second)
      isOperator (node_layered isOperator layered layered' looser tighter).2 looser tighter
  | .logical left operator right, ts,
      ⟨⟨level, kind, orAnd, looser, tighter⟩, layered, layered'⟩, spelled => by
    obtain ⟨ts, _, rfl, first, more⟩ := spelled_append.1 spelled
    obtain ⟨tl, rfl, second⟩ := spelled_kept.1 more
    have same : level.node left operator right = .logical left operator right := by
      cases level <;> simp_all [Level.node]
    have isOperator := ofKind?_eq_some.1 kind
    exact same ▸ (left.readable ts layered first).node (right.readable tl layered' second)
      isOperator (node_layered isOperator layered layered' looser tighter).2 looser tighter
  | .conditional condition consequent alternative, ts, ⟨layered, tight, layered', layered''⟩,
      spelled => by
    obtain ⟨ts, _, rfl, first, more⟩ := spelled_append.1 spelled
    obtain ⟨question, _, rfl, isQuestion, more⟩ := spelled_cons.1 more
    obtain ⟨tl, _, rfl, second, more⟩ := spelled_append.1 more
    obtain ⟨colon, tl', rfl, isColon, third⟩ := spelled_cons.1 more
    exact .conditional (condition.readable ts layered first)
      (consequent.readable tl layered' second)
      (alternative.readable tl' layered'' third) tight isQuestion isColon
  | .comma items, ts, ⟨many, separable, layered⟩, spelled =>
    .comma many (Expr.allReadable items layered) separable spelled
  | .call callee paren arguments, ts,
      ⟨layered, tight, isClosing, few, separable, allLayered⟩, spelled => by
    obtain ⟨ts, _, rfl, first, more⟩ := spelled_append.1 spelled
    obtain ⟨opening, _, rfl, isOpening, more⟩ := spelled_cons.1 more
    obtain ⟨tl, _, rfl, inner, last⟩ := spelled_append.1 more
    obtain ⟨_, rfl, after⟩ := spelled_kept.1 last
    obtain rfl := spelled_nil.1 after
    exact (callee.readable ts layered first).call ((Expr.begins_tight layered tight).tokens first)
      tight isOpening isClosing few allLayered (Expr.allReadable arguments allLayered) separable
      inner
  | .get object name, ts, ⟨layered, tight, isName⟩, spelled => by
    obtain ⟨ts, _, rfl, first, more⟩ := spelled_append.1 spelled
    obtain ⟨dot, _, rfl, isDot, more⟩ := spelled_cons.1 more
    obtain ⟨_, rfl, last⟩ := spelled_kept.1 more
    obtain rfl := spelled_nil.1 last
    exact (object.readable ts layered first).get ((Expr.begins_tight layered tight).tokens first)
      tight isDot isName
  | .set object name value, ts, ⟨layered, tight, isName, layered', noComma⟩, spelled => by
    obtain ⟨ts, _, rfl, first, more⟩ := spelled_append.1 spelled
    obtain ⟨dot, _, rfl, isDot, more⟩ := spelled_cons.1 more
    obtain ⟨_, rfl, after⟩ := spelled_kept.1 more
    obtain ⟨equals, tl, rfl, isEqual, more⟩ := spelled_cons.1 after
    have target := (object.readable ts layered first).get
      ((Expr.begins_tight layered tight).tokens first) tight isDot isName
    simpa using target.assigned (value.readable tl layered' more) le_rfl isEqual noComma
      (e := .set object name value) rfl rfl rfl
  | .lambda keyword params body, ts, ⟨isFun, areParameters, layered⟩, spelled => by
    obtain ⟨_, rfl, more⟩ := spelled_kept.1 spelled
    obtain ⟨opening, _, rfl, isOpening, more⟩ := spelled_cons.1 more
    obtain ⟨ts, _, rfl, names, more⟩ := spelled_append.1 more
    obtain ⟨closing, _, rfl, isClosing, more⟩ := spelled_cons.1 more
    obtain ⟨brace, tl, rfl, isBrace, more⟩ := spelled_cons.1 more
    exact .lambda isFun isOpening areParameters names isClosing isBrace
      (blockRest_reads layered (Stmt.allReadable body layered) more)

theorem Expr.allReadable : ∀ items : List Expr, Expr.AllLayered items →
    ∀ item ∈ items, ∀ ts, Spelled item.words ts → Readable item ts
  | [], _, _, inside => nomatch inside
  | item :: _, layered, _, .head _ => fun ts => item.readable ts layered.1
  | _ :: others, layered, item, .tail _ inside =>
    Expr.allReadable others layered.2 item inside

/-- The tokens that the words of a layered statement stand for are read as it. -/
theorem Stmt.readable : ∀ (s : Stmt) (ts : List Token), s.Layered → Spelled s.words ts →
    ReadableStmt s ts
  | .expression value, ts, layered, spelled => by
    obtain ⟨ts, _, rfl, whole, last⟩ := spelled_append.1 spelled
    obtain ⟨semicolon, _, rfl, isSemicolon, last⟩ := spelled_cons.1 last
    obtain rfl := spelled_nil.1 last
    exact .expression (value.readable ts layered whole) ((Expr.begins layered).tokens whole)
      isSemicolon
  | .print value, ts, layered, spelled => by
    obtain ⟨keyword, _, rfl, isPrint, more⟩ := spelled_cons.1 spelled
    obtain ⟨ts, _, rfl, whole, last⟩ := spelled_append.1 more
    obtain ⟨semicolon, _, rfl, isSemicolon, last⟩ := spelled_cons.1 last
    obtain rfl := spelled_nil.1 last
    exact .print (value.readable ts layered whole) isPrint isSemicolon
  | .varDecl name none, ts, isName, spelled => by
    obtain ⟨keyword, _, rfl, isVar, more⟩ := spelled_cons.1 spelled
    obtain ⟨_, rfl, after⟩ := spelled_kept.1 more
    obtain ⟨semicolon, _, rfl, isSemicolon, last⟩ := spelled_cons.1 after
    obtain rfl := spelled_nil.1 last
    exact .varDecl_none isVar isName isSemicolon
  | .varDecl name (some value), ts, ⟨isName, layered⟩, spelled => by
    obtain ⟨keyword, _, rfl, isVar, more⟩ := spelled_cons.1 spelled
    obtain ⟨_, rfl, after⟩ := spelled_kept.1 more
    obtain ⟨equals, _, rfl, isEqual, more⟩ := spelled_cons.1 after
    obtain ⟨ts, _, rfl, whole, last⟩ := spelled_append.1 more
    obtain ⟨semicolon, _, rfl, isSemicolon, last⟩ := spelled_cons.1 last
    obtain rfl := spelled_nil.1 last
    exact .varDecl_some (value.readable ts layered whole) isVar isName isEqual isSemicolon
  | .block body, ts, layered, spelled => by
    obtain ⟨brace, tl, rfl, isBrace, more⟩ := spelled_cons.1 spelled
    exact .block isBrace (blockRest_reads layered (Stmt.allReadable body layered) more)
  | .branch condition consequent none, ts, ⟨layered, layered', plain⟩, spelled => by
    obtain ⟨keyword, _, rfl, isIf, more⟩ := spelled_cons.1 spelled
    obtain ⟨opening, _, rfl, isOpening, more⟩ := spelled_cons.1 more
    obtain ⟨ts, _, rfl, first, more⟩ := spelled_append.1 more
    obtain ⟨closing, tl, rfl, isClosing, more⟩ := spelled_cons.1 more
    exact .branch_none (condition.readable ts layered first) (consequent.readable tl layered' more)
      isIf isOpening isClosing plain
  | .branch condition consequent (some alternative), ts,
      ⟨layered, layered', plain, long, layered'', plain'⟩, spelled => by
    obtain ⟨keyword, _, rfl, isIf, more⟩ := spelled_cons.1 spelled
    obtain ⟨opening, _, rfl, isOpening, more⟩ := spelled_cons.1 more
    obtain ⟨ts, _, rfl, first, more⟩ := spelled_append.1 more
    obtain ⟨closing, _, rfl, isClosing, more⟩ := spelled_cons.1 more
    obtain ⟨tl, _, rfl, second, more⟩ := spelled_append.1 more
    obtain ⟨elseToken, tl', rfl, isElse, third⟩ := spelled_cons.1 more
    exact .branch_some (condition.readable ts layered first)
      (consequent.readable tl layered' second)
      (alternative.readable tl' layered'' third) isIf isOpening isClosing isElse plain long plain'
  | .loop condition body, ts, ⟨layered, layered', plain⟩, spelled => by
    obtain ⟨keyword, _, rfl, isWhile, more⟩ := spelled_cons.1 spelled
    obtain ⟨opening, _, rfl, isOpening, more⟩ := spelled_cons.1 more
    obtain ⟨ts, _, rfl, first, more⟩ := spelled_append.1 more
    obtain ⟨closing, tl, rfl, isClosing, more⟩ := spelled_cons.1 more
    exact .loop (condition.readable ts layered first) (body.readable tl layered' more) isWhile
      isOpening isClosing plain
  | .functionDecl function, ts, layered, spelled => by
    obtain ⟨keyword, tl, rfl, isFun, more⟩ := spelled_cons.1 spelled
    exact .functionDecl isFun layered more fun rest =>
      function.readable tl rest .function layered more
  | .classDecl name none methods, ts, ⟨isName, layered⟩, spelled => by
    obtain ⟨keyword, _, rfl, isClass, more⟩ := spelled_cons.1 spelled
    obtain ⟨_, rfl, after⟩ := spelled_kept.1 more
    obtain ⟨brace, tl, rfl, isBrace, more⟩ := spelled_cons.1 after
    refine class_reads [] isClass isName isBrace layered
      (FunctionDecl.allReadable methods layered) more fun rest =>
      following_gives.2 (.inl ⟨nextNot_cons.2 ?_, rfl, rfl⟩)
    rw [show brace.kind = .leftBrace from isBrace]
    decide
  | .classDecl name (some superclass) methods, ts, ⟨isName, written, layered⟩, spelled => by
    obtain ⟨keyword, _, rfl, isClass, more⟩ := spelled_cons.1 spelled
    obtain ⟨_, rfl, after⟩ := spelled_kept.1 more
    obtain ⟨less, _, rfl, isLess, more⟩ := spelled_cons.1 after
    obtain ⟨_, rfl, behind⟩ := spelled_kept.1 more
    obtain ⟨brace, tl, rfl, isBrace, more⟩ := spelled_cons.1 behind
    refine class_reads [less, superclass.name] isClass isName isBrace layered
      (FunctionDecl.allReadable methods layered) more fun rest =>
      following_gives.2 (.inr ⟨less, _, superclass, rfl, isLess, ?_, rfl⟩)
    exact map_gives.2 ⟨superclass.name, require_gives.2 ⟨rfl, written.1⟩,
      (ofToken_name written).symm⟩
  | .returns keyword none, ts, isReturn, spelled => by
    obtain ⟨_, rfl, more⟩ := spelled_kept.1 spelled
    obtain ⟨semicolon, _, rfl, isSemicolon, last⟩ := spelled_cons.1 more
    obtain rfl := spelled_nil.1 last
    exact .returns_none isReturn isSemicolon
  | .returns keyword (some value), ts, ⟨isReturn, layered⟩, spelled => by
    obtain ⟨_, rfl, more⟩ := spelled_kept.1 spelled
    obtain ⟨ts, _, rfl, whole, last⟩ := spelled_append.1 more
    obtain ⟨semicolon, _, rfl, isSemicolon, last⟩ := spelled_cons.1 last
    obtain rfl := spelled_nil.1 last
    exact .returns_some (value.readable ts layered whole) ((Expr.begins layered).tokens whole)
      isReturn isSemicolon

theorem Stmt.allReadable : ∀ body : List Stmt, Stmt.AllLayered body →
    ∀ s ∈ body, ∀ ts, Spelled s.words ts → ReadableStmt s ts
  | [], _, _, inside => nomatch inside
  | s :: _, layered, _, .head _ => fun ts => s.readable ts layered.1
  | _ :: others, layered, s, .tail _ inside => Stmt.allReadable others layered.2 s inside

theorem FunctionDecl.readable : ∀ (f : FunctionDecl) (ts rest : List Token) (kind : Routine),
    f.Layered → Spelled f.words ts → Reads (routine · kind) (ts ++ rest) f rest
  | .mk name params body, ts, rest, kind, ⟨isName, areParameters, layered⟩, spelled => by
    obtain ⟨_, rfl, more⟩ := spelled_kept.1 spelled
    obtain ⟨opening, _, rfl, isOpening, more⟩ := spelled_cons.1 more
    obtain ⟨ts, _, rfl, names, more⟩ := spelled_append.1 more
    obtain ⟨closing, _, rfl, isClosing, more⟩ := spelled_cons.1 more
    obtain ⟨brace, tl, rfl, isBrace, more⟩ := spelled_cons.1 more
    exact routine_reads isName isOpening areParameters names isClosing isBrace
      (blockRest_reads layered (Stmt.allReadable body layered) more)

theorem FunctionDecl.allReadable : ∀ members : List FunctionDecl,
    FunctionDecl.AllLayered members → ∀ f ∈ members, ∀ ts rest, Spelled f.words ts →
      Reads (routine · .method) (ts ++ rest) f rest
  | [], _, _, inside => nomatch inside
  | f :: _, layered, _, .head _ => fun ts rest => f.readable ts rest .method layered.1
  | _ :: others, layered, f, .tail _ inside =>
    FunctionDecl.allReadable others layered.2 f inside

end

namespace Grammar

variable {α : Type} {ts rest : List Token}

theorem items_reads {tree : List Stmt} {close : Token} (layered : Stmt.AllLayered tree)
    (spelled : Spelled (Stmt.rowWords tree) ts) (isEnd : close.kind = .endOfText) :
    Reads items (ts ++ close :: rest) tree (close :: rest) := by
  induction tree generalizing ts with
  | nil =>
    obtain rfl := spelled_nil.1 spelled
    exact reads_of_succ (.of_forall fun d => items_gives.2 ⟨close, rest, rfl, by simp [isEnd]⟩)
  | cons item others ih =>
    obtain ⟨ts, tl, rfl, first, more⟩ := spelled_append.1 spelled
    have head := (item.readable ts layered.1 first).declared
      (row_follows rest layered.2 more (by simp [isEnd] : close.kind ≠ .elseWord))
    have tail := ih layered.2 more
    obtain ⟨t, tl', rfl, inside⟩ := Stmt.first_token layered.1 first
    refine reads_of_succ ?_
    filter_upwards [head, tail] with d head tail
    refine items_gives.2 ⟨t, tl' ++ (tl ++ close :: rest), by simp, ?_⟩
    rw [if_neg fun ends => by
      simp [ends, statementStarts, expressionStarts, tightStarts] at inside]
    exact ⟨item, _, others, by simpa using head, tail, rfl⟩

theorem loneExpression_reads {e : Expr} {close : Token} (layered : e.Layered)
    (spelled : Spelled e.words ts) (isEnd : close.kind = .endOfText) :
    Reads loneExpression (ts ++ close :: rest) e (close :: rest) := by
  have stops : Stops 0 (close :: rest) := stops_cons (by simp [isEnd, joins, Level.ofKind?])
  have whole := (e.readable ts layered spelled).whole stops
  exact whole.mono fun d whole => loneExpression_gives.2 ⟨whole, close, rfl, isEnd⟩

/-- What is read at all large depths is read at a depth from which on nothing changes. -/
theorem Reads.read_eq {r : Nat → Reader α} {a : α} {deep : Nat} (h : Reads r ts a rest)
    (same : ∀ d, deep ≤ d → r d ts = r deep ts) : (r deep).read ts = (.ok a, rest) := by
  obtain ⟨d, le, gives⟩ := ((eventually_ge_atTop deep).and h).exists
  unfold EStateM.Gives EStateM.run at gives
  rw [same d le] at gives
  exact read_eq_ok.2 gives

/-- A layered tree that is written out and closed by an end token is read back. -/
theorem read_of_written (close : Token) (more : List Token) (isEnd : close.kind = .endOfText) :
    (∀ tree ts, Stmt.AllLayered tree → Spelled (Stmt.rowWords tree) ts →
      program (ts ++ close :: more) = (.ok tree, close :: more)) ∧
    (∀ e ts, e.Layered → Spelled e.words ts →
      wholeExpression (ts ++ close :: more) = (.ok e, close :: more)) := by
  constructor
  · intro tree ts layered spelled
    exact (items_reads layered spelled isEnd).read_eq fun _ => items_descent
  · intro e ts layered spelled
    exact (loneExpression_reads layered spelled isEnd).read_eq fun _ => loneExpression_descent

/-- A class with a method, a branch in a loop and operations of several levels are read
back. -/
theorem read_of_written_class :
    let name (s : String) : Token := ⟨.identifier, s, .nil, 1⟩
    let word (kind : TokenKind) : Token := ⟨kind, kind.name, .nil, 1⟩
    let use (s : String) : Expr := .variable (.ofToken (name s))
    let sum : Expr := .binary (.binary (use "a") (word .minus) (use "b")) (word .plus)
      (.binary (use "c") (word .star) (.unary (word .minus) (use "d")))
    let tree : List Stmt := [.classDecl (name "A") none [.mk (name "m") [name "a", name "b"]
      [.loop (use "a") (.branch sum (.expression (.assign (.ofToken (name "a")) (use "b")))
        (some (.returns (word .returnWord) none)))]]]
    program ((Stmt.rowWords tree).map Word.token ++ [word .endOfText]) =
      (.ok tree, [word .endOfText]) := by
  intro name word use sum tree
  refine (read_of_written (word .endOfText) [] rfl).1 tree _ ?_ (spelled_tokens _)
  simp [tree, sum, use, word, name, Stmt.AllLayered, Stmt.Layered, FunctionDecl.AllLayered,
    FunctionDecl.Layered, AreParameters, Expr.Layered, Reference.IsWritten, Reference.ofToken,
    Level.ofKind?, Level.rank, Expr.rank, Stmt.declared?, Stmt.endsShort, maxArguments]

end Grammar

end TreeWalk
