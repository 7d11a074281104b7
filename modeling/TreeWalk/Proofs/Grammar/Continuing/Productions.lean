import TreeWalk.Proofs.Grammar.Continuing.Carrying

/-!
# Statements do not look far behind their end

Every production carries its readings over to rows that go on behind it. Statements and
declarations have ended when they give a tree; an expression has to leave a token.

## Implementation notes

The proof is by induction on the depth. `Carried` states for every production how many
tokens it takes at least and whether it has ended, and one lemma for each production
carries it one step deeper.
-/

namespace TreeWalk.Grammar

variable {J : Junction} {d : Nat}

/-- At a depth every production is carried over. -/
structure Carried (J : Junction) (d : Nat) : Prop where
  names : Carries J 1 False (names d)
  expression : Carries J 1 False (expression d)
  commaItems : Carries J 0 False (commaItems d)
  assignment : Carries J 1 False (assignment d)
  conditional : Carries J 1 False (conditional d)
  operation (level) : Carries J 1 False (operation d level)
  operationTail (level left) : Carries J 0 False (operationTail d level left)
  operand (level) : Carries J 1 False (operand d level)
  unary : Carries J 1 False (unary d)
  callTail (callee) : Carries J 0 False (callTail d callee)
  arguments : Carries J 1 False (arguments d)
  primary : Carries J 1 True (primary d)
  routine (kind) : Carries J 1 True (routine d kind)
  declaration : Carries J 2 True (declaration d)
  classRest : Carries J 1 True (classRest d)
  methods : Carries J 0 False (methods d)
  varRest : Carries J 1 True (varRest d)
  blockRest : Carries J 1 True (blockRest d)
  blockItems : Carries J 0 False (blockItems d)
  statement : Carries J 2 True (statement d)
  expressionStatement : Carries J 2 True (expressionStatement d)
  forRest : Carries J 1 True (forRest d)
  forInitial : Carries J 1 False (forInitial d)
  ifRest : Carries J 1 True (ifRest d)

theorem names_carries (ih : Carried J d) : Carries J 1 False (names (d + 1)) := by
  rw [names]
  refine .require fun name => .accept (by decide) .pure (fun comma => ?_) False.elim
  exact .bind ih.names (fun others => .pure) False.elim

theorem parameters_carries (ih : Carried J d) : Carries J 1 True (parameters d) := by
  unfold parameters
  refine .bind (.unlessNext ih.names) (fun params => ?_)
    fun _ => .inr (by decide)
  exact .require fun close => .checkCount fun _ => .pure

theorem expression_carries (ih : Carried J d) : Carries J 1 False (expression (d + 1)) := by
  rw [expression]
  refine .bind ih.assignment (fun first => .bind ih.commaItems (fun others => ?_) False.elim)
    False.elim
  split <;> exact .pure

theorem commaItems_carries (ih : Carried J d) : Carries J 0 False (commaItems (d + 1)) := by
  rw [commaItems]
  refine .accept (by decide) .pure (fun comma => ?_) False.elim
  exact .bind ih.assignment (fun item =>
    .bind ih.commaItems (fun others => .pure) False.elim) False.elim

theorem assignment_carries (ih : Carried J d) : Carries J 1 False (assignment (d + 1)) := by
  rw [assignment]
  refine .bind ih.conditional (fun target => .accept (by decide) .pure (fun equals =>
    .bind ih.assignment (fun value => ?_) False.elim) False.elim)
    False.elim
  split
  · exact .pure
  · exact .fail

theorem conditional_carries (ih : Carried J d) : Carries J 1 False (conditional (d + 1)) := by
  rw [conditional]
  refine .bind (ih.operation .or) (fun condition => .accept (by decide) .pure (fun question =>
    .bind ih.expression (fun consequent => .require fun colon => ?_) False.elim) False.elim)
    False.elim
  exact .bind ih.expression (fun alternative => .pure) False.elim

theorem operation_carries (ih : Carried J d) (level : Level) :
    Carries J 1 False (operation (d + 1) level) := by
  rw [operation]
  exact .bind (ih.operand level) (ih.operationTail level) False.elim

theorem operationTail_carries (ih : Carried J d) (level : Level) (left : Expr) :
    Carries J 0 False (operationTail (d + 1) level left) := by
  rw [operationTail]
  refine .acceptAny (by cases level <;> decide) .pure (fun operator => ?_) False.elim
  exact .bind (ih.operand level)
    (fun right => ih.operationTail level _) False.elim

theorem operand_carries (ih : Carried J d) (level : Level) :
    Carries J 1 False (operand (d + 1) level) := by
  rw [operand]
  split
  next tighter _ => exact ih.operation tighter
  next => exact ih.unary

theorem unary_carries (ih : Carried J d) : Carries J 1 False (unary (d + 1)) := by
  rw [unary]
  refine .acceptAny (by decide) ?_ (fun operator => ?_) False.elim
  · exact .bind ih.primary ih.callTail False.elim
  · exact .bind ih.unary (fun operand => .pure) False.elim

theorem callTail_carries (ih : Carried J d) (callee : Expr) :
    Carries J 0 False (callTail (d + 1) callee) := by
  rw [callTail]
  refine .peek (by rw [J.isEnd]; exact .pure) (fun t => ?_) False.elim
  split
  next =>
    refine .advance (.bind (.unlessNext ih.arguments) (fun items =>
      .require fun paren => .checkCount fun _ => ?_) False.elim)
    exact ih.callTail _
  next => exact .advance (.require fun name => ih.callTail _)
  next => exact .of .pure

theorem arguments_carries (ih : Carried J d) : Carries J 1 False (arguments (d + 1)) := by
  rw [arguments]
  refine .peek ?_ (fun first => .of ?_) False.elim
  all_goals
    refine .bind ih.assignment (fun item => .accept (by decide) .pure (fun comma => ?_) False.elim)
      False.elim
    exact .bind ih.arguments (fun others => .pure) False.elim

theorem primary_carries (ih : Carried J d) : Carries J 1 True (primary (d + 1)) := by
  rw [primary]
  refine .peek (by rw [J.isEnd]; exact .fail) (fun t => ?_) fun _ => by decide
  split
  next => exact .advance .pure
  next => exact .advance .pure
  next => exact .advance .pure
  next => exact .advance .pure
  next => exact .advance .pure
  next =>
    exact .advance (.mono (c := 1) (.bind ih.expression.weak (fun inner =>
      .require fun close => .pure) fun _ => .inr (by decide)) (by decide) id)
  next => exact .advance (.require fun dot => .require fun method => .pure)
  next => exact .advance .pure
  next =>
    refine .advance (.require fun paren => .bind (parameters_carries ih)
      (fun params => .require fun brace => ?_) .inl)
    exact .bind ih.blockRest (fun body => .pure) .inl
  next => exact .advance .pure
  next => exact .of .fail

theorem routine_carries (ih : Carried J d) (kind : Routine) :
    Carries J 1 True (routine (d + 1) kind) := by
  rw [routine]
  refine .require fun name => .require fun paren =>
    .bind (parameters_carries ih) (fun params => .require fun brace => ?_)
      .inl
  exact .bind ih.blockRest (fun body => .pure) .inl

theorem classRest_carries (ih : Carried J d) : Carries J 1 True (classRest (d + 1)) := by
  rw [classRest]
  have parent : Carries J 0 False (Reference.ofToken <$> require .superclassName) := by
    rw [map_eq_pure_bind]
    exact .require fun name => .pure
  refine .mono (c := 3) (.require fun name => .bind (.following (by decide) parent False.elim)
    (fun superclass => .require fun brace => ?_) fun _ => .inr (by decide)) (by decide) id
  exact .bind ih.methods (fun members => .require fun close => .pure) fun _ => .inr (by decide)

theorem methods_carries (ih : Carried J d) : Carries J 0 False (methods (d + 1)) := by
  rw [methods]
  refine .peek (by rw [J.isEnd]; exact .pure) (fun t => .of ?_) False.elim
  split
  · exact .pure
  · exact .pure
  · exact .bind (ih.routine .method)
      (fun method => .bind ih.methods (fun others => .pure) False.elim) False.elim

theorem declaration_carries (ih : Carried J d) : Carries J 2 True (declaration (d + 1)) := by
  rw [declaration]
  refine .peek (by rw [J.isEnd]; exact ih.statement.mono (Nat.le_refl _) False.elim) (fun t => ?_)
    fun _ => by decide
  split
  next => exact .advance ih.classRest
  next =>
    refine .isSecond (fun b => ?_) (by decide)
    split
    · exact .advance (.bind (ih.routine .function) (fun f => .pure) .inl)
    · exact .of ih.statement
  next => exact .advance ih.varRest
  next => exact .of ih.statement

theorem varRest_carries (ih : Carried J d) : Carries J 1 True (varRest (d + 1)) := by
  rw [varRest]
  exact .mono (c := 2) (.require fun name => .bind
    (.following (by decide) ih.expression.weak False.elim)
    (fun initial => .require fun semicolon => .pure) fun _ => .inr (by decide)) (by decide) id

theorem blockRest_carries (ih : Carried J d) : Carries J 1 True (blockRest (d + 1)) := by
  rw [blockRest]
  exact .bind ih.blockItems (fun body => .require fun close => .pure) fun _ => .inr (by decide)

theorem blockItems_carries (ih : Carried J d) : Carries J 0 False (blockItems (d + 1)) := by
  rw [blockItems]
  refine .peek (by rw [J.isEnd]; exact .pure) (fun t => .of ?_) False.elim
  split
  · exact .pure
  · exact .pure
  · exact .bind ih.declaration (fun item => .bind ih.blockItems (fun others => .pure) False.elim)
      False.elim

theorem statement_carries (ih : Carried J d) : Carries J 2 True (statement (d + 1)) := by
  rw [statement]
  refine .peek (by rw [J.isEnd]; exact ih.expressionStatement.mono (Nat.le_refl _) False.elim)
    (fun t => ?_) fun _ => by decide
  split
  next => exact .advance ih.forRest
  next => exact .advance ih.ifRest
  next =>
    exact .advance (.bind ih.expression.weak (fun value => .require fun semicolon => .pure)
      fun _ => .inr (by decide))
  next =>
    exact .advance (.bind (.unlessNext ih.expression.map) (fun value => .require fun semicolon =>
      .pure) fun _ => .inr (by decide))
  next =>
    refine .advance (.mono (c := 3) (.require fun paren => .bind ih.expression (fun condition =>
      .require fun close => ?_) fun _ => .inr (by decide)) (by decide) id)
    exact .bind ih.statement (fun body => .pure) .inl
  next => exact .advance ih.blockRest.map
  next => exact .of ih.expressionStatement

theorem expressionStatement_carries (ih : Carried J d) :
    Carries J 2 True (expressionStatement (d + 1)) := by
  rw [expressionStatement]
  exact .bind ih.expression (fun value => .require fun semicolon => .pure) fun _ => .inr (by decide)

theorem forRest_carries (ih : Carried J d) : Carries J 1 True (forRest (d + 1)) := by
  rw [forRest]
  have clause {kind : TokenKind} :
      Carries J 0 False (unlessNext kind none (some <$> Grammar.expression d)) :=
    .unlessNext ih.expression.map
  refine .mono (c := 4) (.require fun paren => .bind ih.forInitial (fun initial =>
    .bind clause (fun condition => .require fun semicolon => .bind clause (fun increment =>
    .require fun close => ?_) fun _ => .inr (by decide)) fun _ => .inr (by decide))
    fun _ => .inr (by decide)) (by decide) id
  exact .bind ih.statement (fun body => .pure) .inl

theorem forInitial_carries (ih : Carried J d) : Carries J 1 False (forInitial (d + 1)) := by
  rw [forInitial]
  have first : Carries J 1 False (some <$> Grammar.expressionStatement d) :=
    ih.expressionStatement.map.mono (by decide) False.elim
  refine .peek (by rw [J.isEnd]; exact first) (fun t => ?_) False.elim
  split
  next => exact .advance .pure
  next => exact .advance ih.varRest.map.weak
  next => exact .of first

/-- A branch looks for its alternative, which does not stand where the row goes on. -/
theorem ifRest_carries (ih : Carried J d) : Carries J 1 True (ifRest (d + 1)) := by
  rw [ifRest]
  refine .mono (c := 4) (.require fun paren => .bind ih.expression (fun condition =>
    .require fun close => .bind ih.statement (fun consequent => ?_) .inl)
    fun _ => .inr (by decide)) (by decide) id
  refine .bind (.following (by decide) (ih.statement.mono (Nat.zero_le 2) id) fun _ => J.goesOn)
    (fun alternative => .pure) .inl

theorem carried (J : Junction) (d : Nat) : Carried J d := by
  induction d with
  | zero =>
    constructor <;> intros <;> exact .outOfDepth
  | succ d ih =>
    exact
      { names := names_carries ih
        expression := expression_carries ih
        commaItems := commaItems_carries ih
        assignment := assignment_carries ih
        conditional := conditional_carries ih
        operation := operation_carries ih
        operationTail := operationTail_carries ih
        operand := operand_carries ih
        unary := unary_carries ih
        callTail := callTail_carries ih
        arguments := arguments_carries ih
        primary := primary_carries ih
        routine := routine_carries ih
        declaration := declaration_carries ih
        classRest := classRest_carries ih
        methods := methods_carries ih
        varRest := varRest_carries ih
        blockRest := blockRest_carries ih
        blockItems := blockItems_carries ih
        statement := statement_carries ih
        expressionStatement := expressionStatement_carries ih
        forRest := forRest_carries ih
        forInitial := forInitial_carries ih
        ifRest := ifRest_carries ih }

end TreeWalk.Grammar
