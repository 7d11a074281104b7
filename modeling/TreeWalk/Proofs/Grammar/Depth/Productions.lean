import TreeWalk.Proofs.Grammar.Depth.Settling

/-!
# The depth that productions need

Every production settles at the depth that its tokens and the productions before its
first token ask for, so `descent` suffices for a whole row of tokens.
-/

namespace TreeWalk.Grammar

variable {α : Type} {d k c : Nat}

/-- How many productions an operand of a level passes before it takes a token. -/
def Level.steps : Level → Nat
  | .factor => 3
  | .term => 5
  | .comparison => 7
  | .equality => 9
  | .and => 11
  | .or => 13

/-- What every production needs at a depth. -/
structure Settled (d : Nat) : Prop where
  names : Settles d 1 1 (names d) (names (d + 1))
  expression : Settles d 17 1 (expression d) (expression (d + 1))
  commaItems : Settles d 1 0 (commaItems d) (commaItems (d + 1))
  assignment : Settles d 16 1 (assignment d) (assignment (d + 1))
  conditional : Settles d 15 1 (conditional d) (conditional (d + 1))
  operation (level) : Settles d (level.steps + 1) 1 (operation d level) (operation (d + 1) level)
  operationTail (level left) :
    Settles d 1 0 (operationTail d level left) (operationTail (d + 1) level left)
  operand (level) : Settles d level.steps 1 (operand d level) (operand (d + 1) level)
  unary : Settles d 2 1 (unary d) (unary (d + 1))
  callTail (callee) : Settles d 1 0 (callTail d callee) (callTail (d + 1) callee)
  arguments : Settles d 17 1 (arguments d) (arguments (d + 1))
  primary : Settles d 1 1 (primary d) (primary (d + 1))
  routine (kind) : Settles d 1 1 (routine d kind) (routine (d + 1) kind)
  declaration : Settles d 20 1 (declaration d) (declaration (d + 1))
  classRest : Settles d 1 1 (classRest d) (classRest (d + 1))
  methods : Settles d 2 0 (methods d) (methods (d + 1))
  varRest : Settles d 1 1 (varRest d) (varRest (d + 1))
  blockRest : Settles d 22 1 (blockRest d) (blockRest (d + 1))
  blockItems : Settles d 21 0 (blockItems d) (blockItems (d + 1))
  statement : Settles d 19 1 (statement d) (statement (d + 1))
  expressionStatement : Settles d 18 1 (expressionStatement d) (expressionStatement (d + 1))
  forRest : Settles d 1 1 (forRest d) (forRest (d + 1))
  forInitial : Settles d 19 1 (forInitial d) (forInitial (d + 1))
  ifRest : Settles d 1 1 (ifRest d) (ifRest (d + 1))

theorem names_settles (ih : Settled d) :
    Settles (d + 1) 1 1 (names (d + 1)) (names (d + 1 + 1)) := by
  rw [names, names]
  refine .deeper (.require fun name => .accept .pure fun comma => ?_)
  exact .bind ih.names (by decide) fun others => .pure

theorem parameters_settles (ih : Settled d) :
    Settles d 1 1 (parameters d) (parameters (d + 1)) := by
  unfold parameters
  refine .bind (.unlessNext (ih.names.mono le_rfl (by decide))) le_rfl fun params => ?_
  exact .require fun close => .checkCount fun _ => .pure

theorem expression_settles (ih : Settled d) :
    Settles (d + 1) 17 1 (expression (d + 1)) (expression (d + 1 + 1)) := by
  rw [expression, expression]
  refine .deeper (.bind ih.assignment le_rfl fun first =>
    .bind ih.commaItems (by decide) fun others => ?_)
  split <;> exact .pure

theorem commaItems_settles (ih : Settled d) :
    Settles (d + 1) 1 0 (commaItems (d + 1)) (commaItems (d + 1 + 1)) := by
  rw [commaItems, commaItems]
  refine .deeper (.accept .pure fun comma => .bind ih.assignment (by decide) fun item => ?_)
  exact .bind ih.commaItems (by decide) fun others => .pure

theorem assignment_settles (ih : Settled d) :
    Settles (d + 1) 16 1 (assignment (d + 1)) (assignment (d + 1 + 1)) := by
  rw [assignment, assignment]
  refine .deeper (.bind ih.conditional le_rfl fun target => .accept .pure fun equals =>
    .bind ih.assignment (by decide) fun value => ?_)
  split
  · exact .pure
  · exact .fail

theorem conditional_settles (ih : Settled d) :
    Settles (d + 1) 15 1 (conditional (d + 1)) (conditional (d + 1 + 1)) := by
  rw [conditional, conditional]
  refine .deeper (.bind (ih.operation .or) le_rfl fun condition => .accept .pure fun question =>
    .bind ih.expression (by decide) fun consequent => .require fun colon => ?_)
  exact .bind ih.expression (by decide) fun alternative => .pure

theorem operation_settles (ih : Settled d) (level : Level) :
    Settles (d + 1) (level.steps + 1) 1 (operation (d + 1) level)
      (operation (d + 1 + 1) level) := by
  rw [operation, operation]
  exact .deeper (.bind (ih.operand level) le_rfl fun left =>
    (ih.operationTail level left).mono (by omega) (by decide))

theorem steps_le (level : Level) : level.steps ≤ 13 := by
  cases level <;> decide

theorem steps_ne_zero (level : Level) : level.steps ≠ 0 := by
  cases level <;> decide

theorem operationTail_settles (ih : Settled d) (level : Level) (left : Expr) :
    Settles (d + 1) 1 0 (operationTail (d + 1) level left)
      (operationTail (d + 1 + 1) level left) := by
  rw [operationTail, operationTail]
  have few := steps_le level
  exact .deeper (.acceptAny .pure fun operator => .bind (ih.operand level) (by omega) fun right =>
    (ih.operationTail level _).mono (by decide) (by decide))

theorem operand_settles (ih : Settled d) (level : Level) :
    Settles (d + 1) level.steps 1 (operand (d + 1) level) (operand (d + 1 + 1) level) := by
  rw [operand, operand]
  cases level with
  | factor => exact .deeper ih.unary
  | term => exact .deeper (ih.operation .factor)
  | comparison => exact .deeper (ih.operation .term)
  | equality => exact .deeper (ih.operation .comparison)
  | and => exact .deeper (ih.operation .equality)
  | or => exact .deeper (ih.operation .and)

theorem unary_settles (ih : Settled d) :
    Settles (d + 1) 2 1 (unary (d + 1)) (unary (d + 1 + 1)) := by
  rw [unary, unary]
  refine .deeper (.acceptAny ?_ fun operator => .bind ih.unary (by decide) fun operand => .pure)
  exact .bind ih.primary le_rfl fun callee => (ih.callTail callee).mono (by decide) le_rfl

theorem callTail_settles (ih : Settled d) (callee : Expr) :
    Settles (d + 1) 1 0 (callTail (d + 1) callee) (callTail (d + 1 + 1) callee) := by
  rw [callTail, callTail]
  refine .deeper (.peek fun t => ?_)
  split
  next =>
    refine .advance fun _ => .bind (n := 0)
      (.unlessNext (ih.arguments.mono le_rfl (by decide))) (by decide) fun items =>
      .require fun paren => .checkCount fun _ => ?_
    exact (ih.callTail _).mono (by decide) (by decide)
  next =>
    exact .advance fun _ => .require fun name => (ih.callTail _).mono (by decide) (by decide)
  next => exact .pure

theorem arguments_settles (ih : Settled d) :
    Settles (d + 1) 17 1 (arguments (d + 1)) (arguments (d + 1 + 1)) := by
  rw [arguments, arguments]
  refine .deeper (.peek fun first => .bind ih.assignment le_rfl fun item =>
    .accept .pure fun comma => ?_)
  exact .bind ih.arguments (by decide) fun others => .pure

theorem primary_settles (ih : Settled d) :
    Settles (d + 1) 1 1 (primary (d + 1)) (primary (d + 1 + 1)) := by
  rw [primary, primary]
  refine .deeper (.peek fun t => ?_)
  split
  next => exact .advance fun _ => .pure
  next => exact .advance fun _ => .pure
  next => exact .advance fun _ => .pure
  next => exact .advance fun _ => .pure
  next => exact .advance fun _ => .pure
  next =>
    exact .advance fun _ => .bind ih.expression (by decide) fun inner => .require fun _ => .pure
  next => exact .advance fun keyword => .require fun _ => .require fun method => .pure
  next => exact .advance fun _ => .pure
  next =>
    refine .advance fun keyword => .require fun _ =>
      .bind (parameters_settles ih) (by decide) fun params => .require fun _ => ?_
    exact .bind ih.blockRest (by decide) fun body => .pure
  next => exact .advance fun _ => .pure
  next => exact .fail

theorem routine_settles (ih : Settled d) (kind : Routine) :
    Settles (d + 1) 1 1 (routine (d + 1) kind) (routine (d + 1 + 1) kind) := by
  rw [routine, routine]
  refine .deeper (.require fun name => .require fun _ =>
    .bind (parameters_settles ih) (by decide) fun params => .require fun _ => ?_)
  exact .bind ih.blockRest (by decide) fun body => .pure

theorem declaration_settles (ih : Settled d) :
    Settles (d + 1) 20 1 (declaration (d + 1)) (declaration (d + 1 + 1)) := by
  rw [declaration, declaration]
  refine .deeper (.peek fun t => ?_)
  split
  next => exact .advance fun _ => ih.classRest.mono (by decide) (by decide)
  next =>
    refine .isSecond fun b => ?_
    split
    · exact .advance fun _ => .bind (ih.routine .function) (by decide) fun f => .pure
    · exact ih.statement
  next => exact .advance fun _ => ih.varRest.mono (by decide) (by decide)
  next => exact ih.statement

theorem classRest_settles (ih : Settled d) :
    Settles (d + 1) 1 1 (classRest (d + 1)) (classRest (d + 1 + 1)) := by
  rw [classRest, classRest]
  refine .deeper (.require fun name => .bind (j := 0) (n := 0)
    (.following ?_) (by decide) fun superclass => .require fun _ => ?_)
  · rw [map_eq_pure_bind]
    exact .require fun _ => .pure
  · exact .bind ih.methods (by decide) fun members => .require fun _ => .pure

theorem methods_settles (ih : Settled d) :
    Settles (d + 1) 2 0 (methods (d + 1)) (methods (d + 1 + 1)) := by
  rw [methods, methods]
  refine .deeper (.peek fun t => ?_)
  split
  · exact .pure
  · exact .pure
  · refine .bind (ih.routine .method) le_rfl fun method => ?_
    exact .bind ih.methods (by decide) fun others => .pure

theorem varRest_settles (ih : Settled d) :
    Settles (d + 1) 1 1 (varRest (d + 1)) (varRest (d + 1 + 1)) := by
  rw [varRest, varRest]
  refine .deeper (.require fun name => .bind (n := 0) (.following ?_) le_rfl fun initial =>
    .require fun _ => .pure)
  exact ih.expression.mono (by decide) (by decide)

theorem blockRest_settles (ih : Settled d) :
    Settles (d + 1) 22 1 (blockRest (d + 1)) (blockRest (d + 1 + 1)) := by
  rw [blockRest, blockRest]
  exact .deeper (.bind ih.blockItems le_rfl fun body => .require fun _ => .pure)

theorem blockItems_settles (ih : Settled d) :
    Settles (d + 1) 21 0 (blockItems (d + 1)) (blockItems (d + 1 + 1)) := by
  rw [blockItems, blockItems]
  refine .deeper (.peek fun t => ?_)
  split
  · exact .pure
  · exact .pure
  · refine .bind ih.declaration le_rfl fun item => ?_
    exact .bind ih.blockItems (by decide) fun others => .pure

theorem statement_settles (ih : Settled d) :
    Settles (d + 1) 19 1 (statement (d + 1)) (statement (d + 1 + 1)) := by
  rw [statement, statement]
  refine .deeper (.peek fun t => ?_)
  split
  next => exact .advance fun _ => ih.forRest.mono (by decide) (by decide)
  next => exact .advance fun _ => ih.ifRest.mono (by decide) (by decide)
  next =>
    exact .advance fun _ => .bind ih.expression (by decide) fun value => .require fun _ => .pure
  next =>
    refine .advance fun keyword =>
      .bind (j := 17) (n := 0) (.unlessNext ?_) (by decide) fun value =>
      .require fun _ => .pure
    exact (ih.expression.mono le_rfl (by decide)).map
  next =>
    refine .advance fun _ => .require fun _ => .bind ih.expression (by decide) fun condition =>
      .require fun _ => ?_
    exact .bind ih.statement (by decide) fun body => .pure
  next => exact .advance fun _ => (ih.blockRest.mono (by decide) (by decide)).map
  next => exact ih.expressionStatement

theorem expressionStatement_settles (ih : Settled d) :
    Settles (d + 1) 18 1 (expressionStatement (d + 1)) (expressionStatement (d + 1 + 1)) := by
  rw [expressionStatement, expressionStatement]
  exact .deeper (.bind ih.expression le_rfl fun value => .require fun _ => .pure)

theorem forRest_settles (ih : Settled d) :
    Settles (d + 1) 1 1 (forRest (d + 1)) (forRest (d + 1 + 1)) := by
  rw [forRest, forRest]
  have clause : Settles d 17 0 (some <$> expression d) (some <$> expression (d + 1)) :=
    (ih.expression.mono le_rfl (by decide)).map
  refine .deeper (.require fun _ => .bind ih.forInitial (by decide) fun initial =>
    .bind (.unlessNext clause) (by decide) fun condition => .require fun _ =>
    .bind (.unlessNext clause) (by decide) fun increment => .require fun _ => ?_)
  exact .bind ih.statement (by decide) fun body => .pure

theorem forInitial_settles (ih : Settled d) :
    Settles (d + 1) 19 1 (forInitial (d + 1)) (forInitial (d + 1 + 1)) := by
  rw [forInitial, forInitial]
  refine .deeper (.peek fun t => ?_)
  split
  next => exact .advance fun _ => .pure
  next => exact .advance fun _ => (ih.varRest.mono (by decide) (by decide)).map
  next => exact ih.expressionStatement.map

theorem ifRest_settles (ih : Settled d) :
    Settles (d + 1) 1 1 (ifRest (d + 1)) (ifRest (d + 1 + 1)) := by
  rw [ifRest, ifRest]
  refine .deeper (.require fun _ => .bind ih.expression (by decide) fun condition =>
    .require fun _ => .bind ih.statement (by decide) fun consequent => ?_)
  refine .bind (n := 0) (.following (k := 0) ?_) (by decide) fun alternative => .pure
  exact ih.statement.mono (by decide) (by decide)

theorem settled (d : Nat) : Settled d := by
  induction d with
  | zero =>
    constructor <;> intros <;> intro ts enough <;> simp [steps_ne_zero] at enough
  | succ d ih =>
    exact
      { names := names_settles ih
        expression := expression_settles ih
        commaItems := commaItems_settles ih
        assignment := assignment_settles ih
        conditional := conditional_settles ih
        operation := operation_settles ih
        operationTail := operationTail_settles ih
        operand := operand_settles ih
        unary := unary_settles ih
        callTail := callTail_settles ih
        arguments := arguments_settles ih
        primary := primary_settles ih
        routine := routine_settles ih
        declaration := declaration_settles ih
        classRest := classRest_settles ih
        methods := methods_settles ih
        varRest := varRest_settles ih
        blockRest := blockRest_settles ih
        blockItems := blockItems_settles ih
        statement := statement_settles ih
        expressionStatement := expressionStatement_settles ih
        forRest := forRest_settles ih
        forInitial := forInitial_settles ih
        ifRest := ifRest_settles ih }

theorem items_settles (d : Nat) : Settles d 21 0 (items d) (items (d + 1)) := by
  induction d with
  | zero =>
    intro ts enough
    simp at enough
  | succ d ih =>
    rw [items, items]
    refine .deeper (.peek fun t => ?_)
    split
    · exact .pure
    · refine .bind (settled d).declaration le_rfl fun item => ?_
      exact .bind ih (by decide) fun others => .pure

theorem loneExpression_settles (d : Nat) :
    Settles d 17 0 (loneExpression d) (loneExpression (d + 1)) := by
  unfold loneExpression
  refine .bind (settled d).expression le_rfl fun e => .peek fun t => ?_
  split
  · exact .pure
  · exact .fail

/-- Once the depth suffices the reader stays what it is. -/
theorem settles_le {r : Nat → Reader α} (h : ∀ d, Settles d k c (r d) (r (d + 1)))
    {ts : List Token} {d d' : Nat} (enough : 24 * ts.length + k ≤ d) (le : d ≤ d') :
    r d' ts = r d ts := by
  induction d', le using Nat.le_induction with
  | base => rfl
  | succ d' le ih => exact ((h d' ts (enough.trans le)).1.symm).trans ih

/-- Reading a program at any greater depth is no different. -/
theorem items_descent {ts : List Token} {d : Nat} (deep : descent ts ≤ d) :
    items d ts = items (descent ts) ts :=
  settles_le items_settles (by unfold descent; omega) deep

theorem loneExpression_descent {ts : List Token} {d : Nat} (deep : descent ts ≤ d) :
    loneExpression d ts = loneExpression (descent ts) ts :=
  settles_le loneExpression_settles (by unfold descent; omega) deep

/-- Reading a program never runs out of depth. -/
theorem program_ne_outOfDepth (ts : List Token) : (program ts).1 ≠ .error .outOfDepth := by
  have completes := (items_settles (descent ts) ts (by unfold descent; omega)).2
  unfold program Reader.read
  split
  · simp
  next halt rest read =>
    simpa [read, Completes] using completes

theorem wholeExpression_ne_outOfDepth (ts : List Token) :
    (wholeExpression ts).1 ≠ .error .outOfDepth := by
  have completes := (loneExpression_settles (descent ts) ts (by unfold descent; omega)).2
  unfold wholeExpression Reader.read
  split
  · simp
  next halt rest read =>
    simpa [read, Completes] using completes

end TreeWalk.Grammar
