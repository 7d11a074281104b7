import TreeWalk.Grammar
import TreeWalk.Proofs.Counterparts.Trees
import TreeWalk.Proofs.Paired

/-!
# The grammar does not look at lines

Rows of tokens that are counterparts of each other are read alike: both give trees that
are alike, or both stop for the same violation at tokens that are counterparts.

## Implementation notes

The proof is by induction on the depth. `ReadsPaired` states for every production that two
readings of it are paired, whatever they come to, and one lemma for each production
carries it one step deeper.
-/

namespace TreeWalk.Grammar

variable {α α' β β' : Type} {R : Correspondence} {d : Nat}

/-- Two readings stop for the same reason, at tokens that are counterparts. -/
inductive Halt.Like (R : Correspondence) : Halt → Halt → Prop
  | error {cause : GrammarCause} {t u : Token} : R.relates t u →
      Halt.Like R (.error ⟨cause, t⟩) (.error ⟨cause, u⟩)
  | outOfTokens : Halt.Like R .outOfTokens .outOfTokens
  | outOfDepth : Halt.Like R .outOfDepth .outOfDepth

/-- Readings are compared on rows of tokens that are counterparts. -/
def likeness (R : Correspondence) : Likeness Halt (List Token) :=
  ⟨List.Forall₂ R.relates, Halt.Like R⟩

/-- Two readers are paired on rows of tokens that are counterparts. -/
abbrev ReadPaired (R : Correspondence) (Q : α → α' → Prop) (r : Reader α) (r' : Reader α') : Prop :=
  Paired (likeness R) Q r r'

section

variable {Q : α → α' → Prop} {r : Reader α} {r' : Reader α'} {t u : Token}

theorem fail_paired {cause : GrammarCause} (h : R.relates t u) :
    ReadPaired R Q (fail cause t) (fail cause u) :=
  .throw (.error h)

theorem peek_paired : ReadPaired R R.relates peek peek := by
  intro ts us rows
  cases rows with
  | nil => exact .error .outOfTokens .nil
  | cons same rows => exact .ok same (.cons same rows)

theorem advance_paired : ReadPaired R R.relates advance advance := by
  intro ts us rows
  cases rows with
  | nil => exact .error .outOfTokens .nil
  | cons same rows => exact .ok same rows

/-- What is next is of the same kind on both sides. -/
theorem peek_paired_bind {f : Token → Reader β} {g : Token → Reader β'} {P : β → β' → Prop}
    (next : ∀ t u, R.relates t u → t.kind = u.kind → ReadPaired R P (f t) (g u)) :
    ReadPaired R P (peek >>= f) (peek >>= g) :=
  peek_paired.bind fun t u same => next t u same (R.sameWord same).kind

theorem isNext_paired {kind : TokenKind} : ReadPaired R Eq (isNext kind) (isNext kind) :=
  peek_paired_bind fun t u _ same => by
    rw [same]
    exact .pure rfl

theorem isSecond_paired {kind : TokenKind} : ReadPaired R Eq (isSecond kind) (isSecond kind) := by
  intro ts us rows
  refine .ok ?_ rows
  obtain _ | ⟨-, _ | ⟨same, -⟩⟩ := rows
  · rfl
  · rfl
  · simp [(R.sameWord same).kind]

theorem acceptAny_paired {kinds : List TokenKind} :
    ReadPaired R (Option.Rel R.relates) (acceptAny kinds) (acceptAny kinds) := by
  refine peek_paired_bind fun t u _ same => ?_
  rw [same]
  exact .ite Iff.rfl (advance_paired.map fun _ _ => .some) (.pure .none)

theorem accept_paired {kind : TokenKind} :
    ReadPaired R (Option.Rel R.relates) (accept kind) (accept kind) :=
  acceptAny_paired

theorem require_paired {what : Requirement} :
    ReadPaired R R.relates (require what) (require what) := by
  refine accept_paired.bind ?_
  rintro _ _ (same | _)
  · exact .pure same
  · exact peek_paired.bind fun _ _ => fail_paired

theorem unlessNext_paired {kind : TokenKind} {absent : α} {absent' : α'} (same : Q absent absent')
    (h : ReadPaired R Q r r') :
    ReadPaired R Q (unlessNext kind absent r) (unlessNext kind absent' r') :=
  isNext_paired.bind_same fun _ => .ite Iff.rfl (.pure same) h

theorem optional_paired {kind : TokenKind} (h : ReadPaired R Q r r') :
    ReadPaired R (Option.Rel Q) (unlessNext kind none (some <$> r))
      (unlessNext kind none (some <$> r')) :=
  unlessNext_paired .none (h.map fun _ _ => .some)

theorem following_paired {kind : TokenKind} (h : ReadPaired R Q r r') :
    ReadPaired R (Option.Rel Q) (following kind r) (following kind r') := by
  refine accept_paired.bind ?_
  rintro _ _ (same | _)
  · exact h.map fun _ _ => .some
  · exact .pure .none

theorem checkCount_paired {items : List α} {items' : List α'} {first : α → Token}
    {first' : α' → Token} {what : Plurality} (rows : List.Forall₂ Q items items')
    (firsts : ∀ a a', Q a a' → R.relates (first a) (first' a')) :
    ReadPaired R Eq (checkCount items first what) (checkCount items' first' what) := by
  unfold checkCount
  obtain h | h := Nat.lt_or_ge maxArguments items.length
  · have h' := rows.length_eq ▸ h
    rw [List.getElem?_eq_getElem h, List.getElem?_eq_getElem h']
    exact fail_paired (firsts _ _ (rows.get h h'))
  · have h' := rows.length_eq ▸ h
    rw [List.getElem?_eq_none h, List.getElem?_eq_none h']
    exact .pure rfl

end

theorem assignment?_like {value value' : Expr} (h' : value.Like R value') :
    ∀ {target target' : Expr}, target.Like R target' →
      Option.Rel (Expr.Like R) (assignment? target value) (assignment? target' value')
  | _, _, .variable same => .some (.assign same h')
  | _, _, .get object name => .some (.set object name h')
  | _, _, .literal | _, _, .assign .. | _, _, .this _ | _, _, .super .. | _, _, .grouping _
  | _, _, .unary .. | _, _, .binary .. | _, _, .logical .. | _, _, .conditional ..
  | _, _, .comma _ | _, _, .call .. | _, _, .set .. | _, _, .lambda .. => .none

theorem node_like {level : Level} {left left' right right' : Expr} {operator operator' : Token}
    (h : left.Like R left') (same : R.relates operator operator') (h' : right.Like R right') :
    (level.node left operator right).Like R (level.node left' operator' right') := by
  cases level with
  | or | and => exact .logical h same h'
  | _ => exact .binary h same h'

theorem forLoop_like {initial initial' : Option Stmt}
    {condition condition' increment increment' : Option Expr} {body body' : Stmt}
    (first : Option.Rel (Stmt.Like R) initial initial')
    (second : Option.Rel (Expr.Like R) condition condition')
    (third : Option.Rel (Expr.Like R) increment increment') (h : body.Like R body') :
    (forLoop initial condition increment body).Like R
      (forLoop initial' condition' increment' body') := by
  have test : (condition.getD (.literal (.boolean true))).Like R
      (condition'.getD (.literal (.boolean true))) := by
    cases second with
    | some same => exact same
    | none => exact .literal
  have counted {step step' : Expr} (same : step.Like R step') :
      (Stmt.block [body, .expression step]).Like R (.block [body', .expression step']) :=
    .block (.cons h (.cons (.expression same) .nil))
  have begun {first first' loop loop' : Stmt} (same : first.Like R first')
      (rest : loop.Like R loop') : (Stmt.block [first, loop]).Like R (.block [first', loop']) :=
    .block (.cons same (.cons rest .nil))
  cases third with
  | none =>
    cases first with
    | none => exact .loop test h
    | some start => exact begun start (.loop test h)
  | some step =>
    cases first with
    | none => exact .loop test (counted step)
    | some start => exact begun start (.loop test (counted step))

/-- Arguments with their first tokens are alike. -/
def ArgumentLike (R : Correspondence) (one other : Token × Expr) : Prop :=
  R.relates one.1 other.1 ∧ one.2.Like R other.2

/-- At a depth every production reads alike. -/
structure ReadsPaired (R : Correspondence) (d : Nat) : Prop where
  names : ReadPaired R (List.Forall₂ R.relates) (names d) (names d)
  expression : ReadPaired R (Expr.Like R) (expression d) (expression d)
  commaItems : ReadPaired R (List.Forall₂ (Expr.Like R)) (commaItems d) (commaItems d)
  assignment : ReadPaired R (Expr.Like R) (assignment d) (assignment d)
  conditional : ReadPaired R (Expr.Like R) (conditional d) (conditional d)
  operation (level) : ReadPaired R (Expr.Like R) (operation d level) (operation d level)
  operationTail (level) {left left'} : Expr.Like R left left' →
    ReadPaired R (Expr.Like R) (operationTail d level left) (operationTail d level left')
  operand (level) : ReadPaired R (Expr.Like R) (operand d level) (operand d level)
  unary : ReadPaired R (Expr.Like R) (unary d) (unary d)
  callTail {callee callee'} : Expr.Like R callee callee' →
    ReadPaired R (Expr.Like R) (callTail d callee) (callTail d callee')
  arguments : ReadPaired R (List.Forall₂ (ArgumentLike R)) (arguments d) (arguments d)
  primary : ReadPaired R (Expr.Like R) (primary d) (primary d)
  routine (kind) : ReadPaired R (FunctionDecl.Like R) (routine d kind) (routine d kind)
  declaration : ReadPaired R (Stmt.Like R) (declaration d) (declaration d)
  classRest : ReadPaired R (Stmt.Like R) (classRest d) (classRest d)
  methods : ReadPaired R (List.Forall₂ (FunctionDecl.Like R)) (methods d) (methods d)
  varRest : ReadPaired R (Stmt.Like R) (varRest d) (varRest d)
  blockRest : ReadPaired R (List.Forall₂ (Stmt.Like R)) (blockRest d) (blockRest d)
  blockItems : ReadPaired R (List.Forall₂ (Stmt.Like R)) (blockItems d) (blockItems d)
  statement : ReadPaired R (Stmt.Like R) (statement d) (statement d)
  expressionStatement :
    ReadPaired R (Stmt.Like R) (expressionStatement d) (expressionStatement d)
  forRest : ReadPaired R (Stmt.Like R) (forRest d) (forRest d)
  forInitial : ReadPaired R (Option.Rel (Stmt.Like R)) (forInitial d) (forInitial d)
  ifRest : ReadPaired R (Stmt.Like R) (ifRest d) (ifRest d)

theorem names_paired (ih : ReadsPaired R d) :
    ReadPaired R (List.Forall₂ R.relates) (names (d + 1)) (names (d + 1)) := by
  rw [names]
  refine require_paired.bind fun _ _ name => accept_paired.bind ?_
  rintro _ _ (comma | _)
  · exact ih.names.bind fun _ _ others => .pure (.cons name others)
  · exact .pure (.cons name .nil)

theorem parameters_paired (ih : ReadsPaired R d) :
    ReadPaired R (List.Forall₂ R.relates) (parameters d) (parameters d) := by
  unfold parameters
  refine (unlessNext_paired .nil ih.names).bind fun _ _ params =>
    require_paired.bind fun _ _ _ => ?_
  exact (checkCount_paired params fun _ _ same => same).bind_same fun _ => .pure params

theorem expression_paired (ih : ReadsPaired R d) :
    ReadPaired R (Expr.Like R) (expression (d + 1)) (expression (d + 1)) := by
  rw [expression]
  refine ih.assignment.bind fun _ _ first => ih.commaItems.bind fun _ _ others => ?_
  cases others with
  | nil => exact .pure first
  | cons second others => exact .pure (.comma (.cons first (.cons second others)))

theorem commaItems_paired (ih : ReadsPaired R d) :
    ReadPaired R (List.Forall₂ (Expr.Like R)) (commaItems (d + 1)) (commaItems (d + 1)) := by
  rw [commaItems]
  refine accept_paired.bind ?_
  rintro _ _ (comma | _)
  · exact ih.assignment.bind fun _ _ item => ih.commaItems.bind fun _ _ others =>
      .pure (.cons item others)
  · exact .pure .nil

theorem assignment_paired (ih : ReadsPaired R d) :
    ReadPaired R (Expr.Like R) (assignment (d + 1)) (assignment (d + 1)) := by
  rw [assignment]
  refine ih.conditional.bind fun _ _ target => accept_paired.bind ?_
  rintro _ _ (equals | _)
  · refine ih.assignment.bind fun value value' same => ?_
    have whole := assignment?_like same target
    generalize assignment? _ value = e, assignment? _ value' = e' at whole
    cases whole with
    | some whole => exact .pure whole
    | none => exact fail_paired equals
  · exact .pure target

theorem conditional_paired (ih : ReadsPaired R d) :
    ReadPaired R (Expr.Like R) (conditional (d + 1)) (conditional (d + 1)) := by
  rw [conditional]
  refine (ih.operation .or).bind fun _ _ condition => accept_paired.bind ?_
  rintro _ _ (question | _)
  · refine ih.expression.bind fun _ _ consequent => require_paired.bind fun _ _ _ => ?_
    exact ih.expression.bind fun _ _ alternative =>
      .pure (.conditional condition consequent alternative)
  · exact .pure condition

theorem operation_paired (ih : ReadsPaired R d) (level : Level) :
    ReadPaired R (Expr.Like R) (operation (d + 1) level) (operation (d + 1) level) := by
  rw [operation]
  exact (ih.operand level).bind fun _ _ left => ih.operationTail level left

theorem operationTail_paired (ih : ReadsPaired R d) (level : Level) {left left' : Expr}
    (h : left.Like R left') :
    ReadPaired R (Expr.Like R) (operationTail (d + 1) level left)
      (operationTail (d + 1) level left') := by
  rw [operationTail, operationTail]
  refine acceptAny_paired.bind ?_
  rintro _ _ (operator | _)
  · exact (ih.operand level).bind fun _ _ right =>
      ih.operationTail level (node_like h operator right)
  · exact .pure h

theorem operand_paired (ih : ReadsPaired R d) (level : Level) :
    ReadPaired R (Expr.Like R) (operand (d + 1) level) (operand (d + 1) level) := by
  rw [operand]
  split
  next tighter _ => exact ih.operation tighter
  next => exact ih.unary

theorem unary_paired (ih : ReadsPaired R d) :
    ReadPaired R (Expr.Like R) (unary (d + 1)) (unary (d + 1)) := by
  rw [unary]
  refine acceptAny_paired.bind ?_
  rintro _ _ (operator | _)
  · exact ih.unary.bind fun _ _ operand => .pure (.unary operator operand)
  · exact ih.primary.bind fun _ _ callee => ih.callTail callee

theorem callTail_paired (ih : ReadsPaired R d) {callee callee' : Expr} (h : callee.Like R callee') :
    ReadPaired R (Expr.Like R) (callTail (d + 1) callee) (callTail (d + 1) callee') := by
  rw [callTail, callTail]
  refine peek_paired_bind fun t u _ same => ?_
  rw [← same]
  generalize t.kind = kind
  cases kind with
  | leftParen =>
    refine advance_paired.bind fun _ _ _ => (unlessNext_paired .nil ih.arguments).bind
      fun _ _ items => require_paired.bind fun _ _ paren => ?_
    refine (checkCount_paired items fun _ _ item => item.1).bind_same fun _ => ?_
    refine ih.callTail (.call h paren ?_)
    rw [List.forall₂_map_left_iff, List.forall₂_map_right_iff]
    exact items.imp fun _ _ item => item.2
  | dot =>
    exact advance_paired.bind fun _ _ _ => require_paired.bind fun _ _ name =>
      ih.callTail (.get h name)
  | _ => exact .pure h

theorem arguments_paired (ih : ReadsPaired R d) :
    ReadPaired R (List.Forall₂ (ArgumentLike R)) (arguments (d + 1)) (arguments (d + 1)) := by
  rw [arguments]
  refine peek_paired.bind fun _ _ first => ih.assignment.bind fun _ _ item => accept_paired.bind ?_
  rintro _ _ (comma | _)
  · exact ih.arguments.bind fun _ _ others => .pure (.cons ⟨first, item⟩ others)
  · exact .pure (.cons ⟨first, item⟩ .nil)

/-- A use of a name as it is written. -/
theorem ofToken_like {t u : Token} (h : R.relates t u) :
    (Reference.ofToken t).Like R (.ofToken u) :=
  ⟨h, rfl⟩

theorem primary_paired (ih : ReadsPaired R d) :
    ReadPaired R (Expr.Like R) (primary (d + 1)) (primary (d + 1)) := by
  rw [primary]
  refine peek_paired_bind fun t u token same => ?_
  have constant {value : Scalar} :
      ReadPaired R (Expr.Like R) (advance *> return .literal value)
        (advance *> return .literal value) :=
    advance_paired.bind fun _ _ _ => .pure .literal
  rw [← same, ← (R.sameWord token).literal]
  generalize t.kind = kind
  cases kind with
  | falseWord | trueWord | nilWord | number | string => exact constant
  | leftParen =>
    exact advance_paired.bind fun _ _ _ => ih.expression.bind fun _ _ inner =>
      require_paired.bind fun _ _ _ => .pure (.grouping inner)
  | superWord =>
    exact advance_paired.bind fun _ _ keyword => require_paired.bind fun _ _ _ =>
      require_paired.bind fun _ _ method => .pure (.super (ofToken_like keyword) method)
  | thisWord => exact advance_paired.bind fun _ _ keyword => .pure (.this (ofToken_like keyword))
  | funWord =>
    refine advance_paired.bind fun _ _ keyword => require_paired.bind fun _ _ _ =>
      (parameters_paired ih).bind fun _ _ params => require_paired.bind fun _ _ _ => ?_
    exact ih.blockRest.bind fun _ _ body => .pure (.lambda keyword params body)
  | identifier => exact advance_paired.bind fun _ _ name => .pure (.variable (ofToken_like name))
  | _ => exact fail_paired token

theorem routine_paired (ih : ReadsPaired R d) (kind : Routine) :
    ReadPaired R (FunctionDecl.Like R) (routine (d + 1) kind) (routine (d + 1) kind) := by
  rw [routine]
  refine require_paired.bind fun _ _ name => require_paired.bind fun _ _ _ =>
    (parameters_paired ih).bind fun _ _ params => require_paired.bind fun _ _ _ => ?_
  exact ih.blockRest.bind fun _ _ body => .pure (.mk name params body)

theorem declaration_paired (ih : ReadsPaired R d) :
    ReadPaired R (Stmt.Like R) (declaration (d + 1)) (declaration (d + 1)) := by
  rw [declaration]
  refine peek_paired_bind fun t u _ same => ?_
  rw [← same]
  generalize t.kind = kind
  cases kind with
  | classWord => exact advance_paired.bind fun _ _ _ => ih.classRest
  | funWord =>
    refine isSecond_paired.bind_same fun named => .ite Iff.rfl ?_ ih.statement
    exact advance_paired.bind fun _ _ _ => (ih.routine .function).bind fun _ _ function =>
      .pure (.functionDecl function)
  | varWord => exact advance_paired.bind fun _ _ _ => ih.varRest
  | _ => exact ih.statement

theorem classRest_paired (ih : ReadsPaired R d) :
    ReadPaired R (Stmt.Like R) (classRest (d + 1)) (classRest (d + 1)) := by
  rw [classRest]
  refine require_paired.bind fun _ _ name =>
    (following_paired (require_paired.map fun _ _ => ofToken_like)).bind fun _ _ superclass =>
    require_paired.bind fun _ _ _ => ih.methods.bind fun _ _ members => ?_
  exact require_paired.bind fun _ _ _ => .pure (.classDecl name superclass members)

theorem methods_paired (ih : ReadsPaired R d) :
    ReadPaired R (List.Forall₂ (FunctionDecl.Like R)) (methods (d + 1)) (methods (d + 1)) := by
  rw [methods]
  refine peek_paired_bind fun t u _ same => ?_
  rw [← same]
  generalize t.kind = kind
  cases kind with
  | endOfText | rightBrace => exact .pure .nil
  | _ =>
    exact (ih.routine .method).bind fun _ _ method => ih.methods.bind fun _ _ others =>
      .pure (.cons method others)

theorem varRest_paired (ih : ReadsPaired R d) :
    ReadPaired R (Stmt.Like R) (varRest (d + 1)) (varRest (d + 1)) := by
  rw [varRest]
  exact require_paired.bind fun _ _ name => (following_paired ih.expression).bind
    fun _ _ initial => require_paired.bind fun _ _ _ => .pure (.varDecl name initial)

theorem blockRest_paired (ih : ReadsPaired R d) :
    ReadPaired R (List.Forall₂ (Stmt.Like R)) (blockRest (d + 1)) (blockRest (d + 1)) := by
  rw [blockRest]
  exact ih.blockItems.bind fun _ _ body => require_paired.bind fun _ _ _ => .pure body

theorem blockItems_paired (ih : ReadsPaired R d) :
    ReadPaired R (List.Forall₂ (Stmt.Like R)) (blockItems (d + 1)) (blockItems (d + 1)) := by
  rw [blockItems]
  refine peek_paired_bind fun t u _ same => ?_
  rw [← same]
  generalize t.kind = kind
  cases kind with
  | endOfText | rightBrace => exact .pure .nil
  | _ =>
    exact ih.declaration.bind fun _ _ item => ih.blockItems.bind fun _ _ others =>
      .pure (.cons item others)

theorem statement_paired (ih : ReadsPaired R d) :
    ReadPaired R (Stmt.Like R) (statement (d + 1)) (statement (d + 1)) := by
  rw [statement]
  refine peek_paired_bind fun t u _ same => ?_
  rw [← same]
  generalize t.kind = kind
  cases kind with
  | forWord => exact advance_paired.bind fun _ _ _ => ih.forRest
  | ifWord => exact advance_paired.bind fun _ _ _ => ih.ifRest
  | printWord =>
    exact advance_paired.bind fun _ _ _ => ih.expression.bind fun _ _ value =>
      require_paired.bind fun _ _ _ => .pure (.print value)
  | returnWord =>
    refine advance_paired.bind fun _ _ keyword =>
      (optional_paired ih.expression).bind fun _ _ value => ?_
    exact require_paired.bind fun _ _ _ => .pure (.returns keyword value)
  | whileWord =>
    refine advance_paired.bind fun _ _ _ => require_paired.bind fun _ _ _ =>
      ih.expression.bind fun _ _ condition => require_paired.bind fun _ _ _ => ?_
    exact ih.statement.bind fun _ _ body => .pure (.loop condition body)
  | leftBrace => exact advance_paired.bind fun _ _ _ => ih.blockRest.map fun _ _ => .block
  | _ => exact ih.expressionStatement

theorem expressionStatement_paired (ih : ReadsPaired R d) :
    ReadPaired R (Stmt.Like R) (expressionStatement (d + 1)) (expressionStatement (d + 1)) := by
  rw [expressionStatement]
  exact ih.expression.bind fun _ _ value => require_paired.bind fun _ _ _ =>
    .pure (.expression value)

theorem forRest_paired (ih : ReadsPaired R d) :
    ReadPaired R (Stmt.Like R) (forRest (d + 1)) (forRest (d + 1)) := by
  rw [forRest]
  refine require_paired.bind fun _ _ _ => ih.forInitial.bind fun _ _ initial =>
    (optional_paired ih.expression).bind fun _ _ condition => require_paired.bind fun _ _ _ =>
    (optional_paired ih.expression).bind fun _ _ increment => require_paired.bind fun _ _ _ => ?_
  exact ih.statement.bind fun _ _ body => .pure (forLoop_like initial condition increment body)

theorem forInitial_paired (ih : ReadsPaired R d) :
    ReadPaired R (Option.Rel (Stmt.Like R)) (forInitial (d + 1)) (forInitial (d + 1)) := by
  rw [forInitial]
  refine peek_paired_bind fun t u _ same => ?_
  rw [← same]
  generalize t.kind = kind
  cases kind with
  | semicolon => exact advance_paired.bind fun _ _ _ => .pure .none
  | varWord => exact advance_paired.bind fun _ _ _ => ih.varRest.map fun _ _ => .some
  | _ => exact ih.expressionStatement.map fun _ _ => .some

theorem ifRest_paired (ih : ReadsPaired R d) :
    ReadPaired R (Stmt.Like R) (ifRest (d + 1)) (ifRest (d + 1)) := by
  rw [ifRest]
  refine require_paired.bind fun _ _ _ => ih.expression.bind fun _ _ condition =>
    require_paired.bind fun _ _ _ => ih.statement.bind fun _ _ consequent => ?_
  exact (following_paired ih.statement).bind fun _ _ alternative =>
    .pure (.branch condition consequent alternative)

theorem readsPaired (R : Correspondence) (d : Nat) : ReadsPaired R d := by
  induction d with
  | zero => constructor <;> intros <;> exact .throw .outOfDepth
  | succ d ih =>
    exact
      { names := names_paired ih
        expression := expression_paired ih
        commaItems := commaItems_paired ih
        assignment := assignment_paired ih
        conditional := conditional_paired ih
        operation := operation_paired ih
        operationTail := operationTail_paired ih
        operand := operand_paired ih
        unary := unary_paired ih
        callTail := callTail_paired ih
        arguments := arguments_paired ih
        primary := primary_paired ih
        routine := routine_paired ih
        declaration := declaration_paired ih
        classRest := classRest_paired ih
        methods := methods_paired ih
        varRest := varRest_paired ih
        blockRest := blockRest_paired ih
        blockItems := blockItems_paired ih
        statement := statement_paired ih
        expressionStatement := expressionStatement_paired ih
        forRest := forRest_paired ih
        forInitial := forInitial_paired ih
        ifRest := ifRest_paired ih }

theorem items_paired (R : Correspondence) (d : Nat) :
    ReadPaired R (List.Forall₂ (Stmt.Like R)) (items d) (items d) := by
  induction d with
  | zero => exact .throw .outOfDepth
  | succ d ih =>
    rw [items]
    refine peek_paired_bind fun t u _ same => ?_
    rw [← same]
    generalize t.kind = kind
    cases kind with
    | endOfText => exact .pure .nil
    | _ =>
      exact (readsPaired R d).declaration.bind fun _ _ item => ih.bind fun _ _ others =>
        .pure (.cons item others)

/-- Rows of tokens that are counterparts are read as programs that are alike, or stop for
the same reason at tokens that are counterparts. -/
theorem program_paired {ts us : List Token} (rows : List.Forall₂ R.relates ts us) :
    (likeness R).Results (List.Forall₂ (Stmt.Like R)) (items (descent ts) ts)
      (items (descent us) us) := by
  rw [descent, descent, rows.length_eq]
  exact items_paired R _ rows

theorem loneExpression_paired (R : Correspondence) (d : Nat) :
    ReadPaired R (Expr.Like R) (loneExpression d) (loneExpression d) :=
  (readsPaired R d).expression.bind fun _ _ alike => peek_paired_bind fun _ _ same kind =>
    .ite (by rw [kind]) (.pure alike) (fail_paired same)

end TreeWalk.Grammar
