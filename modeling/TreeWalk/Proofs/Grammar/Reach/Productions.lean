import TreeWalk.Proofs.Grammar.Reach.Stopping

/-!
# Every production stops in time

At every depth every production is confined to the tokens up to the one before which it
stops. The proof is by induction on the depth, with one lemma for each production.

## Implementation notes

A declaration that begins with a function's keyword looks at the token behind it and, if
that is no name, is read as a statement from the keyword on. So the statement has to be
known to take the keyword, and with it every production between it and the one that does.
-/

namespace TreeWalk.Grammar

variable {d : Nat} {ts : List Token}

/-- The number of tokens that a statement takes at least: one if the first is a function's
keyword. -/
def due : List Token → Nat
  | t :: _ => if t.kind = .funWord then 1 else 0
  | [] => 0

theorem due_le_one (ts : List Token) : due ts ≤ 1 := by
  unfold due
  split
  · split <;> decide
  · decide

theorem due_of_ne {t : Token} {tl : List Token} (other : t.kind ≠ .funWord) :
    due (t :: tl) = 0 :=
  if_neg other

/-- At a depth every production is confined. -/
structure ConfinedAt (d : Nat) : Prop where
  names : ∀ {ts}, HasEnd ts → Confined 0 (names d) ts
  expression : ∀ {ts}, HasEnd ts → Confined (due ts) (expression d) ts
  commaItems : ∀ {ts}, HasEnd ts → Confined 0 (commaItems d) ts
  assignment : ∀ {ts}, HasEnd ts → Confined (due ts) (assignment d) ts
  conditional : ∀ {ts}, HasEnd ts → Confined (due ts) (conditional d) ts
  operation (level) : ∀ {ts}, HasEnd ts → Confined (due ts) (operation d level) ts
  operationTail (level left) : ∀ {ts}, HasEnd ts → Confined 0 (operationTail d level left) ts
  operand (level) : ∀ {ts}, HasEnd ts → Confined (due ts) (operand d level) ts
  unary : ∀ {ts}, HasEnd ts → Confined (due ts) (unary d) ts
  callTail (callee) : ∀ {ts}, HasEnd ts → Confined 0 (callTail d callee) ts
  arguments : ∀ {ts}, HasEnd ts → Confined 0 (arguments d) ts
  primary : ∀ {ts}, HasEnd ts → Confined (due ts) (primary d) ts
  routine (kind) : ∀ {ts}, HasEnd ts → Confined 0 (routine d kind) ts
  declaration : ∀ {ts}, HasEnd ts → Confined 0 (declaration d) ts
  classRest : ∀ {ts}, HasEnd ts → Confined 0 (classRest d) ts
  methods : ∀ {ts}, HasEnd ts → Confined 0 (methods d) ts
  varRest : ∀ {ts}, HasEnd ts → Confined 0 (varRest d) ts
  blockRest : ∀ {ts}, HasEnd ts → Confined 0 (blockRest d) ts
  blockItems : ∀ {ts}, HasEnd ts → Confined 0 (blockItems d) ts
  statement : ∀ {ts}, HasEnd ts → Confined (due ts) (statement d) ts
  expressionStatement : ∀ {ts}, HasEnd ts → Confined (due ts) (expressionStatement d) ts
  forRest : ∀ {ts}, HasEnd ts → Confined 0 (forRest d) ts
  forInitial : ∀ {ts}, HasEnd ts → Confined 0 (forInitial d) ts
  ifRest : ∀ {ts}, HasEnd ts → Confined 0 (ifRest d) ts

/-- What takes the first token takes all that is due. -/
theorem Confined.advance_due {β : Type} {f : Token → Reader β} {t : Token} {tl : List Token}
    (noEnd : t.kind ≠ .endOfText) (next : Confined 0 (f t) tl) :
    Confined (due (t :: tl)) (Grammar.advance >>= f) (t :: tl) :=
  .mono (c := 1) (.advance noEnd next) (due_le_one _)

theorem names_confined (ih : ConfinedAt d) (ends : HasEnd ts) :
    Confined 0 (names (d + 1)) ts := by
  rw [names]
  refine .require ends fun name tl ends => .accept ends (by decide) (.pure ends) ?_
  exact fun comma tl ends => .bind ends (ih.names ends) fun _ _ ends => .pure ends

theorem parameters_confined (ih : ConfinedAt d) (ends : HasEnd ts) :
    Confined 0 (parameters d) ts := by
  unfold parameters
  exact .bind ends (.unlessNext ends (ih.names ends)) fun _ _ ends =>
    .require ends fun _ _ ends => .checkCount ends (.pure ends)

theorem expression_confined (ih : ConfinedAt d) (ends : HasEnd ts) :
    Confined (due ts) (expression (d + 1)) ts := by
  rw [expression]
  refine .bind ends (ih.assignment ends) fun first _ ends =>
    .bind ends (ih.commaItems ends) fun others _ ends => ?_
  split <;> exact .pure ends

theorem commaItems_confined (ih : ConfinedAt d) (ends : HasEnd ts) :
    Confined 0 (commaItems (d + 1)) ts := by
  rw [commaItems]
  refine .accept ends (by decide) (.pure ends) fun comma tl ends => ?_
  exact .mono (.bind ends (ih.assignment ends) fun item _ ends =>
    .bind ends (ih.commaItems ends) fun _ _ ends => .pure ends) (Nat.zero_le _)

theorem assignment_confined (ih : ConfinedAt d) (ends : HasEnd ts) :
    Confined (due ts) (assignment (d + 1)) ts := by
  rw [assignment]
  refine .bind ends (ih.conditional ends) fun target _ ends =>
    .accept ends (by decide) (.pure ends) fun equals tl ends => ?_
  refine .mono (.bind ends (ih.assignment ends) fun value _ ends => ?_) (Nat.zero_le _)
  split
  · exact .pure ends
  · exact .fail ends

theorem conditional_confined (ih : ConfinedAt d) (ends : HasEnd ts) :
    Confined (due ts) (conditional (d + 1)) ts := by
  rw [conditional]
  refine .bind ends (ih.operation .or ends) fun condition _ ends =>
    .accept ends (by decide) (.pure ends) fun question tl ends => ?_
  refine .mono (.bind ends (ih.expression ends) fun consequent _ ends =>
    .require ends fun colon tl ends => ?_) (Nat.zero_le _)
  exact .mono (.bind ends (ih.expression ends) fun _ _ ends => .pure ends) (Nat.zero_le _)

theorem operation_confined (ih : ConfinedAt d) (level : Level) (ends : HasEnd ts) :
    Confined (due ts) (operation (d + 1) level) ts := by
  rw [operation]
  exact .bind ends (ih.operand level ends) fun left _ ends => ih.operationTail level left ends

theorem operationTail_confined (ih : ConfinedAt d) (level : Level) (left : Expr)
    (ends : HasEnd ts) : Confined 0 (operationTail (d + 1) level left) ts := by
  rw [operationTail]
  refine .acceptAny ends (by cases level <;> decide) (fun _ _ _ _ => .pure ends)
    fun operator tl ends => ?_
  exact .mono (.bind ends (ih.operand level ends) fun right _ ends =>
    ih.operationTail level _ ends) (Nat.zero_le _)

theorem operand_confined (ih : ConfinedAt d) (level : Level) (ends : HasEnd ts) :
    Confined (due ts) (operand (d + 1) level) ts := by
  rw [operand]
  split
  next tighter _ => exact ih.operation tighter ends
  next => exact ih.unary ends

theorem unary_confined (ih : ConfinedAt d) (ends : HasEnd ts) :
    Confined (due ts) (unary (d + 1)) ts := by
  rw [unary]
  refine .acceptAny ends (by decide) (fun _ _ _ _ => ?_) fun operator tl ends => ?_
  · exact .bind ends (ih.primary ends) fun callee _ ends => ih.callTail callee ends
  · rw [Nat.sub_eq_zero_of_le (due_le_one ts)]
    exact .mono (.bind ends (ih.unary ends) fun _ _ ends => .pure ends) (Nat.zero_le _)

theorem callTail_confined (ih : ConfinedAt d) (callee : Expr) (ends : HasEnd ts) :
    Confined 0 (callTail (d + 1) callee) ts := by
  rw [callTail]
  refine .peek ends fun t tl cut => ?_
  subst cut
  split
  next isOpening =>
    have noEnd : t.kind ≠ .endOfText := by simp [isOpening]
    have ends := ends.tail noEnd
    exact .advance noEnd (.bind ends (.unlessNext ends (ih.arguments ends)) fun _ _ ends =>
      .require ends fun paren _ ends => .checkCount ends (ih.callTail _ ends))
  next isDot =>
    have noEnd : t.kind ≠ .endOfText := by simp [isDot]
    exact .advance noEnd (.require (ends.tail noEnd) fun name _ ends => ih.callTail _ ends)
  next => exact .pure ends

theorem arguments_confined (ih : ConfinedAt d) (ends : HasEnd ts) :
    Confined 0 (arguments (d + 1)) ts := by
  rw [arguments]
  refine .peek ends fun first _ _ => .mono (.bind ends (ih.assignment ends) fun item _ ends =>
    .accept ends (by decide) (.pure ends) fun comma tl ends => ?_) (Nat.zero_le _)
  exact .bind ends (ih.arguments ends) fun _ _ ends => .pure ends

theorem primary_confined (ih : ConfinedAt d) (ends : HasEnd ts) :
    Confined (due ts) (primary (d + 1)) ts := by
  rw [primary]
  refine .peek ends fun t tl cut => ?_
  subst cut
  have taken {β : Type} {f : Token → Reader β} (noEnd : t.kind ≠ .endOfText)
      (next : HasEnd tl → Confined 0 (f t) tl) :
      Confined (due (t :: tl)) (advance >>= f) (t :: tl) :=
    .advance_due noEnd (next (ends.tail noEnd))
  split
  next is => exact taken (by simp [is]) .pure
  next is => exact taken (by simp [is]) .pure
  next is => exact taken (by simp [is]) .pure
  next is => exact taken (by simp [is]) .pure
  next is => exact taken (by simp [is]) .pure
  next is =>
    exact taken (by simp [is]) fun ends => .mono (.bind ends (ih.expression ends) fun _ _ ends =>
      .require ends fun _ _ ends => .pure ends) (Nat.zero_le _)
  next is =>
    exact taken (by simp [is]) fun ends => .require ends fun _ _ ends =>
      .require ends fun _ _ ends => .pure ends
  next is => exact taken (by simp [is]) .pure
  next is =>
    exact taken (by simp [is]) fun ends => .require ends fun _ _ ends =>
      .bind ends (parameters_confined ih ends) fun _ _ ends => .require ends fun _ _ ends =>
      .bind ends (ih.blockRest ends) fun _ _ ends => .pure ends
  next is => exact taken (by simp [is]) .pure
  next noFun _ =>
    rw [due_of_ne noFun]
    exact .fail ends

theorem routine_confined (ih : ConfinedAt d) (kind : Routine) (ends : HasEnd ts) :
    Confined 0 (routine (d + 1) kind) ts := by
  rw [routine]
  exact .require ends fun _ _ ends => .require ends fun _ _ ends =>
    .bind ends (parameters_confined ih ends) fun _ _ ends => .require ends fun _ _ ends =>
    .bind ends (ih.blockRest ends) fun _ _ ends => .pure ends

theorem classRest_confined (ih : ConfinedAt d) (ends : HasEnd ts) :
    Confined 0 (classRest (d + 1)) ts := by
  rw [classRest]
  refine .require ends fun _ _ ends => .bind ends (.following ends (by decide) ?_) fun _ _ ends =>
    .require ends fun _ _ ends => .bind ends (ih.methods ends) fun _ _ ends =>
    .require ends fun _ _ ends => .pure ends
  intro tl ends
  rw [map_eq_pure_bind]
  exact .require ends fun _ _ ends => .pure ends

theorem methods_confined (ih : ConfinedAt d) (ends : HasEnd ts) :
    Confined 0 (methods (d + 1)) ts := by
  rw [methods]
  refine .peek ends fun t tl _ => ?_
  split
  · exact .pure ends
  · exact .pure ends
  · exact .bind ends (ih.routine .method ends) fun _ _ ends =>
      .bind ends (ih.methods ends) fun _ _ ends => .pure ends

/-- What is read as a statement from a function's keyword on takes the keyword, so the
token behind it may be looked at. -/
theorem declaration_confined (ih : ConfinedAt d) (ends : HasEnd ts) :
    Confined 0 (declaration (d + 1)) ts := by
  rw [declaration]
  refine .peek ends fun t tl cut => ?_
  subst cut
  split
  next is =>
    have noEnd : t.kind ≠ .endOfText := by simp [is]
    exact .advance noEnd (ih.classRest (ends.tail noEnd))
  next is =>
    have noEnd : t.kind ≠ .endOfText := by simp [is]
    have one : due (t :: tl) = 1 := if_pos is
    refine .mono (c := 1) (.isSecond Nat.one_pos ?_) (Nat.zero_le 1)
    split
    · exact .advance noEnd (.bind (ends.tail noEnd) (ih.routine .function (ends.tail noEnd))
        fun _ _ ends => .pure ends)
    · exact one ▸ ih.statement ends
  next is =>
    have noEnd : t.kind ≠ .endOfText := by simp [is]
    exact .advance noEnd (ih.varRest (ends.tail noEnd))
  next => exact (ih.statement ends).mono (Nat.zero_le _)

theorem varRest_confined (ih : ConfinedAt d) (ends : HasEnd ts) :
    Confined 0 (varRest (d + 1)) ts := by
  rw [varRest]
  exact .require ends fun _ _ ends =>
    .bind ends (.following ends (by decide) fun _ ends => (ih.expression ends).mono (Nat.zero_le _))
      fun _ _ ends => .require ends fun _ _ ends => .pure ends

theorem blockRest_confined (ih : ConfinedAt d) (ends : HasEnd ts) :
    Confined 0 (blockRest (d + 1)) ts := by
  rw [blockRest]
  exact .bind ends (ih.blockItems ends) fun _ _ ends => .require ends fun _ _ ends => .pure ends

theorem blockItems_confined (ih : ConfinedAt d) (ends : HasEnd ts) :
    Confined 0 (blockItems (d + 1)) ts := by
  rw [blockItems]
  refine .peek ends fun t tl _ => ?_
  split
  · exact .pure ends
  · exact .pure ends
  · exact .bind ends (ih.declaration ends) fun _ _ ends =>
      .bind ends (ih.blockItems ends) fun _ _ ends => .pure ends

/-- A clause that may be left out. -/
theorem clause_confined (ih : ConfinedAt d) (kind : TokenKind) (ends : HasEnd ts) :
    Confined 0 (unlessNext kind none (some <$> expression d)) ts :=
  .unlessNext ends (((ih.expression ends).mono (Nat.zero_le _)).map ends)

theorem statement_confined (ih : ConfinedAt d) (ends : HasEnd ts) :
    Confined (due ts) (statement (d + 1)) ts := by
  rw [statement]
  refine .peek ends fun t tl cut => ?_
  subst cut
  have taken {β : Type} {f : Token → Reader β} (noEnd : t.kind ≠ .endOfText)
      (next : HasEnd tl → Confined 0 (f t) tl) :
      Confined (due (t :: tl)) (advance >>= f) (t :: tl) :=
    .advance_due noEnd (next (ends.tail noEnd))
  split
  next is => exact taken (by simp [is]) ih.forRest
  next is => exact taken (by simp [is]) ih.ifRest
  next is =>
    exact taken (by simp [is]) fun ends => .mono (.bind ends (ih.expression ends) fun _ _ ends =>
      .require ends fun _ _ ends => .pure ends) (Nat.zero_le _)
  next is =>
    exact taken (by simp [is]) fun ends => .bind ends (clause_confined ih .semicolon ends)
      fun _ _ ends => .require ends fun _ _ ends => .pure ends
  next is =>
    refine taken (by simp [is]) fun ends => .require ends fun _ _ ends =>
      .mono (.bind ends (ih.expression ends) fun _ _ ends => .require ends fun _ _ ends => ?_)
        (Nat.zero_le _)
    exact .mono (.bind ends (ih.statement ends) fun _ _ ends => .pure ends) (Nat.zero_le _)
  next is => exact taken (by simp [is]) fun ends => (ih.blockRest ends).map ends
  next => exact ih.expressionStatement ends

theorem expressionStatement_confined (ih : ConfinedAt d) (ends : HasEnd ts) :
    Confined (due ts) (expressionStatement (d + 1)) ts := by
  rw [expressionStatement]
  exact .bind ends (ih.expression ends) fun _ _ ends => .require ends fun _ _ ends => .pure ends

theorem forRest_confined (ih : ConfinedAt d) (ends : HasEnd ts) :
    Confined 0 (forRest (d + 1)) ts := by
  rw [forRest]
  refine .require ends fun _ _ ends => .bind ends (ih.forInitial ends) fun _ _ ends =>
    .bind ends (clause_confined ih .semicolon ends) fun _ _ ends =>
    .require ends fun _ _ ends => .bind ends (clause_confined ih .rightParen ends) fun _ _ ends =>
    .require ends fun _ _ ends => ?_
  exact .mono (.bind ends (ih.statement ends) fun _ _ ends => .pure ends) (Nat.zero_le _)

theorem forInitial_confined (ih : ConfinedAt d) (ends : HasEnd ts) :
    Confined 0 (forInitial (d + 1)) ts := by
  rw [forInitial]
  refine .peek ends fun t tl cut => ?_
  subst cut
  split
  next is =>
    have noEnd : t.kind ≠ .endOfText := by simp [is]
    exact .advance noEnd (.pure (ends.tail noEnd))
  next is =>
    have noEnd : t.kind ≠ .endOfText := by simp [is]
    exact .advance noEnd ((ih.varRest (ends.tail noEnd)).map (ends.tail noEnd))
  next => exact ((ih.expressionStatement ends).mono (Nat.zero_le _)).map ends

theorem ifRest_confined (ih : ConfinedAt d) (ends : HasEnd ts) :
    Confined 0 (ifRest (d + 1)) ts := by
  rw [ifRest]
  refine .require ends fun _ _ ends =>
    .mono (.bind ends (ih.expression ends) fun _ _ ends => .require ends fun _ _ ends => ?_)
      (Nat.zero_le _)
  refine .mono (.bind ends (ih.statement ends) fun _ _ ends => .bind ends ?_ fun _ _ ends =>
    .pure ends) (Nat.zero_le _)
  exact .following ends (by decide) fun _ ends => (ih.statement ends).mono (Nat.zero_le _)

theorem confinedAt (d : Nat) : ConfinedAt d := by
  induction d with
  | zero =>
    constructor <;> intros <;> exact .outOfDepth
  | succ d ih =>
    exact
      { names := names_confined ih
        expression := expression_confined ih
        commaItems := commaItems_confined ih
        assignment := assignment_confined ih
        conditional := conditional_confined ih
        operation := fun level => operation_confined ih level
        operationTail := fun level left => operationTail_confined ih level left
        operand := fun level => operand_confined ih level
        unary := unary_confined ih
        callTail := fun callee => callTail_confined ih callee
        arguments := arguments_confined ih
        primary := primary_confined ih
        routine := fun kind => routine_confined ih kind
        declaration := declaration_confined ih
        classRest := classRest_confined ih
        methods := methods_confined ih
        varRest := varRest_confined ih
        blockRest := blockRest_confined ih
        blockItems := blockItems_confined ih
        statement := statement_confined ih
        expressionStatement := expressionStatement_confined ih
        forRest := forRest_confined ih
        forInitial := forInitial_confined ih
        ifRest := ifRest_confined ih }

end TreeWalk.Grammar
