import TreeWalk.Proofs.Grammar.Reading

/-!
# What each production reads

For every production an equivalence: it gives a tree and leaves some tokens exactly if
the tokens before those are made up in one of the ways listed. A reading that fails is
not described here.
-/

namespace TreeWalk.Grammar

variable {ts rest : List Token} {d : Nat}

theorem names_gives {found : List Token} :
    (names (d + 1)).Gives ts found rest ↔
      ∃ name tl, ts = name :: tl ∧ name.kind = .identifier ∧
        ((NextNot [.comma] tl ∧ found = [name] ∧ rest = tl) ∨
          ∃ comma mid others, tl = comma :: mid ∧ comma.kind = .comma ∧
            (names d).Gives mid others rest ∧ found = name :: others) := by
  simp only [names, require_bind_gives, accept_bind_gives]
  simp only [bind_gives, pure_gives, Requirement.kind]
  refine exists_congr fun name => exists_congr fun tl => and_congr_right fun _ =>
    and_congr_right fun _ => or_congr_right ?_
  constructor <;> grind

theorem parameters_gives {found : List Token} :
    (parameters d).Gives ts found rest ↔
      ∃ close, close.kind = .rightParen ∧ found.length ≤ maxArguments ∧
        (unlessNext .rightParen [] (names d)).Gives ts found (close :: rest) := by
  simp only [parameters, bind_gives, require_gives, checkCount_gives, pure_gives, Requirement.kind]
  constructor <;> grind

/-- Items with commas between them: a single one is no comma expression. -/
def joined (first : Expr) : List Expr → Expr
  | [] => first
  | others => .comma (first :: others)

theorem expression_gives {e : Expr} :
    (expression (d + 1)).Gives ts e rest ↔
      ∃ first mid others, (assignment d).Gives ts first mid ∧
        (commaItems d).Gives mid others rest ∧ e = joined first others := by
  simp only [expression, bind_gives]
  constructor
  · rintro ⟨first, mid, h, others, mid', h', made⟩
    refine ⟨first, mid, others, h, ?_⟩
    cases others <;> simp_all [joined]
  · rintro ⟨first, mid, others, h, h', rfl⟩
    refine ⟨first, mid, h, others, rest, h', ?_⟩
    cases others <;> simp [joined]

theorem commaItems_gives {found : List Expr} :
    (commaItems (d + 1)).Gives ts found rest ↔
      (NextNot [.comma] ts ∧ found = [] ∧ rest = ts) ∨
        ∃ comma tl item mid others, ts = comma :: tl ∧ comma.kind = .comma ∧
          (assignment d).Gives tl item mid ∧ (commaItems d).Gives mid others rest ∧
          found = item :: others := by
  simp only [commaItems, accept_bind_gives]
  simp only [bind_gives, pure_gives]
  constructor <;> grind

theorem assignment_gives {e : Expr} :
    (assignment (d + 1)).Gives ts e rest ↔
      ∃ target mid, (conditional d).Gives ts target mid ∧
        ((NextNot [.equal] mid ∧ e = target ∧ rest = mid) ∨
          ∃ equals tl value, mid = equals :: tl ∧ equals.kind = .equal ∧
            (assignment d).Gives tl value rest ∧ assignment? target value = some e) := by
  rw [assignment, bind_gives]
  simp only [accept_bind_gives, pure_gives]
  refine exists_congr fun target => exists_congr fun mid => and_congr_right fun _ =>
    or_congr (by grind) ?_
  simp only [bind_gives]
  constructor
  · rintro ⟨equals, tl, rfl, isEqual, value, mid', h, made⟩
    split at made
    next e' he => exact ⟨equals, tl, value, rfl, isEqual, by simp_all, by simp_all⟩
    next => simp at made
  · rintro ⟨equals, tl, value, rfl, isEqual, h, made⟩
    exact ⟨equals, tl, rfl, isEqual, value, rest, h, by simp [made]⟩

theorem conditional_gives {e : Expr} :
    (conditional (d + 1)).Gives ts e rest ↔
      ∃ condition mid, (operation d .or).Gives ts condition mid ∧
        ((NextNot [.question] mid ∧ e = condition ∧ rest = mid) ∨
          ∃ question tl consequent colon mid' alternative, mid = question :: tl ∧
            question.kind = .question ∧ (expression d).Gives tl consequent (colon :: mid') ∧
            colon.kind = .colon ∧ (expression d).Gives mid' alternative rest ∧
            e = .conditional condition consequent alternative) := by
  rw [conditional, bind_gives]
  simp only [accept_bind_gives, pure_gives]
  refine exists_congr fun condition => exists_congr fun mid => and_congr_right fun _ =>
    or_congr (by grind) ?_
  simp only [bind_gives, require_gives, pure_gives, Requirement.kind]
  constructor <;> grind

theorem operation_gives {level : Level} {e : Expr} :
    (operation (d + 1) level).Gives ts e rest ↔
      ∃ left mid, (operand d level).Gives ts left mid ∧
        (operationTail d level left).Gives mid e rest := by
  simp only [operation, bind_gives]

theorem operationTail_gives {level : Level} {left e : Expr} :
    (operationTail (d + 1) level left).Gives ts e rest ↔
      (NextNot level.operators ts ∧ e = left ∧ rest = ts) ∨
        ∃ operator tl right mid, ts = operator :: tl ∧ operator.kind ∈ level.operators ∧
          (operand d level).Gives tl right mid ∧
          (operationTail d level (level.node left operator right)).Gives mid e rest := by
  simp only [operationTail, acceptAny_bind_gives]
  simp only [bind_gives, pure_gives]
  constructor <;> grind

theorem operand_gives {level : Level} {e : Expr} :
    (operand (d + 1) level).Gives ts e rest ↔
      match level.tighter with
      | some tighter => (operation d tighter).Gives ts e rest
      | none => (unary d).Gives ts e rest := by
  rw [operand]
  cases level.tighter <;> rfl

theorem unary_gives {e : Expr} :
    (unary (d + 1)).Gives ts e rest ↔
      (∃ operator tl operand, ts = operator :: tl ∧ operator.kind ∈ [.bang, .minus] ∧
          (unary d).Gives tl operand rest ∧ e = .unary operator operand) ∨
        (NextNot [.bang, .minus] ts ∧
          ∃ callee mid, (primary d).Gives ts callee mid ∧
            (callTail d callee).Gives mid e rest) := by
  rw [unary, acceptAny_bind_gives]
  simp only [bind_gives, pure_gives]
  constructor <;> grind

theorem callTail_gives {callee e : Expr} :
    (callTail (d + 1) callee).Gives ts e rest ↔
      ∃ t tl, ts = t :: tl ∧
        match t.kind with
        | .leftParen =>
          ∃ items paren mid,
            (unlessNext .rightParen [] (arguments d)).Gives tl items (paren :: mid) ∧
            paren.kind = .rightParen ∧ items.length ≤ maxArguments ∧
            (callTail d (.call callee paren (items.map Prod.snd))).Gives mid e rest
        | .dot =>
          ∃ name mid, tl = name :: mid ∧ name.kind = .identifier ∧
            (callTail d (.get callee name)).Gives mid e rest
        | _ => e = callee ∧ rest = ts := by
  rw [callTail, peek_bind_gives]
  refine exists_congr fun t => exists_congr fun tl => and_congr_right fun h => ?_
  subst h
  split
  · simp only [advance_bind_gives]
    simp only [bind_gives, require_gives, checkCount_gives, Requirement.kind]
    constructor <;> grind
  · simp only [advance_bind_gives, require_bind_gives, Requirement.kind]
    constructor <;> grind
  · simp

theorem arguments_gives {found : List (Token × Expr)} :
    (arguments (d + 1)).Gives ts found rest ↔
      ∃ first item mid, ts.head? = some first ∧ (assignment d).Gives ts item mid ∧
        ((NextNot [.comma] mid ∧ found = [(first, item)] ∧ rest = mid) ∨
          ∃ comma tl others, mid = comma :: tl ∧ comma.kind = .comma ∧
            (arguments d).Gives tl others rest ∧ found = (first, item) :: others) := by
  simp only [arguments, bind_gives (x := peek), peek_gives, bind_gives (x := assignment _),
    accept_bind_gives]
  simp only [bind_gives, pure_gives]
  constructor <;> grind

theorem primary_gives {e : Expr} :
    (primary (d + 1)).Gives ts e rest ↔
      ∃ t tl, ts = t :: tl ∧
        match t.kind with
        | .falseWord => e = .literal (.boolean false) ∧ rest = tl
        | .trueWord => e = .literal (.boolean true) ∧ rest = tl
        | .nilWord => e = .literal .nil ∧ rest = tl
        | .number | .string => e = .literal t.literal ∧ rest = tl
        | .leftParen =>
          ∃ inner close, (expression d).Gives tl inner (close :: rest) ∧
            close.kind = .rightParen ∧ e = .grouping inner
        | .superWord =>
          ∃ dot method, tl = dot :: method :: rest ∧ dot.kind = .dot ∧
            method.kind = .identifier ∧ e = .super (.ofToken t) method
        | .thisWord => e = .this (.ofToken t) ∧ rest = tl
        | .funWord =>
          ∃ paren params brace body mid mid', tl = paren :: mid ∧ paren.kind = .leftParen ∧
            (parameters d).Gives mid params (brace :: mid') ∧ brace.kind = .leftBrace ∧
            (blockRest d).Gives mid' body rest ∧ e = .lambda t params body
        | .identifier => e = .variable (.ofToken t) ∧ rest = tl
        | _ => False := by
  rw [primary, peek_bind_gives]
  refine exists_congr fun t => exists_congr fun tl => and_congr_right fun h => ?_
  subst h
  split <;>
    simp only [seqRight_gives, bind_gives, advance_gives, require_gives, pure_gives, fail_gives,
      Requirement.kind]
  all_goals constructor <;> grind

theorem routine_gives {kind : Routine} {f : FunctionDecl} :
    (routine (d + 1) kind).Gives ts f rest ↔
      ∃ name paren params brace body mid mid', ts = name :: paren :: mid ∧
        name.kind = .identifier ∧ paren.kind = .leftParen ∧
        (parameters d).Gives mid params (brace :: mid') ∧ brace.kind = .leftBrace ∧
        (blockRest d).Gives mid' body rest ∧ f = .mk name params body := by
  simp only [routine, bind_gives, require_gives, pure_gives, Requirement.kind]
  constructor <;> grind

theorem classRest_gives {s : Stmt} :
    (classRest (d + 1)).Gives ts s rest ↔
      ∃ name tl superclass brace mid members close, ts = name :: tl ∧
        name.kind = .identifier ∧
        (following .less (Reference.ofToken <$> require .superclassName)).Gives tl superclass
          (brace :: mid) ∧
        brace.kind = .leftBrace ∧ (methods d).Gives mid members (close :: rest) ∧
        close.kind = .rightBrace ∧ s = .classDecl name superclass members := by
  simp only [classRest, bind_gives, require_gives, pure_gives, Requirement.kind]
  constructor <;> grind

theorem methods_gives {found : List FunctionDecl} :
    (methods (d + 1)).Gives ts found rest ↔
      ∃ t tl, ts = t :: tl ∧
        if t.kind = .endOfText ∨ t.kind = .rightBrace then found = [] ∧ rest = ts
        else ∃ method mid others, (routine d .method).Gives ts method mid ∧
          (methods d).Gives mid others rest ∧ found = method :: others := by
  rw [methods, peek_bind_gives]
  refine exists_congr fun t => exists_congr fun tl => and_congr_right fun h => ?_
  subst h
  split <;> simp_all only [bind_gives, pure_gives]
  all_goals constructor <;> grind

theorem declaration_gives {s : Stmt} :
    (declaration (d + 1)).Gives ts s rest ↔
      ∃ t tl, ts = t :: tl ∧
        match t.kind with
        | .classWord => (classRest d).Gives tl s rest
        | .funWord =>
          if tl.head?.any (fun name => name.kind = .identifier) then
            ∃ f, (routine d .function).Gives tl f rest ∧ s = .functionDecl f
          else (statement d).Gives ts s rest
        | .varWord => (varRest d).Gives tl s rest
        | _ => (statement d).Gives ts s rest := by
  rw [declaration, peek_bind_gives]
  refine exists_congr fun t => exists_congr fun tl => and_congr_right fun h => ?_
  subst h
  generalize t.kind = kind
  split
  next => simp [advance_bind_gives, and_assoc]
  next =>
    simp only [bind_gives (x := isSecond _), isSecond_gives, and_assoc, exists_eq_left,
      List.getElem?_cons_succ, ← List.head?_eq_getElem?]
    split <;> simp [bind_gives, map_gives, and_assoc, *]
  next => simp [advance_bind_gives, and_assoc]
  next => simp

theorem varRest_gives {s : Stmt} :
    (varRest (d + 1)).Gives ts s rest ↔
      ∃ name tl initial semicolon, ts = name :: tl ∧ name.kind = .identifier ∧
        (following .equal (expression d)).Gives tl initial (semicolon :: rest) ∧
        semicolon.kind = .semicolon ∧ s = .varDecl name initial := by
  simp only [varRest, bind_gives, require_gives, pure_gives, Requirement.kind]
  constructor <;> grind

theorem blockRest_gives {body : List Stmt} :
    (blockRest (d + 1)).Gives ts body rest ↔
      ∃ close, (blockItems d).Gives ts body (close :: rest) ∧ close.kind = .rightBrace := by
  simp only [blockRest, bind_gives, require_gives, pure_gives, Requirement.kind]
  constructor <;> grind

theorem blockItems_gives {found : List Stmt} :
    (blockItems (d + 1)).Gives ts found rest ↔
      ∃ t tl, ts = t :: tl ∧
        if t.kind = .endOfText ∨ t.kind = .rightBrace then found = [] ∧ rest = ts
        else ∃ item mid others, (declaration d).Gives ts item mid ∧
          (blockItems d).Gives mid others rest ∧ found = item :: others := by
  rw [blockItems, peek_bind_gives]
  refine exists_congr fun t => exists_congr fun tl => and_congr_right fun h => ?_
  subst h
  split <;> simp_all only [bind_gives, pure_gives]
  all_goals constructor <;> grind

theorem expressionStatement_gives {s : Stmt} :
    (expressionStatement (d + 1)).Gives ts s rest ↔
      ∃ value semicolon, (expression d).Gives ts value (semicolon :: rest) ∧
        semicolon.kind = .semicolon ∧ s = .expression value := by
  simp only [expressionStatement, bind_gives, require_gives, pure_gives, Requirement.kind]
  constructor <;> grind

theorem statement_gives {s : Stmt} :
    (statement (d + 1)).Gives ts s rest ↔
      ∃ t tl, ts = t :: tl ∧
        match t.kind with
        | .forWord => (forRest d).Gives tl s rest
        | .ifWord => (ifRest d).Gives tl s rest
        | .printWord =>
          ∃ value semicolon, (expression d).Gives tl value (semicolon :: rest) ∧
            semicolon.kind = .semicolon ∧ s = .print value
        | .returnWord =>
          ∃ value semicolon,
            (unlessNext .semicolon none (some <$> expression d)).Gives tl value
              (semicolon :: rest) ∧
            semicolon.kind = .semicolon ∧ s = .returns t value
        | .whileWord =>
          ∃ paren condition close body mid mid', tl = paren :: mid ∧ paren.kind = .leftParen ∧
            (expression d).Gives mid condition (close :: mid') ∧ close.kind = .rightParen ∧
            (statement d).Gives mid' body rest ∧ s = .loop condition body
        | .leftBrace => ∃ body, (blockRest d).Gives tl body rest ∧ s = .block body
        | _ => (expressionStatement d).Gives ts s rest := by
  rw [statement, peek_bind_gives]
  refine exists_congr fun t => exists_congr fun tl => and_congr_right fun h => ?_
  subst h
  split <;>
    simp only [seqRight_gives, bind_gives, map_gives, advance_gives, require_gives, pure_gives,
      Requirement.kind]
  all_goals constructor <;> grind

/-- The clauses of a counting loop behind its keyword, each as its own production reads it: in
parentheses the first one with the semicolon that ends it, the condition and the increment, and
then the body. -/
def ForClauses (d : Nat) (ts : List Token) (initial : Option Stmt)
    (condition increment : Option Expr) (body : Stmt) (rest : List Token) : Prop :=
  ∃ paren semicolon close mid mid' mid'' mid''',
    ts = paren :: mid ∧ paren.kind = .leftParen ∧ (forInitial d).Gives mid initial mid' ∧
    (unlessNext .semicolon none (some <$> expression d)).Gives mid' condition
      (semicolon :: mid'') ∧
    semicolon.kind = .semicolon ∧
    (unlessNext .rightParen none (some <$> expression d)).Gives mid'' increment
      (close :: mid''') ∧
    close.kind = .rightParen ∧ (statement d).Gives mid''' body rest

theorem forRest_gives {s : Stmt} :
    (forRest (d + 1)).Gives ts s rest ↔
      ∃ initial condition increment body, ForClauses d ts initial condition increment body rest ∧
        s = forLoop initial condition increment body := by
  simp only [forRest, ForClauses, bind_gives, require_gives, pure_gives, Requirement.kind]
  constructor <;> grind

theorem forInitial_gives {initial : Option Stmt} :
    (forInitial (d + 1)).Gives ts initial rest ↔
      ∃ t tl, ts = t :: tl ∧
        match t.kind with
        | .semicolon => initial = none ∧ rest = tl
        | .varWord => ∃ s, (varRest d).Gives tl s rest ∧ initial = some s
        | _ => ∃ s, (expressionStatement d).Gives ts s rest ∧ initial = some s := by
  rw [forInitial, peek_bind_gives]
  refine exists_congr fun t => exists_congr fun tl => and_congr_right fun h => ?_
  subst h
  split <;> simp only [seqRight_gives, map_gives, advance_gives, pure_gives]
  all_goals constructor <;> grind

theorem ifRest_gives {s : Stmt} :
    (ifRest (d + 1)).Gives ts s rest ↔
      ∃ paren condition close consequent alternative mid mid' mid'', ts = paren :: mid ∧
        paren.kind = .leftParen ∧ (expression d).Gives mid condition (close :: mid') ∧
        close.kind = .rightParen ∧ (statement d).Gives mid' consequent mid'' ∧
        (following .elseWord (statement d)).Gives mid'' alternative rest ∧
        s = .branch condition consequent alternative := by
  simp only [ifRest, bind_gives, require_gives, pure_gives, Requirement.kind]
  constructor <;> grind

theorem items_gives {found : List Stmt} :
    (items (d + 1)).Gives ts found rest ↔
      ∃ t tl, ts = t :: tl ∧
        if t.kind = .endOfText then found = [] ∧ rest = ts
        else ∃ item mid others, (declaration d).Gives ts item mid ∧
          (items d).Gives mid others rest ∧ found = item :: others := by
  rw [items, peek_bind_gives]
  refine exists_congr fun t => exists_congr fun tl => and_congr_right fun h => ?_
  subst h
  split <;> simp_all only [bind_gives, pure_gives]
  all_goals constructor <;> grind

theorem loneExpression_gives {e : Expr} :
    (loneExpression d).Gives ts e rest ↔
      (expression d).Gives ts e rest ∧ ∃ t, rest.head? = some t ∧ t.kind = .endOfText := by
  simp only [loneExpression, bind_gives, peek_gives]
  constructor
  · rintro ⟨e', mid, h, t, mid', ⟨rfl, next⟩, h'⟩
    split at h' <;> simp_all
  · rintro ⟨h, t, next, ends⟩
    exact ⟨e, rest, h, t, rest, ⟨rfl, next⟩, by simp [ends]⟩

end TreeWalk.Grammar
