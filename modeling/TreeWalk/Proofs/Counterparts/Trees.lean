import TreeWalk.Proofs.Grammar.Writing

/-!
# Trees that differ in their lines

Two trees are alike if they have the same shape, and the tokens at the same places are
counterparts: the same words, perhaps on different lines. The distances of their
references are the same.

## Implementation notes

Which tokens are counterparts is left open, so that it can say more than that they are
the same words: for example that they stand at the same place in two rows of tokens.
-/

namespace TreeWalk

/-- Two tokens agree in everything but the line. -/
structure Token.SameWord (t u : Token) : Prop where
  kind : t.kind = u.kind
  lexeme : t.lexeme = u.lexeme
  literal : t.literal = u.literal

/-- A choice of which tokens are counterparts of each other; they are the same words. -/
structure Correspondence where
  relates : Token → Token → Prop
  sameWord : ∀ {t u : Token}, relates t u → t.SameWord u

variable {R : Correspondence}

/-- Two uses of a name are alike. -/
structure Reference.Like (R : Correspondence) (r r' : Reference) : Prop where
  name : R.relates r.name r'.name
  distance : r.distance = r'.distance

mutual

/-- Two expressions are alike. -/
inductive Expr.Like (R : Correspondence) : Expr → Expr → Prop
  | literal {value : Scalar} : Expr.Like R (.literal value) (.literal value)
  | variable {r r' : Reference} : r.Like R r' → Expr.Like R (.variable r) (.variable r')
  | assign {r r' : Reference} {value value' : Expr} : r.Like R r' → Expr.Like R value value' →
      Expr.Like R (.assign r value) (.assign r' value')
  | this {r r' : Reference} : r.Like R r' → Expr.Like R (.this r) (.this r')
  | super {r r' : Reference} {method method' : Token} : r.Like R r' →
      R.relates method method' → Expr.Like R (.super r method) (.super r' method')
  | grouping {inner inner' : Expr} : Expr.Like R inner inner' →
      Expr.Like R (.grouping inner) (.grouping inner')
  | unary {operator operator' : Token} {operand operand' : Expr} :
      R.relates operator operator' → Expr.Like R operand operand' →
      Expr.Like R (.unary operator operand) (.unary operator' operand')
  | binary {left left' right right' : Expr} {operator operator' : Token} :
      Expr.Like R left left' → R.relates operator operator' → Expr.Like R right right' →
      Expr.Like R (.binary left operator right) (.binary left' operator' right')
  | logical {left left' right right' : Expr} {operator operator' : Token} :
      Expr.Like R left left' → R.relates operator operator' → Expr.Like R right right' →
      Expr.Like R (.logical left operator right) (.logical left' operator' right')
  | conditional {condition condition' consequent consequent' alternative alternative' : Expr} :
      Expr.Like R condition condition' → Expr.Like R consequent consequent' →
      Expr.Like R alternative alternative' →
      Expr.Like R (.conditional condition consequent alternative)
        (.conditional condition' consequent' alternative')
  | comma {items items' : List Expr} : List.Forall₂ (Expr.Like R) items items' →
      Expr.Like R (.comma items) (.comma items')
  | call {callee callee' : Expr} {paren paren' : Token} {arguments arguments' : List Expr} :
      Expr.Like R callee callee' → R.relates paren paren' →
      List.Forall₂ (Expr.Like R) arguments arguments' →
      Expr.Like R (.call callee paren arguments) (.call callee' paren' arguments')
  | get {object object' : Expr} {name name' : Token} : Expr.Like R object object' →
      R.relates name name' → Expr.Like R (.get object name) (.get object' name')
  | set {object object' value value' : Expr} {name name' : Token} :
      Expr.Like R object object' → R.relates name name' → Expr.Like R value value' →
      Expr.Like R (.set object name value) (.set object' name' value')
  | lambda {keyword keyword' : Token} {params params' : List Token} {body body' : List Stmt} :
      R.relates keyword keyword' → List.Forall₂ R.relates params params' →
      List.Forall₂ (Stmt.Like R) body body' →
      Expr.Like R (.lambda keyword params body) (.lambda keyword' params' body')

/-- Two statements are alike. -/
inductive Stmt.Like (R : Correspondence) : Stmt → Stmt → Prop
  | expression {value value' : Expr} : Expr.Like R value value' →
      Stmt.Like R (.expression value) (.expression value')
  | print {value value' : Expr} : Expr.Like R value value' →
      Stmt.Like R (.print value) (.print value')
  | varDecl {name name' : Token} {initial initial' : Option Expr} : R.relates name name' →
      Option.Rel (Expr.Like R) initial initial' →
      Stmt.Like R (.varDecl name initial) (.varDecl name' initial')
  | block {body body' : List Stmt} : List.Forall₂ (Stmt.Like R) body body' →
      Stmt.Like R (.block body) (.block body')
  | branch {condition condition' : Expr} {consequent consequent' : Stmt}
      {alternative alternative' : Option Stmt} : Expr.Like R condition condition' →
      Stmt.Like R consequent consequent' → Option.Rel (Stmt.Like R) alternative alternative' →
      Stmt.Like R (.branch condition consequent alternative)
        (.branch condition' consequent' alternative')
  | loop {condition condition' : Expr} {body body' : Stmt} : Expr.Like R condition condition' →
      Stmt.Like R body body' → Stmt.Like R (.loop condition body) (.loop condition' body')
  | functionDecl {function function' : FunctionDecl} : FunctionDecl.Like R function function' →
      Stmt.Like R (.functionDecl function) (.functionDecl function')
  | classDecl {name name' : Token} {parent parent' : Option Reference}
      {methods methods' : List FunctionDecl} : R.relates name name' →
      Option.Rel (Reference.Like R) parent parent' →
      List.Forall₂ (FunctionDecl.Like R) methods methods' →
      Stmt.Like R (.classDecl name parent methods) (.classDecl name' parent' methods')
  | returns {keyword keyword' : Token} {value value' : Option Expr} :
      R.relates keyword keyword' → Option.Rel (Expr.Like R) value value' →
      Stmt.Like R (.returns keyword value) (.returns keyword' value')

/-- Two functions with their names are alike. -/
inductive FunctionDecl.Like (R : Correspondence) : FunctionDecl → FunctionDecl → Prop
  | mk {name name' : Token} {params params' : List Token} {body body' : List Stmt} :
      R.relates name name' → List.Forall₂ R.relates params params' →
      List.Forall₂ (Stmt.Like R) body body' →
      FunctionDecl.Like R (.mk name params body) (.mk name' params' body')

end

/-- All tokens that these words have kept are counterparts of themselves. -/
def Correspondence.Fixes (R : Correspondence) (words : List Word) : Prop :=
  ∀ t, .kept t ∈ words → R.relates t t

namespace Correspondence.Fixes

variable {ws ws' : List Word} {w : Word} {t : Token}

theorem append_left (h : R.Fixes (ws ++ ws')) : R.Fixes ws :=
  fun t kept => h t (List.mem_append_left _ kept)

theorem append_right (h : R.Fixes (ws ++ ws')) : R.Fixes ws' :=
  fun t kept => h t (List.mem_append_right _ kept)

theorem tail (h : R.Fixes (w :: ws)) : R.Fixes ws :=
  fun t kept => h t (List.mem_cons_of_mem _ kept)

theorem head (h : R.Fixes (.kept t :: ws)) : R.relates t t := h t List.mem_cons_self

theorem names {params : List Token} (h : R.Fixes (nameWords params)) :
    List.Forall₂ R.relates params params :=
  List.forall₂_same.2 fun t among => h t (mem_nameWords among)

theorem reference {r : Reference} (h : R.Fixes (.kept r.name :: ws)) : r.Like R r := ⟨h.head, rfl⟩

end Correspondence.Fixes

mutual

/-- A tree whose tokens are counterparts of themselves is like itself. -/
theorem Expr.like_self : ∀ e : Expr, R.Fixes e.words → e.Like R e
  | .literal _, _ => .literal
  | .variable _, h => .variable h.reference
  | .assign _ value, h => .assign h.reference (value.like_self h.tail.tail)
  | .this _, h => .this h.reference
  | .super _ _, h => .super h.reference h.tail.tail.head
  | .grouping inner, h => .grouping (inner.like_self h.tail.append_left)
  | .unary _ operand, h => .unary h.head (operand.like_self h.tail)
  | .binary left _ right, h =>
    .binary (left.like_self h.append_left) h.append_right.head
      (right.like_self h.append_right.tail)
  | .logical left _ right, h =>
    .logical (left.like_self h.append_left) h.append_right.head
      (right.like_self h.append_right.tail)
  | .conditional condition consequent alternative, h =>
    .conditional (condition.like_self h.append_left)
      (consequent.like_self h.append_right.tail.append_left)
      (alternative.like_self h.append_right.tail.append_right.tail)
  | .comma items, h => .comma (Expr.list_like_self items h)
  | .call callee _ arguments, h =>
    .call (callee.like_self h.append_left) h.append_right.tail.append_right.head
      (Expr.list_like_self arguments h.append_right.tail.append_left)
  | .get object _, h =>
    .get (object.like_self h.append_left) h.append_right.tail.head
  | .set object _ value, h =>
    .set (object.like_self h.append_left) h.append_right.tail.head
      (value.like_self h.append_right.tail.tail.tail)
  | .lambda _ _ body, h =>
    .lambda h.head h.tail.tail.append_left.names
      (Stmt.row_like_self body h.tail.tail.append_right.tail.tail.append_left)

theorem Expr.list_like_self : ∀ items : List Expr, R.Fixes (Expr.listWords items) →
    List.Forall₂ (Expr.Like R) items items
  | [], _ => .nil
  | item :: others, h =>
    .cons (item.like_self h.append_left) (Expr.more_like_self others h.append_right)

theorem Expr.more_like_self : ∀ items : List Expr, R.Fixes (Expr.moreWords items) →
    List.Forall₂ (Expr.Like R) items items
  | [], _ => .nil
  | item :: others, h =>
    .cons (item.like_self h.tail.append_left) (Expr.more_like_self others h.tail.append_right)

theorem Stmt.like_self : ∀ s : Stmt, R.Fixes s.words → s.Like R s
  | .expression value, h => .expression (value.like_self h.append_left)
  | .print value, h => .print (value.like_self h.tail.append_left)
  | .varDecl _ none, h => .varDecl h.tail.head .none
  | .varDecl _ (some initial), h =>
    .varDecl h.tail.head (.some (initial.like_self h.tail.tail.tail.append_left))
  | .block body, h => .block (Stmt.row_like_self body h.tail.append_left)
  | .branch condition consequent none, h =>
    .branch (condition.like_self h.tail.tail.append_left)
      (consequent.like_self h.tail.tail.append_right.tail) .none
  | .branch condition consequent (some alternative), h =>
    .branch (condition.like_self h.tail.tail.append_left)
      (consequent.like_self h.tail.tail.append_right.tail.append_left)
      (.some (alternative.like_self h.tail.tail.append_right.tail.append_right.tail))
  | .loop condition body, h =>
    .loop (condition.like_self h.tail.tail.append_left)
      (body.like_self h.tail.tail.append_right.tail)
  | .functionDecl function, h => .functionDecl (function.like_self h.tail)
  | .classDecl _ none methods, h =>
    .classDecl h.tail.head .none (FunctionDecl.row_like_self methods h.tail.tail.tail.append_left)
  | .classDecl _ (some _) methods, h =>
    .classDecl h.tail.head (.some h.tail.tail.tail.reference)
      (FunctionDecl.row_like_self methods h.tail.tail.tail.tail.tail.append_left)
  | .returns _ none, h => .returns h.head .none
  | .returns _ (some value), h =>
    .returns h.head (.some (value.like_self h.tail.append_left))

theorem Stmt.row_like_self : ∀ body : List Stmt, R.Fixes (Stmt.rowWords body) →
    List.Forall₂ (Stmt.Like R) body body
  | [], _ => .nil
  | s :: others, h =>
    .cons (s.like_self h.append_left) (Stmt.row_like_self others h.append_right)

theorem FunctionDecl.like_self : ∀ f : FunctionDecl, R.Fixes f.words → f.Like R f
  | .mk _ _ body, h =>
    .mk h.head h.tail.tail.append_left.names
      (Stmt.row_like_self body h.tail.tail.append_right.tail.tail.append_left)

theorem FunctionDecl.row_like_self : ∀ members : List FunctionDecl,
    R.Fixes (FunctionDecl.rowWords members) → List.Forall₂ (FunctionDecl.Like R) members members
  | [], _ => .nil
  | f :: others, h =>
    .cons (f.like_self h.append_left) (FunctionDecl.row_like_self others h.append_right)

end

end TreeWalk
