import TreeWalk.Proofs.Counterparts.Scopes
import TreeWalk.Scope.Resolution

/-!
# The scope rules do not look at lines

Trees that are alike get the same distances, or violate the same rule at tokens that are
counterparts.

## Implementation notes

The induction is on the first tree; that the second one is like it tells its form.
-/

namespace TreeWalk

open Resolve

variable {R : Correspondence} {before before' : List Located}

theorem methodContext_eq {t u : Token} (h : R.relates t u) : methodContext t = methodContext u := by
  rw [methodContext, methodContext, (R.sameWord h).lexeme]

mutual

/-- Expressions that are alike are resolved alike. -/
theorem Expr.resolve_paired : ∀ (e : Expr) {e' : Expr}, e.Like R e' →
    Paired (likeness R before before') (Expr.Like R) e.resolve e'.resolve
  | .literal _, _, h => by
    cases h
    rw [Expr.resolve]
    exact .pure .literal
  | .variable _, _, h => by
    cases h with | «variable» same
    rw [Expr.resolve, Expr.resolve]
    exact (readVariable_paired same).bind fun _ _ found => .pure (.variable found)
  | .assign _ value, _, h => by
    cases h with | assign same alike
    rw [Expr.resolve, Expr.resolve]
    exact (value.resolve_paired alike).bind fun _ _ value =>
      (locate_paired .assign same).bind fun _ _ found => .pure (.assign found value)
  | .this _, _, h => by
    cases h with | this same
    rw [Expr.resolve, Expr.resolve]
    exact (checkThis_paired same.name).bind_same fun _ =>
      (locate_paired .this same).bind fun _ _ found => .pure (.this found)
  | .super _ _, _, h => by
    cases h with | super same method
    rw [Expr.resolve, Expr.resolve]
    exact (checkSuper_paired same.name).bind_same fun _ =>
      (locate_paired .super same).bind fun _ _ found => .pure (.super found method)
  | .grouping inner, _, h => by
    cases h with | grouping alike
    rw [Expr.resolve, Expr.resolve]
    exact (inner.resolve_paired alike).bind fun _ _ inner => .pure (.grouping inner)
  | .unary _ operand, _, h => by
    cases h with | unary operator alike
    rw [Expr.resolve, Expr.resolve]
    exact (operand.resolve_paired alike).bind fun _ _ operand => .pure (.unary operator operand)
  | .binary left _ right, _, h => by
    cases h with | binary alike operator alike'
    rw [Expr.resolve, Expr.resolve]
    exact (left.resolve_paired alike).bind fun _ _ left =>
      (right.resolve_paired alike').bind fun _ _ right => .pure (.binary left operator right)
  | .logical left _ right, _, h => by
    cases h with | logical alike operator alike'
    rw [Expr.resolve, Expr.resolve]
    exact (left.resolve_paired alike).bind fun _ _ left =>
      (right.resolve_paired alike').bind fun _ _ right => .pure (.logical left operator right)
  | .conditional condition consequent alternative, _, h => by
    cases h with | conditional first second third
    rw [Expr.resolve, Expr.resolve]
    exact (condition.resolve_paired first).bind fun _ _ condition =>
      (consequent.resolve_paired second).bind fun _ _ consequent =>
        (alternative.resolve_paired third).bind fun _ _ alternative =>
          .pure (.conditional condition consequent alternative)
  | .comma items, _, h => by
    cases h with | comma rows
    rw [Expr.resolve, Expr.resolve]
    exact (Expr.resolveEach_paired items rows).bind fun _ _ items => .pure (.comma items)
  | .call callee _ arguments, _, h => by
    cases h with | call alike paren rows
    rw [Expr.resolve, Expr.resolve]
    exact (callee.resolve_paired alike).bind fun _ _ callee =>
      (Expr.resolveEach_paired arguments rows).bind fun _ _ arguments =>
        .pure (.call callee paren arguments)
  | .get object _, _, h => by
    cases h with | get alike name
    rw [Expr.resolve, Expr.resolve]
    exact (object.resolve_paired alike).bind fun _ _ object => .pure (.get object name)
  | .set object _ value, _, h => by
    cases h with | set alike name alike'
    rw [Expr.resolve, Expr.resolve]
    exact (value.resolve_paired alike').bind fun _ _ value =>
      (object.resolve_paired alike).bind fun _ _ object => .pure (.set object name value)
  | .lambda _ _ body, _, h => by
    cases h with | lambda keyword params rows
    rw [Expr.resolve, Expr.resolve]
    exact (routine_paired .function params (Stmt.resolveEach_paired body rows)).bind
      fun _ _ body => .pure (.lambda keyword params body)
termination_by structural e => e

theorem Expr.resolveEach_paired : ∀ (items : List Expr) {items' : List Expr},
    List.Forall₂ (Expr.Like R) items items' → Paired (likeness R before before')
      (List.Forall₂ (Expr.Like R)) (Expr.resolveEach items) (Expr.resolveEach items')
  | [], _, rows => by
    cases rows
    rw [Expr.resolveEach]
    exact .pure .nil
  | e :: rest, _, rows => by
    cases rows with | cons alike rows
    rw [Expr.resolveEach, Expr.resolveEach]
    exact (e.resolve_paired alike).bind fun _ _ e =>
      (Expr.resolveEach_paired rest rows).bind fun _ _ rest => .pure (.cons e rest)
termination_by structural items => items

/-- Statements that are alike are resolved alike. -/
theorem Stmt.resolve_paired : ∀ (s : Stmt) {s' : Stmt}, s.Like R s' →
    Paired (likeness R before before') (Stmt.Like R) s.resolve s'.resolve
  | .expression value, _, h => by
    cases h with | expression alike
    rw [Stmt.resolve, Stmt.resolve]
    exact (value.resolve_paired alike).bind fun _ _ value => .pure (.expression value)
  | .print value, _, h => by
    cases h with | print alike
    rw [Stmt.resolve, Stmt.resolve]
    exact (value.resolve_paired alike).bind fun _ _ value => .pure (.print value)
  | .varDecl _ none, _, h => by
    cases h with | varDecl name absent
    cases absent
    rw [Stmt.resolve, Stmt.resolve]
    exact (declareReady_paired name).bind_same fun _ => .pure (.varDecl name .none)
  | .varDecl _ (some initial), _, h => by
    cases h with | varDecl name present
    cases present with | some alike
    rw [Stmt.resolve, Stmt.resolve]
    exact (declare_paired name).bind_same fun _ =>
      (initial.resolve_paired alike).bind fun _ _ initial =>
        (settle_paired name).bind_same fun _ => .pure (.varDecl name (.some initial))
  | .block body, _, h => by
    cases h with | block rows
    rw [Stmt.resolve, Stmt.resolve]
    exact inScope_paired .empty ((Stmt.resolveEach_paired body rows).bind fun _ _ body =>
      checkBlock_paired.bind_same fun _ => .pure (.block body))
  | .branch condition consequent none, _, h => by
    cases h with | branch first second absent
    cases absent
    rw [Stmt.resolve, Stmt.resolve]
    exact (condition.resolve_paired first).bind fun _ _ condition =>
      (consequent.resolve_paired second).bind fun _ _ consequent =>
        .pure (.branch condition consequent .none)
  | .branch condition consequent (some alternative), _, h => by
    cases h with | branch first second present
    cases present with | some third
    rw [Stmt.resolve, Stmt.resolve]
    exact (condition.resolve_paired first).bind fun _ _ condition =>
      (consequent.resolve_paired second).bind fun _ _ consequent =>
        (alternative.resolve_paired third).bind fun _ _ alternative =>
          .pure (.branch condition consequent (.some alternative))
  | .loop condition body, _, h => by
    cases h with | loop first second
    rw [Stmt.resolve, Stmt.resolve]
    exact (condition.resolve_paired first).bind fun _ _ condition =>
      (body.resolve_paired second).bind fun _ _ body => .pure (.loop condition body)
  | .functionDecl (.mk _ _ body), _, h => by
    cases h with | functionDecl function
    cases function with | mk name params rows
    rw [Stmt.resolve, Stmt.resolve]
    exact (declareReady_paired name).bind_same fun _ =>
      (routine_paired .function params (Stmt.resolveEach_paired body rows)).bind
        fun _ _ body => .pure (.functionDecl (.mk name params body))
  | .classDecl _ _ methods, _, h => by
    cases h with | classDecl name same rows
    rw [Stmt.resolve, Stmt.resolve, isSome_eq_of_rel same]
    refine inClass_paired _ ((declareReady_paired name).bind_same fun _ =>
      (superclass_paired name same).bind fun _ _ parent => ?_)
    rw [isSome_eq_of_rel parent]
    exact (inClassScopes_paired _ (FunctionDecl.resolveEach_paired methods rows)).bind
      fun _ _ methods => .pure (.classDecl name parent methods)
  | .returns _ none, _, h => by
    cases h with | returns keyword absent
    cases absent
    rw [Stmt.resolve, Stmt.resolve]
    exact (checkReturn_paired keyword false).bind_same fun _ => .pure (.returns keyword .none)
  | .returns _ (some value), _, h => by
    cases h with | returns keyword present
    cases present with | some alike
    rw [Stmt.resolve, Stmt.resolve]
    exact (checkReturn_paired keyword true).bind_same fun _ =>
      (value.resolve_paired alike).bind fun _ _ value => .pure (.returns keyword (.some value))
termination_by structural s => s

theorem Stmt.resolveEach_paired : ∀ (body : List Stmt) {body' : List Stmt},
    List.Forall₂ (Stmt.Like R) body body' → Paired (likeness R before before')
      (List.Forall₂ (Stmt.Like R)) (Stmt.resolveEach body) (Stmt.resolveEach body')
  | [], _, rows => by
    cases rows
    rw [Stmt.resolveEach]
    exact .pure .nil
  | s :: rest, _, rows => by
    cases rows with | cons alike rows
    rw [Stmt.resolveEach, Stmt.resolveEach]
    exact (s.resolve_paired alike).bind fun _ _ s =>
      (Stmt.resolveEach_paired rest rows).bind fun _ _ rest => .pure (.cons s rest)
termination_by structural body => body

theorem FunctionDecl.resolveEach_paired : ∀ (members : List FunctionDecl)
    {members' : List FunctionDecl}, List.Forall₂ (FunctionDecl.Like R) members members' →
      Paired (likeness R before before') (List.Forall₂ (FunctionDecl.Like R))
        (FunctionDecl.resolveEach members) (FunctionDecl.resolveEach members')
  | [], _, rows => by
    cases rows
    rw [FunctionDecl.resolveEach]
    exact .pure .nil
  | .mk _ _ body :: rest, _, rows => by
    cases rows with | cons method rows
    cases method with | mk name params alike
    rw [FunctionDecl.resolveEach, FunctionDecl.resolveEach, methodContext_eq name]
    exact (routine_paired _ params (Stmt.resolveEach_paired body alike)).bind fun _ _ body =>
      (FunctionDecl.resolveEach_paired rest rows).bind fun _ _ rest =>
        .pure (.cons (.mk name params body) rest)
termination_by structural members => members

end

end TreeWalk
