import TreeWalk.Proofs.Counterparts.Machines

/-!
# Runs do not look at lines

Trees that are alike run alike on machines that are: they come to the same value, print
the same and leave the same variables and objects, or they stop for the same reason at
tokens that are counterparts.

## Implementation notes

The induction is on the fuel, which is the same on both sides; a body that is called was
kept by a machine, and those are alike too.
-/

namespace TreeWalk

variable {α α' : Type} {R : Correspondence} {before before' : String} {n : Nat}

namespace Operators

variable {operator operator' : Token}

theorem refuse_rel {cause : RuntimeCause} (h : R.relates operator operator') :
    Except.Rel (Stop.Like R) Eq (refuse cause operator) (refuse cause operator') :=
  .error (.error h)

theorem quotient_rel (x y : Float) :
    Except.Rel (Stop.Like R) Eq (quotient x y) (quotient x y) := by
  unfold quotient
  split
  · exact .error .fault
  · exact .ok rfl

theorem arithmetic_rel (h : R.relates operator operator') (x y : Float) :
    Except.Rel (Stop.Like R) Eq (arithmetic operator x y) (arithmetic operator' x y) := by
  unfold arithmetic
  rw [(R.sameWord h).kind]
  generalize operator'.kind = kind
  cases kind with
  | greater | greaterEqual | less | lessEqual | minus | star => exact .ok rfl
  | slash =>
    dsimp only
    split
    · exact refuse_rel h
    · exact quotient_rel x y
  | _ => exact refuse_rel h

theorem binary_rel (h : R.relates operator operator') (left right : Value) :
    Except.Rel (Stop.Like R) Eq (binary operator left right) (binary operator' left right) := by
  unfold binary
  rw [(R.sameWord h).kind]
  split
  · exact .ok rfl
  · exact .ok rfl
  · split
    · exact .ok rfl
    · exact .ok rfl
    · exact refuse_rel h
  · split
    · exact arithmetic_rel h _ _
    · exact refuse_rel h

theorem unary_rel (h : R.relates operator operator') (operand : Value) :
    Except.Rel (Stop.Like R) Eq (unary operator operand) (unary operator' operand) := by
  unfold unary
  rw [(R.sameWord h).kind]
  split
  · exact .ok rfl
  · split
    · exact .ok rfl
    · exact refuse_rel h
  · exact refuse_rel h

end Operators

open Eval

theorem calleeArity_paired {t u : Token} (callee : Value) (h : R.relates t u) :
    Paired (likeness R before before') Eq (calleeArity callee t) (calleeArity callee u) := by
  refine inspect_paired fun m m' alike => ?_
  rw [alike.arity?]
  split
  · exact .ok rfl
  · exact .error (.error h)

theorem closeOver_paired (name : Option String) {params params' : List Token}
    {body body' : List Stmt} (rows : List.Forall₂ R.relates params params')
    (alike : List.Forall₂ (Stmt.Like R) body body') :
    Paired (likeness R before before') Eq (closeOver name params body)
      (closeOver name params' body') := by
  refine Paired.get.bind fun m m' same => ?_
  rw [Machine.Like.current same]
  refine (newClosure_paired ?_).bind_same fun _ => .pure rfl
  exact ⟨rfl, rows, alike, rfl, rfl⟩

/-- With some fuel trees that are alike run alike. -/
structure RunsPaired (R : Correspondence) (before before' : String) (n : Nat) : Prop where
  evaluate {e e' : Expr} : e.Like R e' →
    Paired (likeness R before before') Eq (evaluate n e) (evaluate n e')
  evaluateEach {items items' : List Expr} : List.Forall₂ (Expr.Like R) items items' →
    Paired (likeness R before before') Eq (evaluateEach n items) (evaluateEach n items')
  apply (callee : Value) (arguments : List Value) :
    Paired (likeness R before before') Eq (apply n callee arguments) (apply n callee arguments)
  enter {c c' : Closure} (arguments : List Value) : c.Like R c' →
    Paired (likeness R before before') Eq (enter n c arguments) (enter n c' arguments)
  execute {s s' : Stmt} : s.Like R s' →
    Paired (likeness R before before') Eq (execute n s) (execute n s')
  executeEach {body body' : List Stmt} : List.Forall₂ (Stmt.Like R) body body' →
    Paired (likeness R before before') Eq (executeEach n body) (executeEach n body')

section

variable (ih : RunsPaired R before before' n)

include ih

theorem evaluate_paired {e e' : Expr} (h : e.Like R e') :
    Paired (likeness R before before') Eq (evaluate (n + 1) e) (evaluate (n + 1) e') := by
  cases h with
  | literal => exact .pure rfl
  | «variable» same => exact readReference_paired same
  | assign same alike =>
    exact (ih.evaluate alike).bind_same fun value =>
      (writeReference_paired same value).bind_same fun _ => .pure rfl
  | this same => exact readReference_paired same
  | super same method => exact readSuper_paired same method
  | grouping alike => exact ih.evaluate alike
  | unary operator alike =>
    exact (ih.evaluate alike).bind_same fun operand =>
      operate_paired (Operators.unary_rel operator operand)
  | binary alike operator alike' =>
    exact (ih.evaluate alike).bind_same fun left => (ih.evaluate alike').bind_same fun right =>
      operate_paired (Operators.binary_rel operator left right)
  | logical alike operator alike' =>
    refine (ih.evaluate alike).bind_same fun left => ?_
    rw [(R.sameWord operator).kind]
    exact .ite Iff.rfl (.pure rfl) (ih.evaluate alike')
  | conditional first second third =>
    exact (ih.evaluate first).bind_same fun condition =>
      .ite Iff.rfl (ih.evaluate second) (ih.evaluate third)
  | comma rows => exact (ih.evaluateEach rows).bind_same fun _ => .pure rfl
  | call alike paren rows =>
    refine (ih.evaluate alike).bind_same fun callee =>
      (calleeArity_paired callee paren).bind_same fun arity => ?_
    rw [rows.length_eq]
    exact .ite Iff.rfl (raise_paired paren)
      ((ih.evaluateEach rows).bind_same fun arguments => ih.apply callee arguments)
  | get alike name =>
    refine (ih.evaluate alike).bind_same fun object => ?_
    cases object with
    | object id => exact readProperty_paired id name
    | _ => exact raise_paired name
  | set alike name alike' =>
    refine (ih.evaluate alike).bind_same fun object => ?_
    cases object with
    | object id =>
      refine (ih.evaluate alike').bind_same fun value => ?_
      rw [(R.sameWord name).lexeme]
      exact (writeField_paired id _ value).bind_same fun _ => .pure rfl
    | _ => exact raise_paired name
  | lambda keyword params rows => exact closeOver_paired none params rows

theorem evaluateEach_paired {items items' : List Expr}
    (rows : List.Forall₂ (Expr.Like R) items items') :
    Paired (likeness R before before') Eq (evaluateEach (n + 1) items)
      (evaluateEach (n + 1) items') := by
  cases rows with
  | nil => exact .pure rfl
  | cons alike rows =>
    exact (ih.evaluate alike).bind_same fun value =>
      (ih.evaluateEach rows).bind_same fun _ => .pure rfl

theorem apply_paired (callee : Value) (arguments : List Value) :
    Paired (likeness R before before') Eq (apply (n + 1) callee arguments)
      (apply (n + 1) callee arguments) := by
  cases callee with
  | closure id => exact (closureOf_paired id).bind fun _ _ closure => ih.enter arguments closure
  | classRef id =>
    refine (newObject_paired id).bind_same fun object => (findMethod_paired id _).bind_same
      fun found => ?_
    cases found with
    | none => exact .pure rfl
    | some initializer =>
      exact (bind_paired initializer _).bind_same fun bound => (closureOf_paired bound).bind
        fun _ _ closure => (ih.enter arguments closure).bind_same fun _ => .pure rfl
  | clock => exact readClock_paired
  | _ => exact .throw .fault

theorem enter_paired {c c' : Closure} (arguments : List Value) (h : c.Like R c') :
    Paired (likeness R before before') Eq (enter (n + 1) c arguments)
      (enter (n + 1) c' arguments) := by
  simp only [enter, Clauses.enter, h.frame, h.isInitializer]
  refine (newFrame_paired _).bind_same fun outer =>
    (defineEach_paired outer h.params arguments).bind_same fun _ =>
    (newFrame_paired outer).bind_same fun inner =>
    (inFrame_paired inner (ih.executeEach h.body)).bind_same fun completion => ?_
  exact .ite Iff.rfl (thisOf_paired _) (.pure rfl)

theorem execute_paired {s s' : Stmt} (h : s.Like R s') :
    Paired (likeness R before before') Eq (execute (n + 1) s) (execute (n + 1) s') := by
  cases h with
  | expression alike => exact (ih.evaluate alike).bind_same fun _ => .pure rfl
  | print alike =>
    refine (ih.evaluate alike).bind_same fun value => Paired.get.bind fun m m' same => ?_
    rw [Machine.Like.text same]
    exact (print_paired _).bind_same fun _ => .pure rfl
  | varDecl name initial =>
    cases initial with
    | none =>
      simp only [execute, Clauses.execute, (R.sameWord name).lexeme]
      exact (defineHere_paired _ _).bind_same fun _ => .pure rfl
    | some alike =>
      simp only [execute, Clauses.execute, (R.sameWord name).lexeme]
      exact (ih.evaluate alike).bind_same fun value =>
        (defineHere_paired _ value).bind_same fun _ => .pure rfl
  | block rows =>
    refine Paired.get.bind fun m m' same => ?_
    rw [Machine.Like.current same]
    exact (newFrame_paired _).bind_same fun frame => inFrame_paired frame (ih.executeEach rows)
  | branch first second third =>
    refine (ih.evaluate first).bind_same fun condition => .ite Iff.rfl (ih.execute second) ?_
    cases third with
    | none => exact .pure rfl
    | some alike => exact ih.execute alike
  | loop first second =>
    refine (ih.evaluate first).bind_same fun value => .ite Iff.rfl ?_ (.pure rfl)
    refine (ih.execute second).bind_same fun completion => ?_
    cases completion with
    | normal => exact ih.execute (.loop first second)
    | returned value => exact .pure rfl
  | functionDecl function =>
    cases function with
    | mk name params rows =>
      simp only [execute, Clauses.execute, FunctionDecl.name, FunctionDecl.params,
        FunctionDecl.body, (R.sameWord name).lexeme]
      exact (closeOver_paired _ params rows).bind_same fun value =>
        (defineHere_paired _ value).bind_same fun _ => .pure rfl
  | classDecl name parent methods =>
    exact (declareClass_paired name parent methods).bind_same fun _ => .pure rfl
  | returns keyword value =>
    cases value with
    | none => exact .pure rfl
    | some alike => exact (ih.evaluate alike).bind_same fun _ => .pure rfl

theorem executeEach_paired {body body' : List Stmt} (rows : List.Forall₂ (Stmt.Like R) body body') :
    Paired (likeness R before before') Eq (executeEach (n + 1) body)
      (executeEach (n + 1) body') := by
  cases rows with
  | nil => exact .pure rfl
  | cons alike rows =>
    refine (ih.execute alike).bind_same fun completion => ?_
    cases completion with
    | normal => exact ih.executeEach rows
    | returned value => exact .pure rfl

end

theorem runsPaired (R : Correspondence) (before before' : String) (n : Nat) :
    RunsPaired R before before' n := by
  induction n with
  | zero => constructor <;> intros <;> exact .throw .outOfFuel
  | succ n ih =>
    exact
      { evaluate := evaluate_paired ih
        evaluateEach := evaluateEach_paired ih
        apply := apply_paired ih
        enter := enter_paired ih
        execute := execute_paired ih
        executeEach := executeEach_paired ih }

/-- Programs that are alike run alike. -/
theorem interpret_paired (fuel : Nat) {program program' : List Stmt}
    (rows : List.Forall₂ (Stmt.Like R) program program') :
    Paired (likeness R before before') Eq (interpret fuel program) (interpret fuel program') :=
  .forM rows fun _ _ alike =>
    ((runsPaired R before before' fuel).execute alike).bind_same fun _ => .pure rfl

end TreeWalk
