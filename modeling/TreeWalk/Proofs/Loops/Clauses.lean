import TreeWalk.Proofs.Loops.Running

/-!
# The clauses of a counting loop

The tree that is made of a counting loop runs as its clauses do without the frames of passes. The
scope of the first clause is one of those that distances count, and that of a pass is left out.

## Implementation notes

A loop without an increment whose body is a block of a statement and an expression is the same tree
as the loop with that expression as its increment, and without the frames of passes it is run as
that one.
-/

namespace TreeWalk

/-- The body and behind it the increment, if there is one. -/
def Counting.round (step : Option Expr) (body : Stmt) (fuel : Nat) : Eval Completion :=
  match step with
  | none => Counting.execute fuel body
  | some step => Counting.pass fuel body step

theorem Counting.round_eq {step : Option Expr} {body : Stmt} (plain : body.IsPlain)
    (single : step = none → body.counted? = none) :
    (Evaluator.counting.round · (passTree step body)) = Counting.round step body := by
  funext fuel
  unfold Evaluator.counting
  dsimp only
  cases step with
  | none => rw [passTree, single rfl, round]
  | some step =>
      have counted : (passTree (some step) body).counted? = some (body, step) :=
        Stmt.pass?_eq_some.2 ⟨rfl, plain⟩
      rw [counted, round]

/-- The shape around the condition of a counting loop: its scope if there is a first clause. -/
def Shape.inLoop (initial : Option Stmt) (shape : Shape) : Shape :=
  if initial.isSome then false :: shape else shape

/-- The shape around the body of a counting loop: the scope of a pass if there is an increment. -/
def Shape.inPass (step : Option Expr) (shape : Shape) : Shape :=
  if step.isSome then true :: shape else shape

theorem Stmt.counted?_thin_none {s : Stmt} {shape : Shape} (single : s.counted? = none) :
    (s.thin shape).counted? = none := by
  by_cases block : ∃ items, s = .block items
  · obtain ⟨items, rfl⟩ := block
    rw [thin, counted?, pass?_thinEach, show pass? items = none from single, Option.map_none]
  · exact counted?_thin fun items same => block ⟨items, same⟩

theorem Stmt.thinPass_single {s : Stmt} {shape : Shape} (single : s.counted? = none) :
    s.thinPass shape = s.thin shape := by
  by_cases block : ∃ items, s = .block items
  · obtain ⟨items, rfl⟩ := block
    rw [thin, thinPass, show pass? items = none from single]
    rfl
  · exact thinPass_other fun items same => block ⟨items, same⟩

variable {initial : Option Stmt} {condition step : Option Expr} {body : Stmt}

/-- The scope of the first clause is one of those that distances count, and that of a pass is left
out of those in the body and in the increment. -/
theorem thin_forLoop (shape : Shape) (plain : body.IsPlain)
    (single : step = none → body.counted? = none) :
    (Grammar.forLoop initial condition step body).thin shape =
      Grammar.forLoop (initial.map (Stmt.thin (shape.inLoop initial)))
        (condition.map (Expr.thin (shape.inLoop initial)))
        (step.map (Expr.thin ((shape.inLoop initial).inPass step)))
        (body.thin ((shape.inLoop initial).inPass step)) := by
  have loop (shape : Shape) :
      (Stmt.loop (condition.getD (.literal (.boolean true))) (passTree step body)).thin
        shape =
      .loop ((condition.map (Expr.thin shape)).getD (.literal (.boolean true)))
        (passTree (step.map (Expr.thin (shape.inPass step)))
          (body.thin (shape.inPass step))) := by
    have test : (condition.getD (.literal (.boolean true))).thin shape =
        (condition.map (Expr.thin shape)).getD (.literal (.boolean true)) := by
      cases condition <;> rfl
    rw [Stmt.thin_loop, test]
    cases step with
    | none => exact congrArg _ (Stmt.thinPass_single (single rfl))
    | some step =>
        have counted : Stmt.pass? [body, .expression step] = some (body, step) :=
          Stmt.pass?_eq_some.2 ⟨rfl, plain⟩
        rw [passTree, Stmt.thinPass, counted]
        rfl
  cases initial with
  | none => exact loop shape
  | some first => exact congrArg (fun t => Stmt.block [first.thin _, t]) (loop (false :: shape))

theorem forLoop_isPlain (plain : body.IsPlain) :
    (Grammar.forLoop initial condition step body).IsPlain := by
  cases initial with
  | some => trivial
  | none =>
      cases step with
      | none => exact plain
      | some => trivial

open Erasure in
/-- The tree that is made of a counting loop runs as its clauses do without the frames of passes. -/
theorem forLoop_agrees {E : Erasure} {m : Machine} (n : Nat) (plain : body.IsPlain)
    (single : step = none → body.counted? = none) :
    E.Agrees m SameCompletion (execute n (Grammar.forLoop initial condition step body))
      (let inner := (E.shape m.heap.frames m.current).inLoop initial
       Evaluator.counting.forLoop (initial.map (Stmt.thin inner)) (condition.map (Expr.thin inner))
        (Counting.round (step.map (Expr.thin (inner.inPass step)))
          (body.thin (inner.inPass step))) n) := by
  have run := (runsAgree n).execute (E := E) (m := m)
    (s := Grammar.forLoop initial condition step body) fun _ => forLoop_isPlain plain
  rw [thin_forLoop _ plain single] at run
  have clauses := Evaluator.counting.execute_forLoop
    (initial.map (Stmt.thin ((E.shape m.heap.frames m.current).inLoop initial)))
    (condition.map (Expr.thin ((E.shape m.heap.frames m.current).inLoop initial)))
    (step.map (Expr.thin (((E.shape m.heap.frames m.current).inLoop initial).inPass step)))
    (body.thin (((E.shape m.heap.frames m.current).inLoop initial).inPass step)) n
  rw [Counting.round_eq (Stmt.isPlain_thin.2 plain)] at clauses
  · exact clauses ▸ run
  · intro absent
    have none : step = none := Option.map_eq_none_iff.1 absent
    exact Stmt.counted?_thin_none (single none)

end TreeWalk
