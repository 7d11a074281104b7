import TreeWalk.Proofs.Run.Extending
import TreeWalk.Proofs.Run.Visits

/-!
# Steps in the course of others

What a visit starts lies within it: the heap on which it starts goes on from the one before,
and the heap that it leaves goes on to the one that is left in the end. This holds whether
it ends or stops the run.

## Implementation notes

Where a part of a step is taken, the rest of the step is known not to take anything off the
heap. The rules for this follow the way in which steps are composed, so a visit is taken
apart in the same way as its task.
-/

namespace TreeWalk

open Eval

variable {α β γ : Type} {m m' m₁ : Machine}

namespace Eval

/-- The heap of a machine goes on from that of another one. -/
abbrev Grown : Machine → Machine → Prop := Adds fun _ => True

theorem evaluate_grown (n : Nat) (e : Expr) : (evaluate n e).Leaves Grown :=
  Leaves.of_quiet ((extendsAt n).evaluate e)

theorem evaluateEach_grown (n : Nat) (items : List Expr) : (evaluateEach n items).Leaves Grown :=
  Leaves.of_quiet ((extendsAt n).evaluateEach items)

theorem apply_grown (n : Nat) (callee : Value) (arguments : List Value) :
    (apply n callee arguments).Leaves Grown :=
  Leaves.of_quiet ((extendsAt n).apply callee arguments)

theorem enter_grown (n : Nat) (closure : Closure) (arguments : List Value) :
    (enter n closure arguments).Leaves Grown :=
  Leaves.of_quiet ((extendsAt n).enter closure arguments)

theorem Leaves.grown {act : Eval α} (h : act.Leaves Here) : act.Leaves Grown :=
  fun m => (h m).heap.mono fun _ _ => trivial

theorem execute_grown (n : Nat) (s : Stmt) : (execute n s).Leaves Grown :=
  ((extendsAt n).execute s).grown

theorem executeEach_grown (n : Nat) (body : List Stmt) : (executeEach n body).Leaves Grown :=
  ((extendsAt n).executeEach body).grown

theorem newFrame_grown (parent : FrameId) : (newFrame parent).Leaves Grown :=
  fun m => .push m.heap _

theorem unless_returned {next : Eval Completion} (completion : Completion)
    (grown : next.Leaves Grown) :
    Leaves Grown (match completion with
      | .normal => next
      | .returned value => pure (.returned value)) := by
  cases completion with
  | normal => exact grown
  | returned => exact .pure _

theorem calleeArity_gives {callee : Value} {arity : Nat} (takes : m.heap.arity? callee = some arity)
    (paren : Token) : (calleeArity callee paren).Gives m arity m := by
  simp [EStateM.Gives, EStateM.run, calleeArity, inspect, takes]

/-- The course from `part` to `part'` lies within the one from `m` to `m'`. -/
structure Lies (m m' part part' : Machine) : Prop where
  before : m.heap.Grows part.heap
  behind : part'.heap.Grows m'.heap

theorem Lies.trans {m m' part part' other other' : Machine} (h : Lies m m' part part')
    (h' : Lies part part' other other') : Lies m m' other other' :=
  ⟨h.before.trans h'.before, h'.behind.trans h.behind⟩

/-- In the course of one step another one is taken. -/
abbrev Contains (whole : Eval β) (m : Machine) (part : Eval α) (m' : Machine) : Prop :=
  Lies m (whole.after m) m' (part.after m')

namespace Contains

variable {part : Eval α} {act : Eval β} {f : β → Eval γ}

/-- A step contains itself. -/
theorem self : part.Contains m part m := ⟨.refl _ _, .refl _ _⟩

/-- What follows a step only goes on from what is left by the parts of the step. -/
theorem first (h : act.Contains m part m') (rest : ∀ b, (f b).Leaves Grown) :
    (act >>= f).Contains m part m' where
  before := h.before
  behind := by
    refine h.behind.trans ?_
    cases run : act m with
    | ok b m₁ =>
        have run : act.Gives m b m₁ := run
        rw [after_of_gives run, after_bind_of_gives run]
        exact rest b m₁
    | error stop m₁ =>
        rw [after_of_error run, after_of_error (bind_of_error run)]
        exact .refl _ _

/-- A step that ends well leads to the parts of what follows it. -/
theorem next {b : β} (run : act.Gives m b m₁) (grown : act.Leaves Grown)
    (h : (f b).Contains m₁ part m') : (act >>= f).Contains m part m' where
  before := (grown.gives run).trans h.before
  behind := by
    rw [after_bind_of_gives run]
    exact h.behind

theorem inFrame {frame : FrameId} (h : act.Contains { m with current := frame } part m') :
    (Eval.inFrame frame act).Contains m part m' where
  before := h.before
  behind := by
    have same : ((Eval.inFrame frame act).after m).heap =
        (act.after { m with current := frame }).heap := by
      simp only [after, Eval.inFrame]
      cases act { m with current := frame } <;> rfl
    rw [same]
    exact h.behind

end Contains

end Eval

/-- The machine that a visit leaves. -/
def Visit.after (v : Visit) : Machine :=
  match v.task with
  | .evaluate e => (evaluate v.fuel e).after v.machine
  | .evaluateEach items => (evaluateEach v.fuel items).after v.machine
  | .apply callee arguments => (apply v.fuel callee arguments).after v.machine
  | .enter closure arguments => (enter v.fuel closure arguments).after v.machine
  | .execute s => (execute v.fuel s).after v.machine
  | .executeEach body => (executeEach v.fuel body).after v.machine

theorem Visit.after_grown (v : Visit) : v.machine.heap.Grows v.after.heap := by
  obtain ⟨n, task, m⟩ := v
  cases task with
  | evaluate e => exact evaluate_grown n e m
  | evaluateEach items => exact evaluateEach_grown n items m
  | apply callee arguments => exact apply_grown n callee arguments m
  | enter closure arguments => exact enter_grown n closure arguments m
  | execute s => exact execute_grown n s m
  | executeEach body => exact executeEach_grown n body m

/-- What a visit starts lies within it. -/
theorem Starts.lies {v v' : Visit} (h : Starts v v') :
    Lies v.machine v.after v'.machine v'.after := by
  cases h with
  | assigned =>
      exact Contains.first .self fun _ =>
        .bind (Leaves.of_quiet (writeReference_quiet _ _)) fun _ => .pure _
  | grouping => exact Contains.self
  | unary => exact Contains.first .self fun _ => Leaves.of_quiet (operate_quiet _)
  | binaryLeft =>
      exact Contains.first .self fun _ => .bind (evaluate_grown _ _) fun _ =>
        Leaves.of_quiet (operate_quiet _)
  | binaryRight run =>
      exact Contains.next run (evaluate_grown _ _)
        (Contains.first .self fun _ => Leaves.of_quiet (operate_quiet _))
  | logicalLeft =>
      exact Contains.first .self fun _ => .ite (.pure _) (evaluate_grown _ _)
  | logicalRight run unsettled =>
      refine Contains.next run (evaluate_grown _ _) ?_
      rw [if_neg (Bool.eq_false_iff.1 unsettled)]
      exact .self
  | condition =>
      exact Contains.first .self fun _ => .ite (evaluate_grown _ _) (evaluate_grown _ _)
  | consequent run truthy =>
      refine Contains.next run (evaluate_grown _ _) ?_
      rw [if_pos truthy]
      exact .self
  | alternative run falsy =>
      refine Contains.next run (evaluate_grown _ _) ?_
      rw [if_neg (Bool.eq_false_iff.1 falsy)]
      exact .self
  | items => exact Contains.first .self fun _ => .pure _
  | callee =>
      exact Contains.first .self fun _ => .bind (Leaves.of_quiet (calleeArity_quiet _ _)) fun _ =>
        .ite (.throw _) (.bind (evaluateEach_grown _ _) fun _ => apply_grown _ _ _)
  | arguments run arity =>
      refine Contains.next run (evaluate_grown _ _) ?_
      refine Contains.next (calleeArity_gives arity _) (Leaves.of_quiet (calleeArity_quiet _ _)) ?_
      rw [if_neg (not_not.2 rfl)]
      exact .first .self fun _ => apply_grown _ _ _
  | called run arity run' =>
      refine Contains.next run (evaluate_grown _ _) ?_
      refine Contains.next (calleeArity_gives arity _) (Leaves.of_quiet (calleeArity_quiet _ _)) ?_
      rw [if_neg (not_not.2 rfl)]
      exact .next run' (evaluateEach_grown _ _) .self
  | getObject =>
      refine Contains.first .self fun v => ?_
      cases v with
      | object id => exact Leaves.of_quiet (readProperty_quiet _ _)
      | scalar | closure | classRef | clock => exact .throw _
  | setObject =>
      refine Contains.first .self fun v => ?_
      cases v with
      | object id =>
          exact .bind (evaluate_grown _ _) fun _ =>
            .bind (Leaves.of_quiet (writeField_quiet _ _ _)) fun _ => .pure _
      | scalar | closure | classRef | clock => exact .throw _
  | setValue run =>
      refine Contains.next run (evaluate_grown _ _) (Contains.first .self fun _ => ?_)
      exact .bind (Leaves.of_quiet (writeField_quiet _ _ _)) fun _ => .pure _
  | item => exact Contains.first .self fun _ => .bind (evaluateEach_grown _ _) fun _ => .pure _
  | otherItems run =>
      exact Contains.next run (evaluate_grown _ _) (.first .self fun _ => .pure _)
  | closure found =>
      exact Contains.next (closureOf_gives found) (Leaves.of_quiet (closureOf_quiet _)) .self
  | initializer made declared run found =>
      refine Contains.next made (Leaves.of_quiet (newObject_quiet _)) ?_
      refine Contains.next (findMethod_gives _ _) (Leaves.of_quiet (findMethod_quiet _ _)) ?_
      rw [declared]
      refine Contains.next run (Leaves.of_quiet (bind_quiet _ _)) ?_
      refine Contains.next (closureOf_gives found) (Leaves.of_quiet (closureOf_quiet _)) ?_
      exact .first .self fun _ => .pure _
  | body first second third =>
      refine Contains.next first (newFrame_grown _) ?_
      refine Contains.next second (defineEach_adds trivial _ _) ?_
      refine Contains.next third (newFrame_grown _) ?_
      refine Contains.first (.inFrame .self) fun _ => ?_
      exact .ite (Leaves.of_quiet (thisOf_quiet _)) (.pure _)
  | value => exact Contains.first .self fun _ => .pure _
  | printed =>
      exact Contains.first .self fun _ => .bind .get fun _ =>
        .bind (Leaves.of_quiet (print_quiet _)) fun _ => .pure _
  | initial =>
      exact Contains.first .self fun _ => .bind (defineHere_here _ _).grown fun _ => .pure _
  | block made =>
      exact Contains.next rfl .get (.next made (newFrame_grown _) (.inFrame .self))
  | branchCondition =>
      refine Contains.first .self fun _ => .ite (execute_grown _ _) ?_
      split
      · exact .pure _
      · exact execute_grown _ _
  | branchConsequent run truthy =>
      refine Contains.next run (evaluate_grown _ _) ?_
      rw [if_pos truthy]
      exact .self
  | branchAlternative run falsy =>
      refine Contains.next run (evaluate_grown _ _) ?_
      rw [if_neg (Bool.eq_false_iff.1 falsy)]
      exact .self
  | loopCondition =>
      exact Contains.first .self fun _ => .ite (.bind (execute_grown _ _) fun completion =>
        unless_returned completion (execute_grown _ _)) (.pure _)
  | loopBody run truthy =>
      refine Contains.next run (evaluate_grown _ _) ?_
      rw [if_pos truthy]
      exact .first .self fun completion => unless_returned completion (execute_grown _ _)
  | loopAgain run truthy run' =>
      refine Contains.next run (evaluate_grown _ _) ?_
      rw [if_pos truthy]
      exact .next run' (execute_grown _ _) .self
  | returned => exact Contains.first .self fun _ => .pure _
  | statement =>
      exact Contains.first .self fun completion =>
        unless_returned completion (executeEach_grown _ _)
  | otherStatements run => exact Contains.next run (execute_grown _ _) .self

end TreeWalk
