import TreeWalk.Proofs.Run.Containing
import TreeWalk.Proofs.Run.Initializing

/-!
# Bindings that last

A visit is poised if it starts on a bound machine with a task that suits it. What a poised visit
starts is poised, and all is retained from its start to the start of what it starts and from the
end of that to its own end. So what a frame binds to `this` in the midst of a run it still binds
when the run has ended, however it ends.

## Implementation notes

The rest of a visit behind one of its parts is maintained by the same rules as the visit itself, on
the machine that the part left.
-/

namespace TreeWalk

open Eval

variable {α β : Type} {m m₁ : Machine}

/-- A task suits a machine: its trees aim at the depth of the current frame, and what it applies
or enters may be called. -/
def Task.Suits (m : Machine) : Task → Prop
  | .evaluate e => e.Aims m.thisDepth
  | .evaluateEach items => Expr.AllAim m.thisDepth items
  | .apply callee arguments => m.heap.Ready callee ∧ ∀ v ∈ arguments, m.heap.Ready v
  | .enter closure arguments => m.heap.CanRun closure ∧ ∀ v ∈ arguments, m.heap.Ready v
  | .execute s => s.Aims m.thisDepth
  | .executeEach body => Stmt.AllAim m.thisDepth body

/-- A visit starts on a bound machine, with a task that suits it. -/
structure Visit.Poised (v : Visit) : Prop where
  bound : v.machine.Bound
  suits : v.task.Suits v.machine

/-- A poised visit leaves a bound machine that goes on from the one before. -/
theorem Visit.Poised.after {v : Visit} (poised : v.Poised) :
    v.after.Bound ∧ v.machine.Onward v.after := by
  obtain ⟨n, task, m⟩ := v
  obtain ⟨bound, suits⟩ := poised
  have ih := maintainsAt n
  cases task with
  | evaluate e => exact ⟨(ih.evaluate bound suits).bound, (ih.evaluate bound suits).onward⟩
  | evaluateEach items =>
      exact ⟨(ih.evaluateEach bound suits).bound, (ih.evaluateEach bound suits).onward⟩
  | apply =>
      have applied := ih.apply bound suits.1 suits.2
      exact ⟨applied.bound, applied.onward⟩
  | enter =>
      have entered := ih.enter bound suits.1 suits.2
      exact ⟨entered.bound, entered.onward⟩
  | execute s => exact ⟨(ih.execute bound suits).bound, (ih.execute bound suits).onward⟩
  | executeEach body =>
      exact ⟨(ih.executeEach bound suits).bound, (ih.executeEach bound suits).onward⟩

variable {n : Nat} {v : Value} {values : List Value} {completion : Completion}

theorem evaluate_bound {e : Expr} (run : (evaluate n e).Gives m v m₁) (bound : m.Bound)
    (aims : e.Aims m.thisDepth) : m₁.Bound ∧ m.Onward m₁ ∧ m₁.heap.Ready v := by
  have h := (maintainsAt n).evaluate bound aims
  exact ⟨h.bound_gives run, h.onward_gives run, h.gives run⟩

theorem evaluateEach_bound {items : List Expr} (run : (evaluateEach n items).Gives m values m₁)
    (bound : m.Bound) (aims : Expr.AllAim m.thisDepth items) :
    m₁.Bound ∧ m.Onward m₁ ∧ ∀ v ∈ values, m₁.heap.Ready v := by
  have h := (maintainsAt n).evaluateEach bound aims
  exact ⟨h.bound_gives run, h.onward_gives run, h.gives run⟩

theorem execute_bound {s : Stmt} (run : (execute n s).Gives m completion m₁) (bound : m.Bound)
    (aims : s.Aims m.thisDepth) : m₁.Bound ∧ m.Onward m₁ := by
  have h := (maintainsAt n).execute bound aims
  exact ⟨h.bound_gives run, h.onward_gives run⟩

/-- What a poised visit starts is poised, on a machine on which all is retained. -/
theorem Starts.poised {v v' : Visit} (h : Starts v v') (poised : v.Poised) :
    v'.Poised ∧ v.machine.heap.Retains v'.machine.heap := by
  obtain ⟨bound, suits⟩ := poised
  cases h with
  | grouping | unary | items | getObject | value | printed | returned =>
      exact ⟨⟨bound, suits⟩, .refl _⟩
  | binaryLeft | logicalLeft | condition | callee | setObject | item | loopCondition | statement =>
      exact ⟨⟨bound, suits.1⟩, .refl _⟩
  | assigned | initial => exact ⟨⟨bound, suits.2⟩, .refl _⟩
  | @branchCondition _ _ _ _ alternative =>
      cases alternative with
      | none => exact ⟨⟨bound, suits.1⟩, .refl _⟩
      | some => exact ⟨⟨bound, suits.1⟩, .refl _⟩
  | binaryRight run | logicalRight run | setValue run =>
      obtain ⟨bound₁, onward, -⟩ := evaluate_bound run bound suits.1
      exact ⟨⟨bound₁, onward.exprAims bound suits.2⟩, onward.retains⟩
  | consequent run =>
      obtain ⟨bound₁, onward, -⟩ := evaluate_bound run bound suits.1
      exact ⟨⟨bound₁, onward.exprAims bound suits.2.1⟩, onward.retains⟩
  | alternative run =>
      obtain ⟨bound₁, onward, -⟩ := evaluate_bound run bound suits.1
      exact ⟨⟨bound₁, onward.exprAims bound suits.2.2⟩, onward.retains⟩
  | arguments run | otherItems run =>
      obtain ⟨bound₁, onward, -⟩ := evaluate_bound run bound suits.1
      exact ⟨⟨bound₁, onward.exprsAim bound suits.2⟩, onward.retains⟩
  | called run _ run' =>
      obtain ⟨bound₁, onward, ready⟩ := evaluate_bound run bound suits.1
      obtain ⟨bound₂, onward', each⟩ :=
        evaluateEach_bound run' bound₁ (onward.exprsAim bound suits.2)
      exact ⟨⟨bound₂, ready.later onward'.retains, each⟩, (onward.trans onward').retains⟩
  | closure found =>
      obtain ⟨closure, found', run⟩ := suits.1
      cases found.symm.trans found'
      exact ⟨⟨bound, run, suits.2⟩, .refl _⟩
  | @initializer _ _ _ _ id _ object _ _ _ made declared run found =>
      have new := newObject_maintains bound id
      have bound₁ := new.bound_gives made
      obtain ⟨method, found₁, isMethod⟩ := method_of_bound bound₁.heap declared
      have binds := bind_maintains bound₁ found₁ isMethod object
      obtain ⟨closure, found₂, bindsTo⟩ := binds.gives run
      cases found.symm.trans found₂
      have onward := (new.onward_gives made).trans (binds.onward_gives run)
      exact ⟨⟨binds.bound_gives run, bindsTo.run,
        fun v among => (suits.2 v among).later onward.retains⟩, onward.retains⟩
  | @body _ _ _ _ _ closure arguments _ inner first second third =>
      have framed : (bodyFrame closure arguments).Gives _ inner _ :=
        bind_gives.2 ⟨_, _, first, bind_gives.2 ⟨_, _, second, third⟩⟩
      have opens := bodyFrame_maintains bound suits.1 suits.2
      obtain ⟨inside, aims⟩ := opens.gives framed
      exact ⟨⟨⟨(opens.bound_gives framed).heap, inside⟩, aims⟩, (opens.onward_gives framed).retains⟩
  | @block _ _ m₁ body frame made =>
      have opens := newFrame_maintains bound bound.inside
      obtain ⟨inside, depth⟩ := opens.gives made
      have aims : Stmt.AllAim (Machine.thisDepth { m₁ with current := frame }) body := by
        rw [Machine.thisDepth, depth]
        exact suits
      exact ⟨⟨⟨(opens.bound_gives made).heap, inside⟩, aims⟩, (opens.onward_gives made).retains⟩
  | @branchConsequent _ m _ condition consequent alternative _ run =>
      have parts : condition.Aims m.thisDepth ∧ consequent.Aims m.thisDepth := by
        cases alternative with
        | none => exact suits
        | some => exact ⟨suits.1, suits.2.1⟩
      obtain ⟨bound₁, onward, -⟩ := evaluate_bound run bound parts.1
      exact ⟨⟨bound₁, onward.stmtAims bound parts.2⟩, onward.retains⟩
  | branchAlternative run =>
      obtain ⟨bound₁, onward, -⟩ := evaluate_bound run bound suits.1
      exact ⟨⟨bound₁, onward.stmtAims bound suits.2.2⟩, onward.retains⟩
  | loopBody run =>
      obtain ⟨bound₁, onward, -⟩ := evaluate_bound run bound suits.1
      exact ⟨⟨bound₁, onward.stmtAims bound suits.2⟩, onward.retains⟩
  | loopAgain run _ run' =>
      obtain ⟨bound₁, onward, -⟩ := evaluate_bound run bound suits.1
      obtain ⟨bound₂, onward'⟩ := execute_bound run' bound₁ (onward.stmtAims bound suits.2)
      have whole := onward.trans onward'
      exact ⟨⟨bound₂, whole.stmtAims bound suits⟩, whole.retains⟩
  | otherStatements run =>
      obtain ⟨bound₁, onward⟩ := execute_bound run bound suits.1
      exact ⟨⟨bound₁, onward.stmtsAim bound suits.2⟩, onward.retains⟩

namespace Eval

/-- What is on the heap at the end of a part of a step is retained at the end of the step. -/
def Seals (whole : Eval β) (m : Machine) (part : Eval α) (m' : Machine) : Prop :=
  (part.after m').heap.Retains (whole.after m).heap

namespace Seals

variable {γ : Type} {m' : Machine} {part : Eval α} {act : Eval β} {f : β → Eval γ}
  {Q : β → Machine → Prop} {R : γ → Machine → Prop}

theorem self : part.Seals m part m := .refl _

/-- What follows a step is maintained on what the step leaves. -/
theorem first (act_maintains : act.Maintains m Q)
    (rest : ∀ {b m'}, m'.Bound → m.Onward m' → Q b m' → (f b).Maintains m' R) :
    (act >>= f).Seals m act m := by
  rw [Seals]
  cases run : act m with
  | ok b m₁ =>
      have run : act.Gives m b m₁ := run
      rw [after_of_gives run, after_bind_of_gives run]
      exact (rest (act_maintains.bound_gives run) (act_maintains.onward_gives run)
        (act_maintains.gives run)).onward.retains
  | error stop m₁ =>
      rw [after_of_error run, after_of_error (bind_of_error run)]
      exact .refl _

/-- A step that ends well leads to the parts of what follows it. -/
theorem next {b : β} (run : act.Gives m b m₁) (h : (f b).Seals m₁ part m') :
    (act >>= f).Seals m part m' := by
  rw [Seals, after_bind_of_gives run]
  exact h

theorem inFrame {frame : FrameId} :
    (Eval.inFrame frame act).Seals m act { m with current := frame } := by
  have same : ((Eval.inFrame frame act).after m).heap =
      (act.after { m with current := frame }).heap := by
    simp only [after, Eval.inFrame]
    cases act { m with current := frame } <;> rfl
  rw [Seals, same]
  exact .refl _

theorem trans {other : Eval γ} {m'' : Machine} (h : act.Seals m part m')
    (h' : part.Seals m' other m'') : act.Seals m other m'' :=
  Heap.Retains.trans h' h

end Seals

end Eval

/-- What there is at the end of something that a poised visit starts is retained to its end. -/
theorem Starts.seals {v v' : Visit} (h : Starts v v') (poised : v.Poised) :
    v'.after.heap.Retains v.after.heap := by
  obtain ⟨bound', suits'⟩ := (h.poised poised).1
  obtain ⟨bound, suits⟩ := poised
  cases h with
  | grouping => exact Seals.self
  | @assigned n =>
      exact Seals.first ((maintainsAt n).evaluate bound' suits') fun bound₁ _ ready =>
        (writeReference_maintains bound₁ suits.1 ready).bind fun bound₂ _ _ => .done bound₂ _
  | @unary n =>
      exact Seals.first ((maintainsAt n).evaluate bound' suits') fun bound₁ _ _ =>
        operate_maintains bound₁ (Operators.unary_fair _ _)
  | @binaryLeft n =>
      exact Seals.first ((maintainsAt n).evaluate bound' suits') fun bound₁ onward _ =>
        ((maintainsAt n).evaluate bound₁ (onward.exprAims bound suits.2)).bind fun bound₂ _ _ =>
          operate_maintains bound₂ (Operators.binary_fair _ _ _)
  | @binaryRight n _ _ _ _ _ _ run =>
      exact Seals.next run (.first ((maintainsAt n).evaluate bound' suits') fun bound₂ _ _ =>
        operate_maintains bound₂ (Operators.binary_fair _ _ _))
  | @logicalLeft n =>
      exact Seals.first ((maintainsAt n).evaluate bound' suits') fun bound₁ onward ready =>
        .ite (.pure bound₁ ready) ((maintainsAt n).evaluate bound₁ (onward.exprAims bound suits.2))
  | logicalRight run unsettled =>
      refine Seals.next run ?_
      rw [if_neg (Bool.eq_false_iff.1 unsettled)]
      exact .self
  | @condition n =>
      exact Seals.first ((maintainsAt n).evaluate bound' suits') fun bound₁ onward _ =>
        .ite ((maintainsAt n).evaluate bound₁ (onward.exprAims bound suits.2.1))
          ((maintainsAt n).evaluate bound₁ (onward.exprAims bound suits.2.2))
  | consequent run truthy =>
      refine Seals.next run ?_
      rw [if_pos truthy]
      exact .self
  | alternative run falsy =>
      refine Seals.next run ?_
      rw [if_neg (Bool.eq_false_iff.1 falsy)]
      exact .self
  | @items n =>
      exact Seals.first ((maintainsAt n).evaluateEach bound' suits') fun bound₁ _ _ =>
        .done bound₁ _
  | @callee n =>
      exact Seals.first ((maintainsAt n).evaluate bound' suits') fun bound₁ onward ready =>
        .inspect_bind bound₁ fun _ => .ite (.throw bound₁ _)
          (((maintainsAt n).evaluateEach bound₁ (onward.exprsAim bound suits.2)).bind
            fun bound₂ onward' each =>
              (maintainsAt n).apply bound₂ (ready.later onward'.retains) each)
  | @arguments n _ _ _ _ _ _ run arity =>
      obtain ⟨-, -, ready⟩ := evaluate_bound run bound suits.1
      refine Seals.next run (.next (calleeArity_gives arity _) ?_)
      rw [if_neg (not_not.2 rfl)]
      exact .first ((maintainsAt n).evaluateEach bound' suits') fun bound₂ onward each =>
        (maintainsAt n).apply bound₂ (ready.later onward.retains) each
  | called run arity run' =>
      refine Seals.next run (.next (calleeArity_gives arity _) ?_)
      rw [if_neg (not_not.2 rfl)]
      exact .next run' .self
  | @getObject n =>
      refine Seals.first (R := fun v m' => m'.heap.Ready v)
        ((maintainsAt n).evaluate bound' suits') fun {v _} bound₁ _ _ => ?_
      cases v with
      | object id => exact (readProperty_maintains bound₁ _ _).mono fun _ _ post => post.1
      | scalar | closure | classRef | clock => exact .throw bound₁ _
  | @setObject n =>
      refine Seals.first (R := fun _ _ => True)
        ((maintainsAt n).evaluate bound' suits') fun {v _} bound₁ onward _ => ?_
      cases v with
      | object id =>
          exact ((maintainsAt n).evaluate bound₁ (onward.exprAims bound suits.2)).bind
            fun bound₂ _ ready => (writeField_maintains bound₂ ready _ _).bind fun bound₃ _ _ =>
              .done bound₃ _
      | scalar | closure | classRef | clock => exact .throw bound₁ _
  | @setValue n _ _ _ _ _ _ run =>
      exact Seals.next run (.first ((maintainsAt n).evaluate bound' suits') fun bound₂ _ ready =>
        (writeField_maintains bound₂ ready _ _).bind fun bound₃ _ _ => .done bound₃ _)
  | @item n =>
      exact Seals.first ((maintainsAt n).evaluate bound' suits') fun bound₁ onward _ =>
        ((maintainsAt n).evaluateEach bound₁ (onward.exprsAim bound suits.2)).bind fun bound₂ _ _ =>
          .done bound₂ _
  | @otherItems n _ _ _ _ _ run =>
      exact Seals.next run (.first ((maintainsAt n).evaluateEach bound' suits') fun bound₂ _ _ =>
        .done bound₂ _)
  | closure found => exact Seals.next (closureOf_gives found) .self
  | @initializer n _ _ _ _ _ _ _ _ _ made declared run found =>
      refine Seals.next made (.next (findMethod_gives _ _) ?_)
      rw [declared]
      refine .next run (.next (closureOf_gives found) ?_)
      exact .first ((maintainsAt n).enter bound' suits'.1 suits'.2) fun bound₃ _ _ =>
        .done bound₃ _
  | @body n m _ _ m₃ closure arguments _ inner first second third =>
      have framed : (bodyFrame closure arguments).Gives m inner m₃ :=
        bind_gives.2 ⟨_, _, first, bind_gives.2 ⟨_, _, second, third⟩⟩
      have bound₃ := (bodyFrame_maintains bound suits.1 suits.2).bound_gives framed
      have body := (maintainsAt n).executeEach bound' suits'
      refine Seals.next first (.next second (.next third ?_))
      refine Seals.trans (.first (Q := ReturnsReady) (R := fun _ _ => True)
        (.inFrame bound₃ body) ?_) .inFrame
      exact fun bound₄ _ _ =>
        .ite ((thisOf_maintains bound₄ closure.frame).mono fun _ _ _ => trivial) (.done bound₄ _)
  | @value n | @returned n =>
      exact Seals.first ((maintainsAt n).evaluate bound' suits') fun bound₁ _ _ => .done bound₁ _
  | @printed n =>
      exact Seals.first ((maintainsAt n).evaluate bound' suits') fun bound₁ _ _ =>
        .get_bind ((print_maintains bound₁ _).bind fun bound₂ _ _ => .done bound₂ _)
  | @initial n =>
      exact Seals.first ((maintainsAt n).evaluate bound' suits') fun bound₁ _ ready =>
        (defineHere_maintains bound₁ suits.1 ready).bind fun bound₂ _ _ => .done bound₂ _
  | block made => exact Seals.next rfl (.next made .inFrame)
  | @branchCondition n _ _ _ alternative =>
      cases alternative with
      | none =>
          exact Seals.first ((maintainsAt n).evaluate bound' suits') fun bound₁ onward _ =>
            .ite ((maintainsAt n).execute bound₁ (onward.stmtAims bound suits.2))
              (.pure bound₁ trivial)
      | some =>
          exact Seals.first ((maintainsAt n).evaluate bound' suits') fun bound₁ onward _ =>
            .ite ((maintainsAt n).execute bound₁ (onward.stmtAims bound suits.2.1))
              ((maintainsAt n).execute bound₁ (onward.stmtAims bound suits.2.2))
  | branchConsequent run truthy =>
      refine Seals.next run ?_
      rw [if_pos truthy]
      exact .self
  | branchAlternative run falsy =>
      refine Seals.next run ?_
      rw [if_neg (Bool.eq_false_iff.1 falsy)]
      exact .self
  | @loopCondition n _ condition body =>
      refine Seals.first (R := ReturnsReady) ((maintainsAt n).evaluate bound' suits') ?_
      intro v m₁ bound₁ onward _
      refine .ite ?_ (.pure bound₁ trivial)
      refine ((maintainsAt n).execute bound₁ (onward.stmtAims bound suits.2)).bind ?_
      intro completion m₂ bound₂ onward' returns
      cases completion with
      | normal =>
          exact (maintainsAt n).execute bound₂ ((onward.trans onward').stmtAims bound suits)
      | returned => exact .pure bound₂ returns
  | @loopBody n _ _ condition body _ run truthy =>
      have onward := (evaluate_bound run bound suits.1).2.1
      refine Seals.next run ?_
      rw [if_pos truthy]
      refine .first (R := ReturnsReady) ((maintainsAt n).execute bound' suits') ?_
      intro completion m₂ bound₂ onward' returns
      cases completion with
      | normal =>
          exact (maintainsAt n).execute bound₂ ((onward.trans onward').stmtAims bound suits)
      | returned => exact .pure bound₂ returns
  | loopAgain run truthy run' =>
      refine Seals.next run ?_
      rw [if_pos truthy]
      exact .next run' .self
  | @statement n _ _ rest =>
      refine Seals.first (R := ReturnsReady) ((maintainsAt n).execute bound' suits') ?_
      intro completion m₁ bound₁ onward returns
      cases completion with
      | normal => exact (maintainsAt n).executeEach bound₁ (onward.stmtsAim bound suits.2)
      | returned => exact .pure bound₁ returns
  | otherStatements run => exact Seals.next run .self

end TreeWalk
