import TreeWalk.Proofs.Run.Staying
import TreeWalk.Proofs.Run.Visits
import Mathlib.Logic.Relation

/-!
# What a return ends in its call

A return ends the statements around it up to the call, and nothing of them is run after
it. Whatever completes with a return has come to the return, in the same call.

## Implementation notes

The trail of a visit lists, in the order in which they start, the statements that belong
to the same call and the expressions that these statements evaluate. It is cut off where
a statement does not complete normally, which is what has to be shown of a return.
-/

namespace TreeWalk

open Eval

namespace Task

/-- Whether a task is to run statements. -/
def IsStatement : Task → Prop
  | execute _ | executeEach _ => True
  | _ => False

/-- Whether a task is to run a return. -/
def IsReturn (task : Task) : Prop := ∃ keyword value, task = .execute (.returns keyword value)

end Task

/-- A visit of statements starts another one in the same call. -/
def Runs (v v' : Visit) : Prop := Starts v v' ∧ v.task.IsStatement ∧ v'.task.IsStatement

/-- The statements of a visit complete. -/
def Visit.Completes (v : Visit) (completion : Completion) (m' : Machine) : Prop :=
  match v.task with
  | .execute s => (execute v.fuel s).Gives v.machine completion m'
  | .executeEach body => (executeEach v.fuel body).Gives v.machine completion m'
  | _ => False

/-- What is come to after a step that ends well. -/
def Eval.followed {α : Type} (act : Eval α) (m : Machine) (next : α → Machine → List Visit) :
    List Visit :=
  match act m with
  | .ok a m' => next a m'
  | .error _ _ => []

/-- What is come to after a statement that completes normally. -/
def Eval.continued (act : Eval Completion) (m : Machine) (next : Machine → List Visit) :
    List Visit :=
  followed act m fun
    | .normal, m' => next m'
    | .returned _, _ => []

/-- What a task comes to in the same call, in the order in which it starts. -/
def trail : Nat → Task → Machine → List Visit
  | 0, task, m => [⟨0, task, m⟩]
  | n + 1, task, m => ⟨n + 1, task, m⟩ ::
    match task with
    | .execute (.expression value) | .execute (.print value)
    | .execute (.varDecl _ (some value)) | .execute (.returns _ (some value)) =>
      [⟨n, .evaluate value, m⟩]
    | .execute (.block body) =>
      followed (newFrame m.current) m fun frame m₁ =>
        trail n (.executeEach body) { m₁ with current := frame }
    | .execute (.branch condition consequent alternative) =>
      ⟨n, .evaluate condition, m⟩ :: followed (evaluate n condition) m fun v m₁ =>
        if v.isTruthy then trail n (.execute consequent) m₁
        else
          match alternative with
          | none => []
          | some statement => trail n (.execute statement) m₁
    | .execute (.loop condition body) =>
      ⟨n, .evaluate condition, m⟩ :: followed (evaluate n condition) m fun v m₁ =>
        if v.isTruthy then
          trail n (.execute body) m₁ ++
            continued (execute n body) m₁ (trail n (.execute (.loop condition body)))
        else []
    | .executeEach (s :: rest) =>
      trail n (.execute s) m ++ continued (execute n s) m (trail n (.executeEach rest))
    | _ => []

/-- What a visit comes to in the same call, in the order in which it starts. -/
def Visit.trail (v : Visit) : List Visit := TreeWalk.trail v.fuel v.task v.machine

section Trails

variable {α : Type} {n : Nat} {m m' : Machine} {v a b c : Visit} {w : Value}

theorem followed_of_gives {act : Eval α} {x : α} (run : act.Gives m x m')
    (next : α → Machine → List Visit) : followed act m next = next x m' := by
  rw [followed, show act m = .ok x m' from run]

theorem continued_of_gives {act : Eval Completion} {completion : Completion}
    (run : act.Gives m completion m') (next : Machine → List Visit) :
    continued act m next =
      match completion with
      | .normal => next m'
      | .returned _ => [] := by
  rw [continued, followed_of_gives run]
  cases completion <;> rfl

theorem mem_trail (v : Visit) : v ∈ v.trail := by
  obtain ⟨fuel, task, m⟩ := v
  cases fuel with
  | zero => exact List.mem_singleton_self _
  | succ n => exact List.mem_cons_self

/-- The trail of what is run directly is part of the trail. -/
theorem Runs.trail_subset (h : Runs a b) : b.trail ⊆ a.trail := by
  obtain ⟨starts, isStatement, isStatement'⟩ := h
  intro c among
  cases starts with
  | statement =>
      exact List.mem_cons_of_mem _ (List.mem_append_left _ among)
  | otherStatements run =>
      refine List.mem_cons_of_mem _ (List.mem_append_right _ ?_)
      rw [continued_of_gives run]
      exact among
  | block run =>
      refine List.mem_cons_of_mem _ ?_
      dsimp only
      rw [followed_of_gives run]
      exact among
  | branchConsequent run truthy =>
      refine List.mem_cons_of_mem _ (List.mem_cons_of_mem _ ?_)
      dsimp only
      rw [followed_of_gives run, if_pos truthy]
      exact among
  | branchAlternative run falsy =>
      refine List.mem_cons_of_mem _ (List.mem_cons_of_mem _ ?_)
      dsimp only
      rw [followed_of_gives run, if_neg (Bool.eq_false_iff.1 falsy)]
      exact among
  | loopBody run truthy =>
      refine List.mem_cons_of_mem _ (List.mem_cons_of_mem _ ?_)
      dsimp only
      rw [followed_of_gives run, if_pos truthy]
      exact List.mem_append_left _ among
  | loopAgain run truthy normal =>
      refine List.mem_cons_of_mem _ (List.mem_cons_of_mem _ ?_)
      dsimp only
      rw [followed_of_gives run, if_pos truthy]
      refine List.mem_append_right _ ?_
      rw [continued_of_gives normal]
      exact among
  | _ => first | exact isStatement.elim | exact isStatement'.elim

/-- Everything that a statement starts is on its trail. -/
theorem Starts.mem_trail (h : Starts a c) (isStatement : a.task.IsStatement) : c ∈ a.trail := by
  by_cases isStatement' : c.task.IsStatement
  · exact Runs.trail_subset ⟨h, isStatement, isStatement'⟩ (TreeWalk.mem_trail c)
  · cases h with
    | value | printed | initial | returned =>
        exact List.mem_cons_of_mem _ (List.mem_singleton_self _)
    | branchCondition | loopCondition => exact List.mem_cons_of_mem _ List.mem_cons_self
    | block | branchConsequent | branchAlternative | loopBody | loopAgain | statement
    | otherStatements => exact absurd trivial isStatement'
    | _ => exact isStatement.elim

theorem inFrame_gives {act : Eval α} {frame : FrameId} {x : α} :
    (inFrame frame act).Gives m x m' ↔ ∃ after, act.Gives { m with current := frame } x after ∧
      m' = { after with current := m.current } := by
  simp only [EStateM.Gives, EStateM.run, inFrame]
  cases act { m with current := frame } with
  | error => simp
  | ok y after =>
      simp only [EStateM.Result.ok.injEq]
      constructor
      · rintro ⟨rfl, rfl⟩
        exact ⟨after, ⟨rfl, rfl⟩, rfl⟩
      · rintro ⟨_, ⟨rfl, rfl⟩, rfl⟩
        exact ⟨rfl, rfl⟩

theorem Visit.Completes.stays {completion : Completion} (h : v.Completes completion m') :
    m'.current = v.machine.current := by
  obtain ⟨fuel, task, m⟩ := v
  cases task with
  | execute s => exact ((staysAt fuel).execute s).gives h
  | executeEach body => exact ((staysAt fuel).executeEach body).gives h
  | evaluate | evaluateEach | apply | enter => exact h.elim

/-- A machine that is in a frame already does not change by going there. -/
theorem Machine.at_current {frame : FrameId} (same : m'.current = frame) :
    { m' with current := frame } = m' := by
  subst same
  rfl

/-- After a statement that returns nothing more is started. -/
theorem Runs.trail_of_returned (h : Runs a b) (returned : b.Completes (.returned w) m') :
    ∃ before, a.trail = before ++ b.trail := by
  obtain ⟨starts, isStatement, isStatement'⟩ := h
  cases starts with
  | @statement n m s rest =>
      refine ⟨[⟨n + 1, .executeEach (s :: rest), m⟩], congrArg (_ :: ·) ?_⟩
      dsimp only
      rw [continued_of_gives returned]
      exact List.append_nil _
  | @otherStatements n m m₁ s rest run =>
      refine ⟨⟨n + 1, .executeEach (s :: rest), m⟩ :: TreeWalk.trail n (.execute s) m,
        congrArg (_ :: ·) ?_⟩
      dsimp only
      rw [continued_of_gives run]
      rfl
  | @block n m m₁ body frame run =>
      refine ⟨[⟨n + 1, .execute (.block body), m⟩], congrArg (_ :: ·) ?_⟩
      dsimp only
      rw [followed_of_gives run]
      rfl
  | @branchConsequent n m m₁ condition consequent alternative v run truthy =>
      refine ⟨[⟨n + 1, .execute (.branch condition consequent alternative), m⟩,
        ⟨n, .evaluate condition, m⟩], congrArg (_ :: _ :: ·) ?_⟩
      dsimp only
      rw [followed_of_gives run, if_pos truthy]
      rfl
  | @branchAlternative n m m₁ condition consequent alternative v run falsy =>
      refine ⟨[⟨n + 1, .execute (.branch condition consequent alternative), m⟩,
        ⟨n, .evaluate condition, m⟩], congrArg (_ :: _ :: ·) ?_⟩
      dsimp only
      rw [followed_of_gives run, if_neg (Bool.eq_false_iff.1 falsy)]
      rfl
  | @loopBody n m m₁ condition body v run truthy =>
      refine ⟨[⟨n + 1, .execute (.loop condition body), m⟩, ⟨n, .evaluate condition, m⟩],
        congrArg (_ :: _ :: ·) ?_⟩
      dsimp only
      rw [followed_of_gives run, if_pos truthy, continued_of_gives returned]
      exact List.append_nil _
  | @loopAgain n m m₁ m₂ condition body v run truthy normal =>
      refine ⟨⟨n + 1, .execute (.loop condition body), m⟩ :: ⟨n, .evaluate condition, m⟩ ::
        TreeWalk.trail n (.execute body) m₁, congrArg (_ :: _ :: ·) ?_⟩
      dsimp only
      rw [followed_of_gives run, if_pos truthy, continued_of_gives normal]
      rfl
  | _ => first | exact isStatement.elim | exact isStatement'.elim

/-- A statement returns if one that it runs does. -/
theorem Runs.returns (h : Runs a b) (returned : b.Completes (.returned w) m') :
    a.Completes (.returned w) { m' with current := a.machine.current } := by
  obtain ⟨starts, isStatement, isStatement'⟩ := h
  have back : b.machine.current = a.machine.current →
      { m' with current := a.machine.current } = m' :=
    fun same => Machine.at_current (returned.stays.trans same)
  cases starts with
  | statement =>
      rw [back rfl]
      exact bind_gives.2 ⟨_, _, returned, rfl⟩
  | otherStatements run =>
      rw [back ((staysAt _).execute _ |>.gives run)]
      exact bind_gives.2 ⟨_, _, run, returned⟩
  | block run =>
      refine get_bind_gives.2 (bind_gives.2 ⟨_, _, run, inFrame_gives.2 ⟨_, returned, ?_⟩⟩)
      cases run
      rfl
  | branchConsequent run truthy =>
      rw [back ((staysAt _).evaluate _ |>.gives run)]
      exact bind_gives.2 ⟨_, _, run, by rwa [if_pos truthy]⟩
  | branchAlternative run falsy =>
      rw [back ((staysAt _).evaluate _ |>.gives run)]
      exact bind_gives.2 ⟨_, _, run, by rwa [if_neg (Bool.eq_false_iff.1 falsy)]⟩
  | loopBody run truthy =>
      rw [back ((staysAt _).evaluate _ |>.gives run)]
      refine bind_gives.2 ⟨_, _, run, ?_⟩
      rw [if_pos truthy]
      exact bind_gives.2 ⟨_, _, returned, rfl⟩
  | loopAgain run truthy normal =>
      have still := (((staysAt _).execute _).gives normal).trans
        (((staysAt _).evaluate _).gives run)
      rw [back still]
      refine bind_gives.2 ⟨_, _, run, ?_⟩
      rw [if_pos truthy]
      exact bind_gives.2 ⟨_, _, normal, returned⟩
  | _ => first | exact isStatement.elim | exact isStatement'.elim

/-- What completes with a return is a return or runs a statement that completes with it. -/
theorem Visit.Completes.source (h : v.Completes (.returned w) m') :
    v.task.IsReturn ∨ ∃ b after, Runs v b ∧ b.Completes (.returned w) after ∧
      m' = { after with current := v.machine.current } := by
  have back (b : Visit) (runs : Runs v b) (same : b.machine.current = v.machine.current)
      (returned : b.Completes (.returned w) m') :
      ∃ b after, Runs v b ∧ b.Completes (.returned w) after ∧
        m' = { after with current := v.machine.current } :=
    ⟨b, m', runs, returned, (Machine.at_current (returned.stays.trans same)).symm⟩
  obtain ⟨_ | n, task, m⟩ := v
  · cases task <;> cases h
  cases task with
  | evaluate | evaluateEach | apply | enter => exact h.elim
  | execute s =>
      change (execute (n + 1) s).Gives m (.returned w) m' at h
      rcases s with _ | _ | ⟨_, _ | _⟩ | body | ⟨condition, consequent, alternative⟩ |
        ⟨condition, body⟩ | _ | _ | ⟨keyword, value⟩
      case returns => exact .inl ⟨keyword, value, rfl⟩
      case block =>
        obtain ⟨frame, m₁, made, moved⟩ := bind_gives.1 (get_bind_gives.1 h)
        obtain ⟨after, returned, rfl⟩ := inFrame_gives.1 moved
        refine .inr ⟨_, after, ⟨.block made, trivial, trivial⟩, returned, ?_⟩
        cases made
        rfl
      case branch =>
        obtain ⟨v, m₁, run, chosen⟩ := bind_gives.1 h
        have same := ((staysAt n).evaluate condition).gives run
        split at chosen
        next truthy =>
          exact .inr (back _ ⟨.branchConsequent run truthy, trivial, trivial⟩ same chosen)
        next falsy =>
          cases alternative with
          | none => cases chosen
          | some statement =>
              exact .inr (back _ ⟨.branchAlternative run (Bool.eq_false_iff.2 falsy), trivial,
                trivial⟩ same chosen)
      case loop =>
        obtain ⟨v, m₁, run, chosen⟩ := bind_gives.1 h
        have same := ((staysAt n).evaluate condition).gives run
        split at chosen
        next truthy =>
          obtain ⟨completion, m₂, first, others⟩ := bind_gives.1 chosen
          cases completion with
          | normal =>
              exact .inr (back _ ⟨.loopAgain run truthy first, trivial, trivial⟩
                (((staysAt n).execute body).gives first |>.trans same) others)
          | returned =>
              cases others
              exact .inr (back _ ⟨.loopBody run truthy, trivial, trivial⟩ same first)
        next => cases chosen
      all_goals simp [execute, Clauses.execute, bind_gives, map_gives] at h
  | executeEach body =>
      change (executeEach (n + 1) body).Gives m (.returned w) m' at h
      cases body with
      | nil => cases h
      | cons s rest =>
          obtain ⟨completion, m₁, first, others⟩ := bind_gives.1 h
          cases completion with
          | normal =>
              exact .inr (back _ ⟨.otherStatements first, trivial, trivial⟩
                (((staysAt n).execute s).gives first) others)
          | returned =>
              cases others
              exact .inr (back _ ⟨.statement, trivial, trivial⟩ rfl first)

/-- What is run in the same call, directly or not. -/
abbrev RunsOn : Visit → Visit → Prop := Relation.ReflTransGen Runs

/-- A return that is executed ends everything around it in the same call. -/
theorem RunsOn.returns (h : RunsOn a b) (returned : b.Completes (.returned w) m') :
    a.Completes (.returned w) { m' with current := a.machine.current } ∧
      ∃ before, a.trail = before ++ b.trail := by
  induction h using Relation.ReflTransGen.head_induction_on with
  | refl =>
      rw [Machine.at_current returned.stays]
      exact ⟨returned, [], rfl⟩
  | head first _ ih =>
      obtain ⟨inner, before, rest⟩ := ih
      obtain ⟨before', whole⟩ := first.trail_of_returned inner
      have outer := first.returns inner
      exact ⟨outer, before' ++ before, by rw [whole, rest, List.append_assoc]⟩

/-- Everything that a call starts in its statements is on the trail. -/
theorem RunsOn.mem_trail (h : RunsOn a b) (starts : Starts b c) (isStatement : b.task.IsStatement) :
    c ∈ a.trail := by
  induction h using Relation.ReflTransGen.head_induction_on with
  | refl => exact starts.mem_trail isStatement
  | head first _ ih => exact first.trail_subset ih

/-- Behind everything that completes with a return there is a return that was executed. -/
theorem Visit.Completes.exists_return {v : Visit} {m' : Machine}
    (h : v.Completes (.returned w) m') :
    ∃ r after, RunsOn v r ∧ r.task.IsReturn ∧ r.Completes (.returned w) after ∧
      m' = { after with current := v.machine.current } := by
  obtain isReturn | ⟨b, after, runs, returned, rfl⟩ := h.source
  · exact ⟨v, m', .refl, isReturn, h, (Machine.at_current h.stays).symm⟩
  · have _ : b.fuel < v.fuel := by
      rw [runs.1.fuel]
      exact Nat.lt_succ_self _
    obtain ⟨r, after', runsOn, isReturn, returned', rfl⟩ := returned.exists_return
    exact ⟨r, after', .head runs runsOn, isReturn, returned', rfl⟩
termination_by v.fuel

/-- A row of statements or a statement completes with a return exactly if one is executed
in it. -/
theorem Visit.returns_iff : v.Completes (.returned w) m' ↔
    ∃ r after, RunsOn v r ∧ r.task.IsReturn ∧ r.Completes (.returned w) after ∧
      m' = { after with current := v.machine.current } := by
  refine ⟨fun h => h.exists_return, ?_⟩
  rintro ⟨r, after, runsOn, -, returned, rfl⟩
  exact (runsOn.returns returned).1

end Trails

end TreeWalk
