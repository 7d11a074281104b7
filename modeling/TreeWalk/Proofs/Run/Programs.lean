import TreeWalk.Proofs.Run.Executing
import TreeWalk.Session
import Mathlib.Logic.Relation

/-!
# Runs of programs

A program that the scope rules accept is run statement by statement at the top level,
where no scope is open. Every statement that is come to is admitted, and so is whatever
it leads to.

## Implementation notes

A run may end early. What was run until then is a row of statements from the start of
the program, so the facts about runs are stated for the statements before some place.
-/

namespace TreeWalk

open Surroundings

variable {W : Spot → Prop} {P : Pending} {m m' : Machine} {fuel : Nat}

/-- What an admitted visit starts is admitted. -/
theorem Starts.admitted {v v' : Visit} (known : Known W) (h : Starts v v')
    (admitted : v.Admitted W P) : v'.Admitted W (v.opens ++ P) := by
  obtain ⟨fuel, task, m⟩ := v
  cases fuel with
  | zero => cases h
  | succ n => exact h.admits known (keeps known n) admitted

/-- A spot to which the walk comes in one step at most is known. -/
theorem Known.reflGen {spot spot' : Spot} (known : Known W) (inside : W spot)
    (walks : Relation.ReflGen Walks spot spot') : W spot' := by
  obtain _ | next := walks
  · exact inside
  · exact known.walks inside next

/-- What a visit of a node at a spot starts about a node is admitted at this spot or at one to
which the walk comes directly. -/
theorem Starts.admitsIn_on {v v' : Visit} {spot : Spot} {node : Node} (known : Known W)
    (h : Starts v v') (inside : W spot) (about : v'.task.node? = some node)
    (sound : v.machine.heap.Sound W P) (admits : AdmitsIn (· = spot) P v.machine v.task) :
    AdmitsIn (Relation.ReflGen Walks spot) (v.opens ++ P) v'.machine v'.task := by
  obtain ⟨fuel, task, m⟩ := v
  have leads : Leads (· = spot) (Relation.ReflGen Walks spot) :=
    ⟨fun same next => .single (same ▸ next), fun same => same ▸ known.sane inside⟩
  have stays : ∀ other, other = spot → Relation.ReflGen Walks spot other := by
    rintro _ rfl
    exact .refl
  cases fuel with
  | zero => cases h
  | succ n =>
      exact (h.admitsIn known leads stays (fun _ => known.reflGen inside) (keeps known n)
        (by rw [about]; rfl) sound admits).2

/-- No scope is open after a statement at the top level. -/
theorem Placed.top {s : Stmt} {place mid : Surroundings} (known : Known W)
    (placed : Placed W (.stmt s) place mid) (top : place.views = []) : mid.views = [] := by
  have after := placed.stmt_after known
  cases declared : s.declared? with
  | none =>
      rw [declared] at after
      exact after.views.trans top
  | some name =>
      rw [declared] at after
      have binds := after.binds
      rwa [top] at binds

/-- At the top level the frames fit the place of a statement. -/
theorem FitsStatement.top {s : Stmt} {place mid : Surroundings}
    (global : m.current = Machine.globals) (placed : Placed W (.stmt s) place mid)
    (top : place.views = []) : FitsStatement W P (.stmt s) m := by
  refine ⟨place, mid, placed, ?_, ?_⟩
  · rw [top]
    exact global
  · rw [top]
    exact nofun

/-- A statement at the top level is admitted. -/
theorem admitted_top {s : Stmt} {place mid : Surroundings} (sound : m.heap.Sound W P)
    (global : m.current = Machine.globals) (placed : Placed W (.stmt s) place mid)
    (top : place.views = []) : Visit.Admitted W P ⟨fuel, .execute s, m⟩ :=
  ⟨sound, .top global placed top⟩

/-- The walk over the first statements of a program leads to the spot of the others, and no scope
is open there. -/
theorem Known.stmts_top {one rest before : List Stmt} {place mid : Surroundings} (known : Known W)
    (inside : W ⟨.stmts (one ++ rest), place⟩) (top : place.views = [])
    (walk : (Stmt.resolveEach one).Gives place before mid) :
    W ⟨.stmts rest, mid⟩ ∧ mid.views = [] := by
  induction one generalizing before place with
  | nil =>
      obtain ⟨-, rfl⟩ := Stmt.resolveEach_gives.1 walk
      exact ⟨inside, top⟩
  | cons s one ih =>
      obtain ⟨s', mid', others, first, walk, -⟩ := Stmt.resolveEach_gives.1 walk
      have placed : Placed W (.stmt s') place mid' :=
        ⟨.stmt s, known.walks inside .statement, .stmt first⟩
      exact ih (known.walks inside (.otherStatements first)) (placed.top known top) walk

/-- A statement of a program with its distances is what the walk gave for the statement at the
same position. -/
theorem resolveEach_split {program before after : List Stmt} {s' : Stmt}
    {place place' : Surroundings}
    (walk : (Stmt.resolveEach program).Gives place (before ++ s' :: after) place') :
    ∃ one s rest mid mid', program = one ++ s :: rest ∧
      (Stmt.resolveEach one).Gives place before mid ∧ s.resolve.Gives mid s' mid' := by
  induction before generalizing program place with
  | nil =>
      cases program with
      | nil => cases (Stmt.resolveEach_gives.1 walk).1
      | cons s rest =>
          obtain ⟨_, mid', _, first, -, same⟩ := Stmt.resolveEach_gives.1 walk
          cases same
          exact ⟨[], s, rest, place, mid', rfl, Stmt.resolveEach_gives.2 ⟨rfl, rfl⟩, first⟩
  | cons t before ih =>
      cases program with
      | nil => cases (Stmt.resolveEach_gives.1 walk).1
      | cons u program =>
          obtain ⟨_, mid, _, first, others, same⟩ := Stmt.resolveEach_gives.1 walk
          cases same
          obtain ⟨one, s, rest, mid', mid'', rfl, walk, found⟩ := ih others
          exact ⟨u :: one, s, rest, mid', mid'', rfl,
            Stmt.resolveEach_gives.2 ⟨_, mid, _, first, walk, rfl⟩, found⟩

/-- Running the first statements of a program leads to the place of the next one. -/
theorem interpret_safe {before after : List Stmt} {place place' : Surroundings} (known : Known W)
    (sound : m.heap.Sound W P) (global : m.current = Machine.globals)
    (placed : Placed W (.stmts (before ++ after)) place place') (top : place.views = []) :
    Safe W (interpret fuel before) m fun _ m' => m'.heap.Sound W P ∧
      ∃ mid : Surroundings, mid.views = [] ∧ Placed W (.stmts after) mid place' := by
  induction before generalizing m place with
  | nil => exact Safe.pure ⟨sound, place, top, placed⟩
  | cons s before ih =>
      obtain ⟨mid, first, others⟩ := placed.stmts_parts known
      have run := (keeps known fuel).execute (admitted_top sound global first top)
      have step : Safe W (do let _ ← execute fuel s) m fun _ m' => m'.heap.Sound W P :=
        run.bind fun _ _ _ _ done => Safe.pure done.1
      apply step.bind
      rintro - m₁ - still sound₁
      exact ih sound₁ (still.trans global) others (first.top known top)

/-- Running a program some times over keeps the heap sound. -/
theorem interpretTimes_safe {program : List Stmt} {place place' : Surroundings} {times : Nat}
    (known : Known W) (sound : m.heap.Sound W P) (global : m.current = Machine.globals)
    (placed : Placed W (.stmts program) place place') (top : place.views = []) :
    Safe W (Session.interpretTimes fuel program times) m fun _ m' => m'.heap.Sound W P := by
  induction times generalizing m with
  | zero => exact Safe.pure sound
  | succ times ih =>
      rw [← List.append_nil program] at placed
      apply (interpret_safe known sound global placed top).bind
      rintro - m₁ - still ⟨sound₁, -⟩
      exact ih sound₁ (still.trans global)

/-- Every statement of a program that a run comes to is admitted. -/
theorem admitted_interpret {before after : List Stmt} {s : Stmt} {place place' : Surroundings}
    (known : Known W) (sound : m.heap.Sound W P) (global : m.current = Machine.globals)
    (placed : Placed W (.stmts (before ++ s :: after)) place place') (top : place.views = [])
    (run : (interpret fuel before).Gives m () m') :
    Visit.Admitted W P ⟨fuel, .execute s, m'⟩ := by
  obtain ⟨still, sound', mid, top', others⟩ :=
    (interpret_safe known sound global placed top).gives run
  obtain ⟨mid', next, -⟩ := others.stmts_parts known
  exact admitted_top sound' (still.trans global) next top'

end TreeWalk
