import TreeWalk.Proofs.Counterparts.Reading
import TreeWalk.Proofs.Counterparts.Resolving
import TreeWalk.Proofs.Counterparts.Running
import TreeWalk.Proofs.Run.Sessions

/-!
# Steps of sessions that differ in their lines

Sources whose tokens are counterparts fare alike in every stage of a step: they are read,
resolved and run alike, or the same stage fails for the same reason.

## Implementation notes

A session is seen through what it shows: what was printed and the global variables. What
sources come to that are run one after the other is compared with one run of all their
programs, so a session can be compared with a single program.
-/

namespace TreeWalk

variable {R : Correspondence} {before before' : String}

/-- Two reports are the same but for the line: they are of the same stage, with the same
message and the same place, at tokens that are counterparts. -/
structure Report.Like (R : Correspondence) (r r' : Report) : Prop where
  stage : r.stage = r'.stage
  message : r.message = r'.message
  place : r.place = r'.place
  tokens : ∃ t u, r.token = some t ∧ r'.token = some u ∧ R.relates t u

theorem Report.atToken_like (stage : Stage) (message : String) {t u : Token}
    (h : R.relates t u) :
    (Report.atToken stage message t).Like R (.atToken stage message u) where
  stage := rfl
  message := rfl
  place := by simp [place, atToken, (R.sameWord h).kind, (R.sameWord h).lexeme]
  tokens := ⟨t, u, rfl, rfl, h⟩

/-- Two steps fail in the same stage behind the scanner, for the same reason. -/
inductive Failure.Like (R : Correspondence) : Failure → Failure → Prop
  | grammar {halt halt' : Grammar.Halt} : halt.Like R halt' →
      Failure.Like R (.grammar halt) (.grammar halt')
  | scope {e e' : ScopeError} : e.Like R e' → Failure.Like R (.scope e) (.scope e')
  | run {stop stop' : Stop} : stop.Like R stop' → Failure.Like R (.run stop) (.run stop')

/-- Failures that are alike are told alike. -/
theorem Failure.Like.report? {e e' : Failure} (h : e.Like R e') :
    Option.Rel (Report.Like R) e.report? e'.report? := by
  cases h with
  | grammar halt =>
    cases halt with
    | error same => exact .some (Report.atToken_like _ _ same)
    | outOfTokens | outOfDepth => exact .none
  | @scope e e' same =>
    obtain ⟨cause, t⟩ := e
    obtain ⟨cause', u⟩ := e'
    obtain ⟨rfl, token⟩ : cause = cause' ∧ R.relates t u := ⟨same.cause, same.token⟩
    refine .some ?_
    rw [ScopeError.report, ScopeError.report, (R.sameWord token).lexeme]
    exact Report.atToken_like _ _ token
  | run stop =>
    cases stop with
    | @error cause t u same =>
      refine .some ?_
      rw [RuntimeError.report, RuntimeError.report, (R.sameWord same).lexeme]
      exact Report.atToken_like _ _ same
    | fault | outOfFuel => exact .none

theorem Noted.andThen_rel {α α' β β' : Type} {P : Failure → Failure → Prop} {Q : α → α' → Prop}
    {Q' : β → β' → Prop} {first : Noted α} {first' : Noted α'} {next : α → Noted β}
    {next' : α' → Noted β'} (h : Except.Rel P Q first.result first'.result)
    (both : ∀ a a', Q a a' → Except.Rel P Q' (next a).result (next' a').result) :
    Except.Rel P Q' (first.andThen next).result (first'.andThen next').result := by
  unfold Noted.andThen
  generalize first.result = one, first'.result = other at h
  cases h with
  | ok same => exact both _ _ same
  | error same => exact .error same

/-- Two programs with their distances are alike. -/
def PreparedLike (R : Correspondence) (one other : List Stmt × Nat) : Prop :=
  List.Forall₂ (Stmt.Like R) one.1 other.1 ∧ one.2 = other.2

theorem resolveProgram_rel {program program' : List Stmt}
    (rows : List.Forall₂ (Stmt.Like R) program program') :
    Except.Rel (Failure.Like R) (PreparedLike R) (resolveProgram program).result
      (resolveProgram program').result := by
  have both := Stmt.resolveEach_paired program rows Surroundings.Like.initial
  unfold resolveProgram Resolve.walk
  generalize Stmt.resolveEach program _ = one, Stmt.resolveEach program' _ = other at both
  cases both with
  | @ok tree tree' place place' alike after =>
    obtain ⟨uses, uses', all, all', rows⟩ := Surroundings.Like.found after
    refine .ok ⟨alike, ?_⟩
    show place.found.size = place'.found.size
    rw [← Array.length_toList, ← Array.length_toList, all, all']
    exact rows.length_eq
  | error same => exact .error (.scope same)

section

variable {source source' : String} {tokens tokens' : List Token}
  (scanned : (scanSource source).result = .ok tokens)
  (scanned' : (scanSource source').result = .ok tokens')
  (rows : List.Forall₂ R.relates tokens tokens')

include scanned scanned' rows

/-- Sources whose tokens are counterparts are read alike. -/
theorem parseSource_rel :
    Except.Rel (Failure.Like R) (List.Forall₂ (Stmt.Like R)) (parseSource source).result
      (parseSource source').result := by
  refine Noted.andThen_rel (Q := List.Forall₂ R.relates)
    (by rw [scanned, scanned']; exact .ok rows) ?_
  intro ts us rows
  have both := Grammar.program_paired rows
  unfold Grammar.program Grammar.Reader.read
  generalize Grammar.items _ ts = one, Grammar.items _ us = other at both
  cases both with
  | ok alike => exact .ok alike
  | error same => exact .error (.grammar same)

/-- They are resolved alike. -/
theorem prepareSource_rel :
    Except.Rel (Failure.Like R) (PreparedLike R) (prepareSource source).result
      (prepareSource source').result :=
  Noted.andThen_rel (parseSource_rel scanned scanned' rows) fun _ _ => resolveProgram_rel

end

/-- What is shown of a variable: its value's type and text and the texts of its fields. -/
structure ShownVariable where
  name : String
  type : String
  text : String
  fields : List (String × String)
  deriving DecidableEq

/-- The global variables as they are shown, in the order of their names. -/
def Session.shownGlobals (s : Session) : List ShownVariable :=
  s.globals.map fun global =>
    { name := global.1
      type := global.2.typeName
      text := s.machine.heap.text global.2
      fields := (s.machine.heap.fields global.2).map fun field =>
        (field.1, s.machine.heap.text field.2) }

theorem Machine.Like.shownGlobals {s s' : Session}
    (h : Machine.Like R before before' s.machine s'.machine) :
    s.shownGlobals = s'.shownGlobals := by
  have globals : s.globals = s'.globals := by
    unfold Session.globals
    rw [show s.machine.frames = s'.machine.frames from h.frames]
  unfold Session.shownGlobals
  rw [globals]
  refine List.map_congr_left fun shown _ => ?_
  rw [h.text, h.fields]
  congr 1
  exact List.map_congr_left fun field _ => by rw [h.text]

theorem Session.run_rel {α α' : Type} {Q : α → α' → Prop} {act : Eval α} {act' : Eval α'}
    (acts : Paired (Eval.likeness R before before') Q act act')
    (s s' : Session) (h : Machine.Like R before before' s.machine s'.machine) :
    Except.Rel (Failure.Like R) Q (s.run act).1 (s'.run act').1 ∧
      Machine.Like R before before' (s.run act).2.machine (s'.run act').2.machine := by
  have both := acts h
  unfold Session.run EStateM.run
  generalize act s.machine = one, act' s'.machine = other at both
  cases both with
  | ok same after => exact ⟨.ok same, after⟩
  | error same after => exact ⟨.error (.run same), after⟩

theorem interpretTimes_paired (fuel : Nat) {program program' : List Stmt}
    (rows : List.Forall₂ (Stmt.Like R) program program') (times : Nat) :
    Paired (Eval.likeness R before before') Eq (Session.interpretTimes fuel program times)
      (Session.interpretTimes fuel program' times) := by
  induction times with
  | zero => exact .pure rfl
  | succ times ih => exact (interpret_paired fuel rows).bind_same fun _ => ih

end TreeWalk
