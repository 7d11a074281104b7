import TreeWalk.Proofs.Loops.Clauses
import TreeWalk.Proofs.Loops.Recounting
import TreeWalk.Proofs.Run.Passing
import TreeWalk.Proofs.Run.Sessions

/-!
# Sessions in which counting loops are run as such

The steps of a session are taken a second time with the scope rules in which a counting loop brings
no scopes with its passes, and with the evaluator that runs it clause by clause without frames for
them. Every step answers the same, prints the same and leaves the same machine but for the frames
of passes.

## Implementation notes

Both sides spend the same fuel, so one of them runs out of it exactly if the other one does.
-/

namespace TreeWalk

open Erasure

variable {α β : Type} {readings : Nat → Float} {history : History} {s t : Session} {fuel : Nat}
  {mode : Mode}
  {source : String}

namespace Counting

/-- A program with its distances, and the number of local uses in it. -/
def resolveProgram (program : List Stmt) : Noted (List Stmt × Nat) :=
  match (resolveStmts program).walk .initial with
  | (.ok program, after) => .done (.resolved after.found.size) (program, after.found.size)
  | (.error e, _) => .failed (.scope e)

/-- The program of a source with its distances. -/
def prepareSource (source : String) : Noted (List Stmt × Nat) :=
  (parseSource source).andThen resolveProgram

/-- An expression with its distances, and the number of local uses in it. -/
def resolveExpression (e : Expr) : Except Failure (Expr × Nat) :=
  match (resolveExpr e).walk .initial with
  | (.ok e, after) => .ok (e, after.found.size)
  | (.error e, _) => .error (.scope e)

/-- Run a program some times over, up to the first run that stops early. -/
def interpretTimes (fuel : Nat) (program : List Stmt) : Nat → Eval Unit
  | 0 => return ()
  | times + 1 => do
    interpret fuel program
    interpretTimes fuel program times

/-- Run a program on the machine. -/
def runProgram (s : Session) (fuel : Nat) (times : Nat) (program : List Stmt) : Answer × Session :=
  let (result, after) := s.run (interpretTimes fuel program times)
  (⟨[.executing program.length], result.map fun _ => none⟩, after)

/-- Evaluate an expression on the machine. -/
def evaluateExpression (s : Session) (fuel : Nat) (e : Expr) : Answer × Session :=
  let (result, after) := s.run (evaluate fuel e)
  (⟨[], result.map some⟩, after)

/-- One step: what is printed is that of this step alone. -/
def step (s : Session) (fuel : Nat) (mode : Mode) (source : String) : Answer × Session :=
  let s := s.silent
  match mode with
  | .run times =>
    match prepareSource source with
    | ⟨notes, .error e⟩ => (⟨notes, .error e⟩, s)
    | ⟨notes, .ok (program, uses)⟩ =>
      let (answer, after) := runProgram (s.addLocated uses) fuel times program
      (⟨notes ++ answer.notes, answer.result⟩, after)
  | .runRaw times =>
    match parseSource source with
    | ⟨notes, .error e⟩ => (⟨notes, .error e⟩, s)
    | ⟨notes, .ok program⟩ =>
      let (answer, after) := runProgram s fuel times program
      (⟨notes ++ answer.notes, answer.result⟩, after)
  | .evaluate =>
    match parseExpression source >>= resolveExpression with
    | .error e => (⟨[], .error e⟩, s)
    | .ok (e, uses) => evaluateExpression (s.addLocated uses) fuel e
  | .evaluateRaw =>
    match parseExpression source with
    | .error e => (⟨[], .error e⟩, s)
    | .ok e => evaluateExpression s fuel e

theorem thinned_initial : Surroundings.Thinned [] .initial .initial := ⟨.nil, rfl, rfl, rfl⟩

/-- The scope rules give the same program but for its distances. -/
theorem resolveProgram_eq (program : List Stmt) :
    resolveProgram program =
      ⟨(TreeWalk.resolveProgram program).notes,
        (TreeWalk.resolveProgram program).result.map fun (tree, uses) =>
          (Stmt.thinEach [false] tree, uses)⟩ := by
  have both := Stmt.resolveEach_recounts program [] trivial (.inl trivial) thinned_initial
  unfold resolveProgram TreeWalk.resolveProgram Resolve.walk
  generalize Stmt.resolveEach program .initial = one, resolveStmts program .initial = other at both
  cases both with
  | ok same after =>
      simp only [same, after.found]
      rfl
  | error => rfl

theorem resolveExpression_eq (e : Expr) :
    resolveExpression e =
      (TreeWalk.resolveExpression e).map fun (tree, uses) => (tree.thin [false], uses) := by
  have both := e.resolve_recounts (show Layers.Fits [] from trivial) thinned_initial
  unfold resolveExpression TreeWalk.resolveExpression Resolve.walk
  generalize e.resolve .initial = one, resolveExpr e .initial = other at both
  cases both with
  | ok same after =>
      simp only [same, after.found]
      rfl
  | error => rfl

theorem prepareExpression_eq (source : String) :
    parseExpression source >>= resolveExpression =
      (parseExpression source >>= TreeWalk.resolveExpression).map fun (tree, uses) =>
        (tree.thin [false], uses) := by
  cases parseExpression source with
  | error e => rfl
  | ok e => exact resolveExpression_eq e

theorem prepareSource_eq (source : String) :
    prepareSource source =
      ⟨(TreeWalk.prepareSource source).notes,
        (TreeWalk.prepareSource source).result.map fun (tree, uses) =>
          (Stmt.thinEach [false] tree, uses)⟩ := by
  unfold prepareSource TreeWalk.prepareSource Noted.andThen
  cases (parseSource source).result with
  | error e => rfl
  | ok program =>
      dsimp only
      rw [resolveProgram_eq]

end Counting

namespace Erasure

variable {E : Erasure} {h g : Heap} {m : Machine} {Q : Knowing α β}

/-- The outermost frame is not that of a pass. -/
theorem Strips.shape_globals (strips : E.Strips h g) :
    E.shape h.frames Machine.globals = [false] := by
  have outermost : h.frames.parent? Machine.globals = none := by
    rw [Option.eq_none_iff_forall_ne_some]
    intro p link
    exact absurd (strips.frames.linked link) (Nat.not_lt_zero p)
  rw [shape, Frames.chain_of_none outermost, List.map_cons, List.map_nil]
  cases pass : E.isPass Machine.globals with
  | false => rfl
  | true =>
      obtain ⟨p, link, -⟩ := strips.frames.around strips.rooted pass
      rw [outermost] at link
      cases link

theorem Agrees.atTop {x : Eval α} {y : Eval β} (global : m.current = Machine.globals)
    (act : E.shape m.heap.frames m.current = [false] → E.Agrees m Q x y) : E.Agrees m Q x y := by
  intro E' m' d' onward strips
  have shape : E'.shape m'.heap.frames m'.current = [false] := by
    rw [onward.current, global, strips.heap.shape_globals]
  rw [onward.shape_eq] at shape
  exact act shape onward strips

/-- A program runs as the thinned one does without the frames of passes. -/
theorem interpret_agrees (fuel : Nat) (program : List Stmt)
    (global : m.current = Machine.globals) :
    E.Agrees m Equal (interpret fuel program)
      (Counting.interpret fuel (Stmt.thinEach [false] program)) := by
  induction program generalizing E m with
  | nil => exact .pure fun _ => rfl
  | cons s rest ih =>
      apply Agrees.atTop global
      intro shape
      have run := (runsAgree fuel).execute (E := E) (m := m) (s := s) fun pass => by
        rw [isPass_of_shape shape] at pass
        cases pass
      rw [shape] at run
      have first : E.Agrees m Equal (do let _ ← execute fuel s)
          (do let _ ← Counting.execute fuel (s.thin [false])) :=
        run.bind fun _ _ => .pure fun _ => rfl
      exact first.bind fun onward _ => ih (onward.current.trans global)

theorem interpretTimes_agrees (fuel : Nat) (program : List Stmt) (times : Nat)
    (global : m.current = Machine.globals) :
    E.Agrees m Equal (Session.interpretTimes fuel program times)
      (Counting.interpretTimes fuel (Stmt.thinEach [false] program) times) := by
  induction times generalizing E m with
  | zero => exact .pure fun _ => rfl
  | succ times ih =>
      exact (interpret_agrees fuel program global).bind fun onward _ =>
        ih (onward.current.trans global)

/-- Nothing is left out. -/
def whole : Erasure := ⟨id, fun _ => false, fun _ => false⟩

theorem whole_erases {fs : Frames Value} (linked : ∀ {i p}, fs.parent? i = some p → p < i) :
    whole.Erases fs fs where
  linked := linked
  inside := id
  later earlier _ _ := earlier
  parent _ _ := (congrFun Option.map_id _).symm
  same _ _ _ := rfl
  around _ := nofun
  empty _ := nofun
  onto within := ⟨_, within, rfl, rfl⟩

theorem whole_strips :
    whole.StripsMachine (Machine.initial readings) (Machine.initial readings) where
  heap :=
    { frames := whole_erases (Machine.initial_linked readings).heap.parent
      rooted := (Machine.initial_linked readings).inside
      globals := rfl
      size := rfl
      closures := fun _ => rfl
      inside := nofun
      classes := rfl
      objects := rfl
      locals := fun found => (Machine.initial_local? found).2 ▸ trivial
      fields := nofun
      methods := nofun }
  inside := (Machine.initial_linked readings).inside
  current := rfl
  output := rfl
  readings := rfl
  taken := rfl

end Erasure

/-- The one session is the other one without the frames of passes. -/
structure Session.Stripped (s t : Session) : Prop where
  machine : ∃ E : Erasure, E.StripsMachine s.machine t.machine
  global : s.machine.current = Machine.globals
  located : t.located = s.located

namespace Session.Stripped

theorem initial : (Session.initial readings).Stripped (.initial readings) :=
  ⟨⟨_, whole_strips⟩, rfl, rfl⟩

theorem silent (stripped : s.Stripped t) : s.silent.Stripped t.silent := by
  obtain ⟨⟨E, strips⟩, global, located⟩ := stripped
  exact ⟨⟨E, { strips with heap := strips.heap, output := rfl }⟩, global, located⟩

theorem addLocated (stripped : s.Stripped t) (uses : Nat) :
    (s.addLocated uses).Stripped (t.addLocated uses) :=
  ⟨stripped.machine, stripped.global, congrArg (· + uses) stripped.located⟩

/-- Computations that agree give the same on stripped sessions. -/
theorem run {x y : Eval α} (stripped : s.Stripped t)
    (agrees : ∀ E : Erasure, E.Agrees s.machine Equal x y)
    (noFault : ∀ f, (s.run x).1 ≠ .error (.run (.fault f))) :
    (t.run y).1 = (s.run x).1 ∧ (s.run x).2.Stripped (t.run y).2 := by
  obtain ⟨⟨E, strips⟩, global, located⟩ := stripped
  have both := agrees E (.refl E strips.inside) strips
  unfold Session.run EStateM.run at noFault ⊢
  generalize x s.machine = one, y t.machine = other at both noFault
  cases both with
  | ok onward strips known =>
      cases known
      exact ⟨rfl, ⟨_, strips⟩, onward.current.trans global, located⟩
  | error onward strips => exact ⟨rfl, ⟨_, strips⟩, onward.current.trans global, located⟩
  | fault => exact absurd rfl (noFault _)

theorem runProgram {program : List Stmt} {times : Nat} (stripped : s.Stripped t)
    (noFault : ∀ f, (s.runProgram fuel times program).1.result ≠ .error (.run (.fault f))) :
    (Counting.runProgram t fuel times (Stmt.thinEach [false] program)).1 =
        (s.runProgram fuel times program).1 ∧
      (s.runProgram fuel times program).2.Stripped
        (Counting.runProgram t fuel times (Stmt.thinEach [false] program)).2 := by
  have both := stripped.run
    (fun E => interpretTimes_agrees (E := E) fuel program times stripped.global)
    fun f failed => noFault f (congrArg (Except.map fun _ => none) failed)
  refine ⟨?_, both.2⟩
  show Answer.mk [.executing (Stmt.thinEach [false] program).length] ((t.run _).1.map _) =
    Answer.mk [.executing program.length] ((s.run _).1.map _)
  rw [both.1, Stmt.length_thinEach]

theorem evaluateExpression {e : Expr} (stripped : s.Stripped t)
    (noFault : ∀ f, (s.evaluateExpression fuel e).1.result ≠ .error (.run (.fault f))) :
    (Counting.evaluateExpression t fuel (e.thin [false])).1 = (s.evaluateExpression fuel e).1 ∧
      (s.evaluateExpression fuel e).2.Stripped
        (Counting.evaluateExpression t fuel (e.thin [false])).2 := by
  have agrees (E : Erasure) : E.Agrees s.machine Equal (evaluate fuel e)
      (Counting.evaluate fuel (e.thin [false])) := by
    apply Agrees.atTop stripped.global
    intro shape
    have run := (runsAgree fuel).evaluate (E := E) (m := s.machine) e
    rw [shape] at run
    exact run.imp fun _ known => known.1
  have both := stripped.run agrees fun f failed => noFault f (congrArg (Except.map some) failed)
  refine ⟨?_, both.2⟩
  show Answer.mk [] ((t.run _).1.map _) = Answer.mk [] ((s.run _).1.map _)
  rw [both.1]

/-- A step that goes through the scope rules gives the same, and strips the session again. -/
theorem step (stripped : s.Stripped t) (resolved : mode.IsResolved)
    (noFault : ∀ f, (s.step fuel mode source).1.result ≠ .error (.run (.fault f))) :
    (Counting.step t fuel mode source).1 = (s.step fuel mode source).1 ∧
      (s.step fuel mode source).2.Stripped (Counting.step t fuel mode source).2 := by
  cases mode with
  | runRaw | evaluateRaw => cases resolved
  | run times =>
      have same := Counting.prepareSource_eq source
      rcases prepared : prepareSource source with ⟨notes, e | ⟨program, uses⟩⟩
      · rw [prepared] at same
        simp only [Session.step, Counting.step, prepared, same, Except.map]
        exact ⟨trivial, stripped.silent⟩
      · rw [prepared] at same
        simp only [Session.step, prepared] at noFault
        simp only [Session.step, Counting.step, prepared, same, Except.map]
        obtain ⟨answers, after⟩ := (stripped.silent.addLocated uses).runProgram noFault
        refine ⟨?_, after⟩
        rw [answers]
        rfl
  | evaluate =>
      have same := Counting.prepareExpression_eq source
      rcases prepared : parseExpression source >>= resolveExpression with e | ⟨e, uses⟩
      · rw [prepared] at same
        simp only [Session.step, Counting.step, prepared, same, Except.map]
        exact ⟨trivial, stripped.silent⟩
      · rw [prepared] at same
        simp only [Session.step, prepared] at noFault
        simp only [Session.step, Counting.step, prepared, same, Except.map]
        exact (stripped.silent.addLocated uses).evaluateExpression noFault

end Session.Stripped

end TreeWalk
