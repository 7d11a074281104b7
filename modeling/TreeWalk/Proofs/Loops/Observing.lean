import TreeWalk.Proofs.Loops.Sessions

/-!
# Counting loops run as they are written

A counting loop is read as a loop in blocks, with a scope for its first clause and one around
its body and its increment. Nothing of this can be told from outside: sessions go the same way in
which counting loops are run clause by clause, with one scope for the whole loop at most. The scope
of a pass binds nothing, so no name in a body hides one in the condition or in the increment.

## Implementation notes

The loops of a session are compared both as they are run in the course of its steps, frame by
frame, and by what is seen of the session between the steps.
The grammar has no declaration as the body of a loop or a branch, so bodies are required to be
plain.
-/

namespace TreeWalk

open Erasure

section Sessions

variable {readings : Nat → Float} {history : History} {s t : Session} {fuel : Nat} {mode : Mode}
  {source : String} {place after : Surroundings}

/-- The scopes around the body of a counting loop: there is one for a pass if there is an
increment. -/
def Surroundings.inPass (step : Option Expr) (place : Surroundings) : Surroundings :=
  if step.isSome then { place with scopes := .empty :: place.scopes } else place

theorem Surroundings.distance?_inPass (step : Option Expr) (place : Surroundings) (name : String) :
    (place.inPass step).distance? name =
      (place.distance? name).map (· + if step.isSome then 1 else 0) := by
  cases step with
  | none => simp [inPass]
  | some increment =>
      have absent : (Scope.view .empty name).isSome = false := rfl
      have views : (place.inPass (some increment)).views = Scope.view .empty :: place.views := rfl
      rw [distance?_eq, views, List.findIdx?_cons, absent, distance?_eq]
      rfl

/-- Behind a body that declares nothing every name is where it was. -/
theorem Stmt.distance?_behind {body body' : Stmt} (layered : body.Layered)
    (undeclared : body.declared? = none) (walk : body.resolve.Gives place body' after)
    (name : String) : after.distance? name = place.distance? name := by
  have alike := Stmt.resolve_after layered walk
  rw [undeclared] at alike
  rw [Surroundings.distance?_eq, Surroundings.Alike.views alike, Surroundings.distance?_eq]

/-- A loop that a step comes to runs clause by clause on the machine without the frames of passes,
and it does not stop for a fault. -/
theorem Session.Visits.forLoop_outcome {n : Nat} {m d : Machine} {P : Pending} {E : Erasure}
    {initial : Option Stmt} {condition step : Option Expr} {body : Stmt}
    (reached : Reached readings history s)
    (visits : s.Visits fuel mode source
      ⟨n, .execute (Grammar.forLoop initial condition step body), m⟩ P)
    (plain : body.IsPlain) (single : step = none → body.counted? = none)
    (strips : E.StripsMachine m d) :
    (∀ f m', execute n (Grammar.forLoop initial condition step body) m ≠ .error (.fault f) m') ∧
      let inner := (E.shape m.heap.frames m.current).inLoop initial
      E.Outcome m SameCompletion (execute n (Grammar.forLoop initial condition step body) m)
        (Evaluator.counting.forLoop (initial.map (Stmt.thin inner))
          (condition.map (Expr.thin inner))
          (Counting.round (step.map (Expr.thin (inner.inPass step)))
            (body.thin (inner.inPass step))) n d) := by
  obtain ⟨Q, steady⟩ := reached.steady
  have known := walkedIn_known ((mode, source) :: history)
  have safe := (keeps known n).execute (visits.admitted steady)
  constructor
  · intro f m' failed
    unfold Safe EStateM.run at safe
    rw [failed] at safe
    exact safe.2.1 f rfl
  · exact forLoop_agrees n plain single (.refl E strips.inside) strips

/-- A counting loop is read into the tree of its clauses, and its body declares nothing where it
stands. -/
theorem Grammar.forRest_reads {depth : Nat} {tokens rest : List Token} {loop : Stmt} :
    (forRest (depth + 1)).Gives tokens loop rest ↔
      ∃ initial condition step body, ForClauses depth tokens initial condition step body rest ∧
        body.IsPlain ∧ body.Layered ∧ body.declared? = none ∧
        loop = forLoop initial condition step body := by
  rw [forRest_gives]
  constructor
  · rintro ⟨initial, condition, step, body, clauses, same⟩
    have read := clauses
    obtain ⟨_, _, _, _, _, _, _, -, -, -, -, -, -, -, pass⟩ := read
    obtain ⟨-, layered, undeclared, -⟩ := (accounted depth).statement pass
    exact ⟨initial, condition, step, body, clauses, layered.isPlain undeclared, layered,
      undeclared, same⟩
  · rintro ⟨initial, condition, step, body, clauses, -, -, -, same⟩
    exact ⟨initial, condition, step, body, clauses, same⟩

/-- A session and one after the same steps in which counting loops are run clause by clause. -/
inductive Beside (readings : Nat → Float) : History → Session → Session → Prop
  | initial : Beside readings [] (.initial readings) (.initial readings)
  | step {history : History} {s t : Session} {fuel : Nat} {mode : Mode} {source : String} :
      Beside readings history s t → mode.IsResolved →
      Beside readings ((mode, source) :: history) (s.step fuel mode source).2
        (Counting.step t fuel mode source).2

theorem Beside.reached (h : Beside readings history s t) : Reached readings history s := by
  induction h with
  | initial => exact .initial
  | step _ resolved ih => exact .step ih resolved

theorem Reached.beside (h : Reached readings history s) : ∃ t, Beside readings history s t := by
  induction h with
  | initial => exact ⟨_, .initial⟩
  | step _ resolved ih =>
      obtain ⟨t, beside⟩ := ih
      exact ⟨_, beside.step resolved⟩

/-- Between two steps the one machine is the other one without the frames of passes. -/
theorem Beside.stripped (h : Beside readings history s t) : s.Stripped t := by
  induction h with
  | initial => exact .initial
  | step beside resolved ih =>
      exact (ih.step resolved (session_never_faults beside.reached resolved).1).2

/-- What the machines of stripped sessions have in common. -/
theorem Session.Stripped.seen (stripped : s.Stripped t) :
    t.output = s.output ∧ t.isAtTopLevel = s.isAtTopLevel ∧ t.located = s.located ∧
      (∀ name, t.machine.frames.local? Machine.globals name =
        s.machine.frames.local? Machine.globals name) ∧
      t.machine.heap.objects = s.machine.heap.objects ∧
      t.machine.heap.classes = s.machine.heap.classes := by
  obtain ⟨⟨E, strips⟩, global, located⟩ := stripped
  have heap := strips.heap
  have current : t.machine.current = s.machine.current := by
    rw [strips.current, global, heap.globals]
  have kept : E.isPass Machine.globals = false := isPass_of_shape heap.shape_globals
  refine ⟨strips.output, ?_, located, fun name => ?_, heap.objects, heap.classes⟩
  · rw [Session.isAtTopLevel, Session.isAtTopLevel, current]
  · have same := heap.frames.same heap.rooted kept name
    rw [heap.globals] at same
    exact same

/-- Counting loops behave as they are written, whatever clauses they have and wherever they stand.
What is read behind the keyword is the tree of such a loop. Beside every session there is one that
resolves and runs them clause by clause, with one scope for the whole loop at most and none for a
pass: what it prints, its global variables, its objects and its classes are the same, its frames
and closures are the same but for the frames of passes, and every step gives the same answer. In it
a loop is run by its clauses: the first one once, the condition before each pass, the increment
behind a body that did not return. Every loop that a step of the session comes to completes as its
clauses do. A loop without an increment has no frames of passes, so this one is run by its clauses
as it is. No name that a body declares is one that the increment or the condition means. -/
theorem counting_loops (reached : Reached readings history s) :
    (∀ depth tokens loop rest, (Grammar.forRest (depth + 1)).Gives tokens loop rest ↔
      ∃ initial condition step body,
        Grammar.ForClauses depth tokens initial condition step body rest ∧
        body.IsPlain ∧ body.Layered ∧ body.declared? = none ∧
        loop = Grammar.forLoop initial condition step body) ∧
    (∃ t, Beside readings history s t) ∧
    (∀ t, Beside readings history s t →
      (t.output = s.output ∧ t.isAtTopLevel = s.isAtTopLevel ∧ t.located = s.located ∧
        (∀ name, t.machine.frames.local? Machine.globals name =
          s.machine.frames.local? Machine.globals name) ∧
        t.machine.heap.objects = s.machine.heap.objects ∧
        t.machine.heap.classes = s.machine.heap.classes) ∧
      (∃ E : Erasure, E.StripsMachine s.machine t.machine) ∧
      ∀ fuel mode source, mode.IsResolved →
        (Counting.step t fuel mode source).1 = (s.step fuel mode source).1) ∧
    (∀ n initial condition step (body : Stmt), body.IsPlain →
      (step = none → body.counted? = none) →
      Counting.execute n (Grammar.forLoop initial condition step body) =
        Evaluator.counting.forLoop initial condition (Counting.round step body) n) ∧
    (∀ fuel mode source n initial condition step (body : Stmt) m P, s.Visits fuel mode source
        ⟨n, .execute (Grammar.forLoop initial condition step body), m⟩ P →
      body.IsPlain → (step = none → body.counted? = none) →
      ∀ (E : Erasure) d, E.StripsMachine m d →
        (∀ f m', execute n (Grammar.forLoop initial condition step body) m ≠
          .error (.fault f) m') ∧
        let inner := (E.shape m.heap.frames m.current).inLoop initial
        E.Outcome m SameCompletion (execute n (Grammar.forLoop initial condition step body) m)
          (Evaluator.counting.forLoop (initial.map (Stmt.thin inner))
            (condition.map (Expr.thin inner))
            (Counting.round (step.map (Expr.thin (inner.inPass step)))
              (body.thin (inner.inPass step))) n d)) ∧
    (∀ n initial condition body, execute n (Grammar.forLoop initial condition none body) =
      Evaluator.nested.forLoop initial condition (execute · body) n) ∧
    ∀ (step : Option Expr) (body body' : Stmt) (place after : Surroundings), body.Layered →
      body.declared? = none → body.resolve.Gives (place.inPass step) body' after →
      ∀ name, after.distance? name =
        (place.distance? name).map (· + if step.isSome then 1 else 0) := by
  refine ⟨fun _ _ _ _ => Grammar.forRest_reads, reached.beside, ?_, ?_, ?_, ?_, ?_⟩
  · intro t beside
    have stripped := beside.stripped
    refine ⟨stripped.seen, stripped.machine, fun fuel mode source resolved => ?_⟩
    exact (stripped.step resolved (session_never_faults reached resolved).1).1
  · intro n initial condition step body plain single
    rw [← Counting.round_eq plain single]
    exact Evaluator.counting.execute_forLoop initial condition step body n
  · intro fuel mode source n initial condition step body m P visits plain single E d strips
    exact visits.forLoop_outcome reached plain single strips
  · intro n initial condition body
    exact Evaluator.nested.execute_forLoop initial condition none body n
  · intro step body body' place after layered undeclared walk name
    rw [Stmt.distance?_behind layered undeclared walk name, Surroundings.distance?_inPass]

end Sessions

/-- A source in which a function that is made in a pass outlives the loop. -/
def sharedVariable : String :=
  "var f; for (var x = true; x; x = false) \x7b fun g() \x7b return x; \x7d f = g; \x7d"

namespace IdleLoop

open TokenKind (word)

/-- A loop that has no pass. -/
def source : String := "for (; nil; nil) \x7b\x7d"

/-- Its condition, and also its increment. -/
def clause : Expr := .literal .nil

/-- Its body. -/
def body : Stmt := .block []

/-- The tree that is made of it. -/
def tree : Stmt := Grammar.forLoop none (some clause) (some clause) body

/-- What stands behind its keyword. -/
def clauses : List Token :=
  [word .leftParen "(", word .semicolon ";", word .nilWord "nil", word .semicolon ";",
    word .nilWord "nil", word .rightParen ")", word .leftBrace "\x7b", word .rightBrace "\x7d",
    .endOfText 1]

theorem prepared : (prepareSource source).result = .ok ([tree], 0) := by
  have scanned : (scanSource source).result = .ok (word .forWord "for" :: clauses) := by
    decide +kernel
  have read : (Grammar.program (word .forWord "for" :: clauses)).1 = .ok [tree] := rfl
  have resolved : (resolveProgram [tree]).result = .ok ([tree], 0) := rfl
  simp only [prepareSource, parseSource, Noted.andThen, scanned, read, Noted.done, resolved]

end IdleLoop

open IdleLoop in
/-- The function gives what the increment left in the variable, also where the loop is run by its
clauses. The loop of a later step is read from its clauses; it has no pass and stops for no
fault. -/
theorem counting_loops_shared :
    let s := ((Session.initial fun _ => 0).step 40 (.run 1) sharedVariable).2
    Reached (fun _ => 0) [(.run 1, sharedVariable)] s ∧ Mode.IsResolved .evaluate ∧
      ((Grammar.forRest 30).Gives clauses tree [.endOfText 1] ∧ ∃ initial condition step body,
        Grammar.ForClauses 29 clauses initial condition step body [.endOfText 1] ∧
        tree = Grammar.forLoop initial condition step body) ∧
      (∃ t, Beside (fun _ => 0) [(.run 1, sharedVariable)] s t ∧
        (Counting.step t 40 .evaluate "f()").1.result = .ok (some (.scalar (.boolean false)))) ∧
      (s.Visits 9 (.run 1) source ⟨9, .execute tree, s.silent.machine⟩ [] ∧ body.IsPlain ∧
        (∃ (E : Erasure) (d : Machine), E.StripsMachine s.silent.machine d) ∧
        ∀ f m', execute 9 tree s.silent.machine ≠ .error (.fault f) m') ∧
      Counting.execute 9 tree =
        Evaluator.counting.forLoop none (some clause) (Counting.round (some clause) body) 9 ∧
      ∃ body' after, body.resolve.Gives (Surroundings.initial.inPass (some clause)) body' after ∧
        after.distance? "x" = none := by
  intro s
  have reached : Reached (fun _ => 0) [(.run 1, sharedVariable)] s := .step .initial trivial
  have resolved : Mode.IsResolved .evaluate := trivial
  have result : (s.step 40 .evaluate "f()").1.result = .ok (some (.scalar (.boolean false))) := by
    decide +kernel
  have plain : body.IsPlain := trivial
  have visits : s.Visits 9 (.run 1) source ⟨9, .execute tree, s.silent.machine⟩ [] := by
    have prepared := prepared
    rw [← List.nil_append [tree]] at prepared
    exact .statement prepared Nat.one_pos rfl rfl
  have walk : body.resolve.Gives (Surroundings.initial.inPass (some clause)) body _ := rfl
  have read : (Grammar.forRest 30).Gives clauses tree [.endOfText 1] := rfl
  obtain ⟨reads, ⟨t, beside⟩, all, runs, completes, -, keeps⟩ := counting_loops reached
  obtain ⟨_, _, _, _, found, -, -, -, same⟩ := (reads 29 clauses tree _).1 read
  obtain ⟨E, strips⟩ := beside.stripped.silent.machine
  refine ⟨reached, resolved, ⟨read, _, _, _, _, found, same⟩, ⟨t, beside, ?_⟩,
    ⟨visits, plain, ⟨E, _, strips⟩, ?_⟩, ?_, ⟨_, _, walk, ?_⟩⟩
  · rw [(all t beside).2.2 40 .evaluate "f()" resolved]
    exact result
  · exact (completes 9 (.run 1) source 9 none _ _ _ _ [] visits plain nofun E _ strips).1
  · exact runs 9 none _ _ _ plain nofun
  · exact keeps _ body _ .initial _ trivial rfl walk "x"

end TreeWalk
