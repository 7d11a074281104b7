import TreeWalk.Proofs.Grammar.Accounting.Programs
import TreeWalk.Proofs.Run.Programs
import TreeWalk.Proofs.Scope.Names
import Mathlib.Logic.Relation

/-!
# Sessions never fault

In a session whose trees all went through the scope rules no step stops for a fault.
Whenever a node is come to, there is one frame for every scope that was open at a spot
of the walk which gave this node, and the frames of `this` and `super` lie where their
scopes do.

## Implementation notes

Closures outlive their step, so a node may come from an earlier source of the session.
The sources are kept as a history, and a spot belongs to a history if the walk over one
of its sources comes to the spot. Where a step goes on in a program its spot goes along with
it, so two nodes that are the same are told apart by where they stand.
-/

namespace TreeWalk

open Surroundings

/-- The steps of a session, each with its mode and its source. -/
abbrev History : Type := List (Mode × String)

/-- A mode in which a tree goes through the scope rules. -/
def Mode.IsResolved : Mode → Prop
  | .run _ | .evaluate => True
  | .runRaw _ | .evaluateRaw => False

/-- The spot at which the walk over a source starts. -/
inductive Root : Mode → String → Spot → Prop
  | program {times source program} : (parseSource source).result = .ok program →
      Root (.run times) source ⟨.stmts program, .initial⟩
  | expression {source e} : parseExpression source = .ok e →
      Root .evaluate source ⟨.expr e, .initial⟩

/-- The walk over one of the sources comes to a spot. -/
def WalkedIn (history : History) (spot : Spot) : Prop :=
  ∃ step ∈ history, ∃ root, Root step.1 step.2 root ∧ Relation.ReflTransGen Walks root spot

/-- A session after some steps, in each of which the tree was resolved. -/
inductive Reached (readings : Nat → Float) : History → Session → Prop
  | initial : Reached readings [] (.initial readings)
  | step {history s fuel mode source} : Reached readings history s → mode.IsResolved →
      Reached readings ((mode, source) :: history) (s.step fuel mode source).2

/-- A word on the first line of a source that stands for itself. -/
def TokenKind.word (kind : TokenKind) (text : String) : Token :=
  ⟨kind, text, kind.wordLiteral, 1⟩

theorem Noted.andThen_ok {α β : Type} {first : Noted α} {next : α → Noted β} {b : β} :
    (first.andThen next).result = .ok b ↔
      ∃ a, first.result = .ok a ∧ (next a).result = .ok b := by
  unfold Noted.andThen
  split
  next failed => simp [failed]
  next a found => simp [found]

theorem Except.bind_ok {ε α β : Type} {x : Except ε α} {f : α → Except ε β} {b : β} :
    x >>= f = .ok b ↔ ∃ a, x = .ok a ∧ f a = .ok b := by
  cases x with
  | error e => simp [bind, Except.bind]
  | ok a => simp [bind, Except.bind]

theorem Noted.andThen_error {α β : Type} {first : Noted α} {next : α → Noted β} {e : Failure}
    (h : (first.andThen next).result = .error e) :
    first.result = .error e ∨ ∃ a, first.result = .ok a ∧ (next a).result = .error e := by
  unfold Noted.andThen at h
  split at h
  next failed =>
    cases h
    exact .inl failed
  next a found => exact .inr ⟨a, found, h⟩

theorem Except.bind_error {ε α β : Type} {x : Except ε α} {f : α → Except ε β} {e : ε}
    (h : x >>= f = .error e) : x = .error e ∨ ∃ a, x = .ok a ∧ f a = .error e := by
  cases x with
  | error => exact .inl (by simpa [bind, Except.bind] using h)
  | ok a => exact .inr ⟨a, rfl, h⟩

theorem parseSource_ok {source : String} {program : List Stmt}
    (h : (parseSource source).result = .ok program) :
    ∃ tokens rest, (scanSource source).result = .ok tokens ∧
      Grammar.program tokens = (.ok program, rest) := by
  obtain ⟨tokens, scanned, parsed⟩ := Noted.andThen_ok.1 h
  split at parsed
  next tree found =>
    cases parsed
    exact ⟨tokens, _, scanned, Prod.ext found rfl⟩
  next => cases parsed

theorem parseExpression_ok {source : String} {e : Expr} (h : parseExpression source = .ok e) :
    ∃ tokens rest, (scanSource source).result = .ok tokens ∧
      Grammar.wholeExpression tokens = (.ok e, rest) := by
  obtain ⟨tokens, scanned, parsed⟩ := Except.bind_ok.1 h
  cases found : (Grammar.wholeExpression tokens).1 with
  | error halt => simp [found, Except.mapError] at parsed
  | ok tree =>
      rw [found] at parsed
      cases parsed
      exact ⟨tokens, _, scanned, Prod.ext found rfl⟩

theorem scanSource_static {source : String} {e : Failure}
    (h : (scanSource source).result = .error e) : e.isStatic = true := by
  unfold scanSource at h
  split at h <;> cases h
  rfl

/-- What fails before anything is run fails for a reason in the text. -/
theorem prepareSource_static {source : String} {e : Failure}
    (h : (prepareSource source).result = .error e) : e.isStatic = true := by
  obtain parsing | ⟨program, -, resolving⟩ := Noted.andThen_error h
  · obtain scanning | ⟨tokens, -, reading⟩ := Noted.andThen_error parsing
    · exact scanSource_static scanning
    · split at reading <;> cases reading
      rfl
  · unfold resolveProgram at resolving
    split at resolving <;> cases resolving
    rfl

theorem prepareExpression_static {source : String} {e : Failure}
    (h : parseExpression source >>= resolveExpression = .error e) : e.isStatic = true := by
  obtain parsing | ⟨tree, -, resolving⟩ := Except.bind_error h
  · obtain scanning | ⟨tokens, -, reading⟩ := Except.bind_error parsing
    · exact scanSource_static scanning
    · cases found : (Grammar.wholeExpression tokens).1 with
      | error halt =>
          rw [found] at reading
          cases reading
          rfl
      | ok => simp [found, Except.mapError] at reading
  · unfold resolveExpression at resolving
    split at resolving <;> cases resolving
    rfl

/-- The tokens of a source are proper. -/
theorem scanSource_proper {source : String} {tokens : List Token}
    (h : (scanSource source).result = .ok tokens) : ∀ t ∈ tokens, t.IsProper := by
  unfold scanSource Scanner.all at h
  split at h
  next scanned _ found =>
    obtain ⟨same, -⟩ := Prod.mk.inj found
    cases h
    exact Cursor.all_proper (Prod.ext same rfl)
  next => cases h

theorem Grammar.Accounts.proper {words : List Word} {tokens rest : List Token}
    (h : Grammar.Accounts words tokens rest) (proper : ∀ t ∈ tokens, t.IsProper) :
    ∀ t, .kept t ∈ words → t.IsProper := by
  obtain ⟨taken, rfl, -, kept, -⟩ := h
  intro t among
  exact proper t (List.mem_append_left rest (kept t among))

/-- The walk over a source starts at a sane spot. -/
theorem Root.sane {mode : Mode} {source : String} {spot : Spot} (root : Root mode source spot) :
    spot.Sane := by
  cases root with
  | program parsed =>
      obtain ⟨tokens, rest, scanned, read⟩ := parseSource_ok parsed
      obtain ⟨accounts, layered, -⟩ := Grammar.items_accounts (Grammar.read_eq_ok.1 read)
      exact ⟨layered, accounts.proper (scanSource_proper scanned), nofun⟩
  | expression parsed =>
      obtain ⟨tokens, rest, scanned, read⟩ := parseExpression_ok parsed
      obtain ⟨accounts, layered, -⟩ := Grammar.loneExpression_accounts (Grammar.read_eq_ok.1 read)
      exact ⟨layered, accounts.proper (scanSource_proper scanned), nofun⟩

theorem WalkedIn.later {history : History} {spot : Spot} (h : WalkedIn history spot)
    (step : Mode × String) : WalkedIn (step :: history) spot := by
  obtain ⟨earlier, among, found⟩ := h
  exact ⟨earlier, List.mem_cons_of_mem _ among, found⟩

theorem walkedIn_known (history : History) : Known (WalkedIn history) := by
  constructor
  · rintro spot spot' ⟨step, among, root, isRoot, walks⟩ next
    exact ⟨step, among, root, isRoot, walks.tail next⟩
  · rintro spot ⟨step, among, root, isRoot, walks⟩
    induction walks with
    | refl => exact isRoot.sane
    | tail _ next sane => exact next.sane sane

variable {readings : Nat → Float} {history : History} {s : Session} {fuel : Nat} {mode : Mode}
  {source : String} {P : Pending}

/-- What a step runs is placed at the top level. -/
theorem placed_prepared {times : Nat} {program : List Stmt} {uses : Nat}
    (h : (prepareSource source).result = .ok (program, uses)) :
    ∃ after,
      Placed (WalkedIn ((.run times, source) :: history)) (.stmts program) .initial after := by
  obtain ⟨original, parsed, resolved⟩ := Noted.andThen_ok.1 h
  unfold resolveProgram at resolved
  split at resolved
  next tree after found =>
    cases resolved
    have walk := Resolve.walk_eq_ok.1 found
    exact ⟨_, .stmts original, ⟨_, List.mem_cons_self, _, .program parsed, .refl⟩, .stmts walk⟩
  next => cases resolved

theorem placed_expression {e : Expr} {uses : Nat}
    (h : parseExpression source >>= resolveExpression = .ok (e, uses)) :
    ∃ after, Placed (WalkedIn ((.evaluate, source) :: history)) (.expr e) .initial after := by
  obtain ⟨original, parsed, resolved⟩ := Except.bind_ok.1 h
  unfold resolveExpression at resolved
  split at resolved
  next tree after found =>
    cases resolved
    have walk := Resolve.walk_eq_ok.1 found
    exact ⟨_, .expr original, ⟨_, List.mem_cons_self, _, .expression parsed, .refl⟩, .expr walk⟩
  next => cases resolved

/-- A statement of a prepared program is what the walk gave for the statement at the same position
of the program that was read. -/
theorem prepared_split {before after : List Stmt} {statement : Stmt} {uses : Nat}
    (h : (prepareSource source).result = .ok (before ++ statement :: after, uses)) :
    ∃ one original rest mid mid', (parseSource source).result = .ok (one ++ original :: rest) ∧
      (Stmt.resolveEach one).Gives .initial before mid ∧
      original.resolve.Gives mid statement mid' := by
  obtain ⟨program, parsed, resolved⟩ := Noted.andThen_ok.1 h
  unfold resolveProgram at resolved
  split at resolved
  next tree place found =>
    obtain ⟨same, -⟩ := Prod.mk.inj (Except.ok.inj resolved)
    have walk := Resolve.walk_eq_ok.1 found
    rw [same] at walk
    obtain ⟨one, original, rest, mid, mid', rfl, walk, next⟩ := resolveEach_split walk
    exact ⟨one, original, rest, mid, mid', parsed, walk, next⟩
  next => cases resolved

/-- What is known of a session between two steps. -/
structure Session.Steady (W : Spot → Prop) (P : Pending) (s : Session) : Prop where
  sound : s.machine.heap.Sound W P
  global : s.machine.current = Machine.globals

theorem Session.Steady.mono {W W' : Spot → Prop} (h : s.Steady W P)
    (more : ∀ spot, W spot → W' spot) : s.Steady W' P :=
  ⟨h.sound.mono more, h.global⟩

/-- A safe computation gives no fault and leaves the session steady, whatever is answered
for its result. Names stay pending only if it stops early. -/
theorem Session.run_steady {α : Type} {W : Spot → Prop} {act : Eval α} {answer : α → Option Value}
    (global : s.machine.current = Machine.globals)
    (safe : Safe W act s.machine fun _ m' => m'.heap.Sound W P) :
    (∀ fault, (s.run act).1.map answer ≠ .error (.run (.fault fault))) ∧
      ∃ P', (s.run act).2.Steady W P' ∧
        ∀ value, (s.run act).1.map answer = .ok value → P' = P := by
  unfold Safe at safe
  unfold Session.run
  cases run : act.run s.machine with
  | ok a m' =>
      rw [run] at safe
      exact ⟨nofun, P, ⟨safe.2, safe.1.trans global⟩, fun _ _ => rfl⟩
  | error stop m' =>
      rw [run] at safe
      obtain ⟨still, noFault, P', sound⟩ := safe
      refine ⟨fun fault same => ?_, P', ⟨sound, still.trans global⟩, nofun⟩
      cases same
      exact noFault fault rfl

/-- The session before the computation of a step: nothing was printed in this step yet. -/
def Session.silent (s : Session) : Session := { s with machine := { s.machine with output := "" } }

/-- A step that goes through the scope rules gives no fault and leaves the session
steady. -/
theorem Session.step_steady (steady : s.Steady (WalkedIn history) P)
    (resolved : mode.IsResolved) :
    (∀ fault, (s.step fuel mode source).1.result ≠ .error (.run (.fault fault))) ∧
      ∃ P', (s.step fuel mode source).2.Steady (WalkedIn ((mode, source) :: history)) P' ∧
        ∀ value, (s.step fuel mode source).1.result = .ok value → P' = P := by
  have known := walkedIn_known ((mode, source) :: history)
  obtain ⟨sound, global⟩ := steady.mono fun _ inside => inside.later (mode, source)
  have silent : s.silent.Steady (WalkedIn ((mode, source) :: history)) P := ⟨sound, global⟩
  cases mode with
  | runRaw | evaluateRaw => cases resolved
  | run times =>
      unfold step
      dsimp only
      split
      next notes e failed =>
        have static := prepareSource_static (congrArg Noted.result failed)
        refine ⟨?_, P, silent, nofun⟩
        rintro fault ⟨⟩
        cases static
      next notes program uses prepared =>
        obtain ⟨after, placed⟩ := placed_prepared (congrArg Noted.result prepared)
        have run : Safe (WalkedIn ((.run times, source) :: history))
            (interpretTimes fuel program times) (s.silent.addLocated uses).machine _ :=
          interpretTimes_safe known sound global placed rfl
        exact run_steady (s := s.silent.addLocated uses) global run
  | evaluate =>
      unfold step
      dsimp only
      split
      next e failed =>
        have static := prepareExpression_static failed
        refine ⟨?_, P, silent, nofun⟩
        rintro fault ⟨⟩
        cases static
      next e uses prepared =>
        obtain ⟨after, placed⟩ := placed_expression prepared
        have admitted : Visit.Admitted _ P
            ⟨fuel, .evaluate e, (s.silent.addLocated uses).machine⟩ :=
          ⟨sound, .initial, after, placed, global⟩
        have run := (keeps known fuel).evaluate admitted
        exact run_steady (s := s.silent.addLocated uses) global
          (run.mono fun _ _ _ gave => gave.1)

/-- Before any program nothing is bound but the clock. -/
theorem Machine.initial_local? {i : FrameId} {x : String} {v : Value}
    (found : (Machine.initial readings).heap.frames.local? i x = some v) :
    x = "clock" ∧ v = .clock := by
  simp only [initial, Heap.initial] at found
  rw [Frames.local?_define _ _ _ _ _ _ (by simp [globals]), Frames.local?_push] at found
  split at found
  next same => exact ⟨same.2, (Option.some.inj found).symm⟩
  next =>
    split at found
    · cases found
    · simp [Frames.local?, Frames.empty] at found

/-- The machine before any program is sound. -/
theorem Machine.initial_sound {W : Spot → Prop} : (Machine.initial readings).heap.Sound W [] := by
  constructor
  · simp [initial, Heap.initial]
  · simp [initial, Heap.initial, Frames.parent?_push, Frames.empty, Frames.size, globals]
  · intro i x v found
    obtain ⟨-, rfl⟩ := initial_local? found
    trivial
  · intro i v found
    obtain ⟨other, -⟩ := initial_local? found
    exact absurd other (by decide)
  · intro id record name method found
    simp [initial, Heap.initial] at found
  · intro id record x v found
    simp [initial, Heap.initial] at found
  · intro i x pending
    exact absurd pending List.not_mem_nil

theorem Reached.steady (h : Reached readings history s) : ∃ P, s.Steady (WalkedIn history) P := by
  induction h with
  | initial => exact ⟨[], Machine.initial_sound, rfl⟩
  | step _ resolved ih =>
      obtain ⟨P, steady⟩ := ih
      obtain ⟨-, P', steady', -⟩ := Session.step_steady steady resolved
      exact ⟨P', steady'⟩

/-- The visits that a step of a session leads to, with the names that are pending on the
way: statements of its program, at any round, and what they lead to, or its expression
and what that leads to. -/
inductive Session.Visits (s : Session) (fuel : Nat) : Mode → String → Visit → Pending → Prop
  | statement {times source before statement after uses round m m'} :
      (prepareSource source).result = .ok (before ++ statement :: after, uses) → round < times →
      (interpretTimes fuel (before ++ statement :: after) round).Gives s.silent.machine () m →
      (interpret fuel before).Gives m () m' →
      Visits s fuel (.run times) source ⟨fuel, .execute statement, m'⟩ []
  | expression {source e uses} : parseExpression source >>= resolveExpression = .ok (e, uses) →
      Visits s fuel .evaluate source ⟨fuel, .evaluate e, s.silent.machine⟩ []
  | on {mode source v v' P} : Visits s fuel mode source v P → Starts v v' →
      Visits s fuel mode source v' (v.opens ++ P)

/-- The chain of the current frame has one frame for each scope and then the global one,
and binds `this` and `super` where the scopes do. -/
def MatchesScopes (m : Machine) (scopes : List Scope) : Prop :=
  ∃ frames, m.heap.frames.chain m.current = frames ++ [Machine.globals] ∧
    Machine.globals ∉ frames ∧ List.Forall₂ (fun frame scope =>
      (m.heap.frames.Has frame "this" ↔ scope.contains "this") ∧
        (m.heap.frames.Has frame "super" ↔ scope.contains "super")) frames scopes

theorem Holds.has_iff {h : Heap} {i : FrameId} {scope : Scope} {x : String}
    {W : Spot → Prop} (holds : Holds P h.frames i scope.view) (sound : h.Sound W P)
    (implicit : ¬IsPlainName x) : h.frames.Has i x ↔ scope.contains x := by
  have seen : (scope.view x).isSome = scope.contains x := by
    simp [Scope.view, Bindings.contains]
  constructor
  · intro has
    rw [← seen]
    exact holds.implicit x implicit has
  · intro contains
    rw [← seen] at contains
    obtain ⟨b, bound⟩ := Option.isSome_iff_exists.1 contains
    obtain has | ⟨-, pending⟩ := holds.bound x b bound
    · exact has
    · exact absurd (sound.pending pending).1 implicit

theorem Fits.matchesScopes {m : Machine} {place : Surroundings} {W : Spot → Prop}
    (fits : Fits P m.heap.frames place.views m.current) (sound : m.heap.Sound W P) :
    MatchesScopes m place.scopes := by
  obtain ⟨frames, chain, others, holds⟩ := fits.chain sound.rooted
  refine ⟨frames, chain, others, ?_⟩
  have each := List.forall₂_map_right_iff.1 holds
  refine each.imp fun frame scope holds => ⟨?_, ?_⟩
  · exact holds.has_iff sound fun plain => plain.1 rfl
  · exact holds.has_iff sound fun plain => plain.2 rfl

/-- Every visit that a step of a steady session leads to is admitted. -/
theorem Session.Visits.admitted {v : Visit} {P' : Pending}
    (h : s.Visits fuel mode source v P') (steady : s.Steady (WalkedIn history) P) :
    v.Admitted (WalkedIn ((mode, source) :: history)) (P' ++ P) := by
  induction h with
  | @statement times source _ _ _ _ _ _ _ prepared _ rounds run =>
      obtain ⟨sound, global⟩ := steady.mono fun _ inside => inside.later (.run times, source)
      obtain ⟨after, placed⟩ := placed_prepared prepared
      have known := walkedIn_known ((.run times, source) :: history)
      obtain ⟨still, sound'⟩ := (interpretTimes_safe (m := s.silent.machine) known sound global
        placed rfl).gives rounds
      exact admitted_interpret known sound' (still.trans global) placed rfl run
  | @expression source _ _ prepared =>
      obtain ⟨sound, global⟩ := steady.mono fun _ inside => inside.later (.evaluate, source)
      obtain ⟨after, placed⟩ := placed_expression prepared
      exact ⟨sound, .initial, after, placed, global⟩
  | on _ starts ih =>
      rw [List.append_assoc]
      exact starts.admitted (walkedIn_known _) ih

/-- What is admitted at a spot is about what the walk gave there, and matches the scopes. -/
theorem AdmitsIn.matchesScopes {W : Spot → Prop} {spot : Spot} {m : Machine} {task : Task}
    {node : Node} (admits : AdmitsIn (· = spot) P m task) (sound : m.heap.Sound W P)
    (about : task.node? = some node) :
    ∃ after, Resolves spot node after ∧ MatchesScopes m spot.place.scopes := by
  cases task with
  | evaluate | evaluateEach =>
      cases about
      obtain ⟨place, after, ⟨original, rfl, made⟩, fits⟩ := admits
      exact ⟨after, made, fits.matchesScopes sound⟩
  | execute | executeEach =>
      cases about
      obtain ⟨place, after, ⟨original, rfl, made⟩, fits, -⟩ := admits
      exact ⟨after, made, fits.matchesScopes sound⟩
  | apply | enter => cases about

/-- What is admitted and about a node matches the scopes at a spot of that node. -/
theorem Visit.Admitted.matchesScopes {v : Visit} {W : Spot → Prop} {node : Node}
    (admitted : v.Admitted W P) (about : v.task.node? = some node) :
    ∃ spot after, W spot ∧ Resolves spot node after ∧
      MatchesScopes v.machine spot.place.scopes := by
  obtain ⟨spot, inside, admits⟩ := (admitted.admitsIn about).at_spot
  obtain ⟨after, made, scopes⟩ := admits.matchesScopes admitted.sound about
  exact ⟨spot, after, inside, made, scopes⟩

/-- The visits that a step of a session leads to, each with the spot of the walk where the node
was found that it is about, or the call that it is part of. From a node to one of its parts
the spot goes on with the walk, and a loop comes back to its own. A body that is entered is
found at one of its spots where the open scopes match the frames that it starts with. -/
inductive Session.VisitsAt (s : Session) (history : History) (fuel : Nat) :
    Mode → String → Visit → Spot → Prop
  | statement {times source one original rest before statement after place uses round m m'} :
      (parseSource source).result = .ok (one ++ original :: rest) →
      (Stmt.resolveEach one).Gives .initial before place →
      (prepareSource source).result = .ok (before ++ statement :: after, uses) → round < times →
      (interpretTimes fuel (before ++ statement :: after) round).Gives s.silent.machine () m →
      (interpret fuel before).Gives m () m' →
      VisitsAt s history fuel (.run times) source ⟨fuel, .execute statement, m'⟩
        ⟨.stmt original, place⟩
  | expression {source original e uses} : parseExpression source = .ok original →
      resolveExpression original = .ok (e, uses) →
      VisitsAt s history fuel .evaluate source ⟨fuel, .evaluate e, s.silent.machine⟩
        ⟨.expr original, .initial⟩
  | inside {mode source v v' spot spot' node node' after} :
      VisitsAt s history fuel mode source v spot → Starts v v' → v.task.node? = some node →
      v'.task.node? = some node' → Relation.ReflGen Walks spot spot' →
      Resolves spot' node' after → VisitsAt s history fuel mode source v' spot'
  | call {mode source v v' spot} : VisitsAt s history fuel mode source v spot → Starts v v' →
      v'.task.node? = none → VisitsAt s history fuel mode source v' spot
  | body {mode source v v' spot spot' node after} :
      VisitsAt s history fuel mode source v spot → Starts v v' → v.task.node? = none →
      v'.task.node? = some node → WalkedIn ((mode, source) :: history) spot' →
      Resolves spot' node after → MatchesScopes v'.machine spot'.place.scopes →
      VisitsAt s history fuel mode source v' spot'

/-- Every visit that a step of a steady session leads to has a spot that comes with it, and if it is
about a node it is admitted at this spot. -/
theorem Session.Visits.at_spot {v : Visit} {P' : Pending} (h : s.Visits fuel mode source v P')
    (steady : s.Steady (WalkedIn history) P) :
    ∃ spot, s.VisitsAt history fuel mode source v spot ∧ ∀ node, v.task.node? = some node →
      WalkedIn ((mode, source) :: history) spot ∧
        AdmitsIn (· = spot) (P' ++ P) v.machine v.task := by
  have known := walkedIn_known ((mode, source) :: history)
  induction h with
  | @statement times source _ _ _ _ _ _ _ prepared inTime rounds run =>
      obtain ⟨sound, global⟩ := steady.mono fun _ inside => inside.later (.run times, source)
      obtain ⟨after, placed⟩ := placed_prepared prepared
      obtain ⟨still, sound'⟩ := (interpretTimes_safe (m := s.silent.machine) known sound global
        placed rfl).gives rounds
      obtain ⟨still', -⟩ := (interpret_safe known sound' (still.trans global) placed rfl).gives run
      obtain ⟨one, original, rest, place, after, parsed, walk, resolved⟩ :=
        prepared_split prepared
      have root : WalkedIn ((.run times, source) :: history)
          ⟨.stmts (one ++ original :: rest), .initial⟩ :=
        ⟨_, List.mem_cons_self, _, .program parsed, .refl⟩
      obtain ⟨inside, top⟩ := known.stmts_top root rfl walk
      refine ⟨_, .statement parsed walk prepared inTime rounds run, fun node _ =>
        ⟨known.walks inside .statement, ?_⟩⟩
      exact FitsStatement.top (still'.trans (still.trans global))
        ⟨_, rfl, .stmt resolved⟩ top
  | @expression source e uses prepared =>
      obtain ⟨-, global⟩ := steady
      obtain ⟨original, parsed, resolved⟩ := Except.bind_ok.1 prepared
      have visitsAt : s.VisitsAt history fuel .evaluate source _ _ := .expression parsed resolved
      unfold resolveExpression at resolved
      split at resolved
      next tree after found =>
        cases resolved
        have walk := Resolve.walk_eq_ok.1 found
        exact ⟨_, visitsAt, fun node _ => ⟨⟨_, List.mem_cons_self, _, .expression parsed, .refl⟩,
          _, after, ⟨_, rfl, .expr walk⟩, global⟩⟩
      next => cases resolved
  | @on mode source v v' P' visits starts ih =>
      obtain ⟨spot, visitsAt, found⟩ := ih known
      have admitted := visits.admitted steady
      have admitted' := (visits.on starts).admitted steady
      rw [List.append_assoc] at admitted' ⊢
      cases about' : v'.task.node? with
      | none => exact ⟨spot, .call visitsAt starts about', nofun⟩
      | some node' =>
          cases about : v.task.node? with
          | none =>
              obtain ⟨spot', inside, admits⟩ := (admitted'.admitsIn about').at_spot
              obtain ⟨after, made, scopes⟩ := admits.matchesScopes admitted'.sound about'
              exact ⟨spot', .body visitsAt starts about about' inside made scopes,
                fun _ _ => ⟨inside, admits⟩⟩
          | some node =>
              obtain ⟨inside, admits⟩ := found node about
              obtain ⟨spot', walks, admits'⟩ :=
                (starts.admitsIn_on known inside about' admitted.sound admits).at_spot
              obtain ⟨after, made, -⟩ := admits'.matchesScopes admitted'.sound about'
              exact ⟨spot', .inside visitsAt starts about about' walks made,
                fun _ _ => ⟨known.reflGen inside walks, admits'⟩⟩

/-- In a session whose trees all went through the scope rules no step stops for a fault.
Every node that a step comes to has a spot that comes with it, from one node to the next; this
node was found there, and there is one frame for each scope that was open at the spot, with the
frames of `this` and `super` at the positions of their scopes. -/
theorem session_never_faults (reached : Reached readings history s) (resolved : mode.IsResolved) :
    (∀ fault, (s.step fuel mode source).1.result ≠ .error (.run (.fault fault))) ∧
      ∀ v pending node, s.Visits fuel mode source v pending → v.task.node? = some node →
        ∃ spot after, s.VisitsAt history fuel mode source v spot ∧
          WalkedIn ((mode, source) :: history) spot ∧ Resolves spot node after ∧
          MatchesScopes v.machine spot.place.scopes := by
  obtain ⟨P, steady⟩ := reached.steady
  constructor
  · exact (Session.step_steady steady resolved).1
  · intro v pending node visits about
    obtain ⟨spot, visitsAt, found⟩ := visits.at_spot steady
    obtain ⟨inside, admits⟩ := found node about
    obtain ⟨after, made, scopes⟩ := admits.matchesScopes (visits.admitted steady).sound about
    exact ⟨spot, after, visitsAt, inside, made, scopes⟩

/-- A block that is run in a second step has a frame of its own. -/
theorem session_never_faults_block :
    let s := ((Session.initial fun _ => 0).step 3 (.run 1) "\x7b\x7d").2
    let m := s.silent.machine.mapFrames (·.push (some s.silent.machine.current))
    Reached (fun _ => 0) [(.run 1, "\x7b\x7d")] s ∧ Mode.IsResolved (.run 1) ∧
      (∀ fault, (s.step 3 (.run 1) "\x7b\x7d").1.result ≠ .error (.run (.fault fault))) ∧
      ∃ spot after,
        s.VisitsAt [(.run 1, "\x7b\x7d")] 3 (.run 1) "\x7b\x7d"
          ⟨2, .executeEach [], { m with current := s.machine.heap.frames.size }⟩ spot ∧
        WalkedIn [(.run 1, "\x7b\x7d"), (.run 1, "\x7b\x7d")] spot ∧
        Resolves spot (.stmts []) after ∧
        MatchesScopes { m with current := s.machine.heap.frames.size } spot.place.scopes := by
  intro s m
  have resolved : Mode.IsResolved (.run 1) := trivial
  have reached : Reached (fun _ => 0) [(.run 1, "\x7b\x7d")] s := .step .initial resolved
  have prepared : (prepareSource "\x7b\x7d").result = .ok ([.block []], 0) := by
    with_unfolding_all rfl
  have block : s.Visits 3 (.run 1) "\x7b\x7d" ⟨3, .execute (.block []), s.silent.machine⟩ [] := by
    rw [← List.nil_append [Stmt.block []]] at prepared
    exact .statement prepared Nat.one_pos rfl rfl
  have body := block.on (.block (Eval.newFrame_gives _))
  obtain ⟨noFault, matching⟩ :=
    @session_never_faults (fun _ => 0) _ s 3 (.run 1) "\x7b\x7d" reached resolved
  exact ⟨reached, resolved, noFault, matching _ _ _ body rfl⟩

end TreeWalk
