import TreeWalk.Proofs.Scope.Failing

/-!
# Walks that leave no trace

A walk over a program leaves as many scopes around its place as it came with, and the
function and class it came in, also where it stops for a violation. What was found before
it has no influence on it. So programs walked one after the other, violations among them,
are walked as each of them alone.

## Implementation notes

Declaring a name changes the innermost scope, so only the number of scopes is kept, not
what they know. Outside of all scopes that is enough.
-/

namespace TreeWalk

variable {α β : Type}

namespace Surroundings

/-- Surroundings with some uses found before. -/
def behind (place : Surroundings) (before : Array Located) : Surroundings :=
  { place with found := before ++ place.found }

/-- Two places lie at the same level of a program: under as many scopes, and in the same
function and class. -/
structure Level (place after : Surroundings) : Prop where
  scopes : after.scopes.length = place.scopes.length
  functionContext : after.functionContext = place.functionContext
  classContext : after.classContext = place.classContext

variable {place mid after : Surroundings}

theorem Level.refl (place : Surroundings) : place.Level place := ⟨rfl, rfl, rfl⟩

theorem Level.trans (h : place.Level mid) (h' : mid.Level after) : place.Level after where
  scopes := h'.scopes.trans h.scopes
  functionContext := h'.functionContext.trans h.functionContext
  classContext := h'.classContext.trans h.classContext

theorem modifyAt_level (place : Surroundings) (distance : Nat) (name : String)
    (f : Binding → Binding) : place.Level (place.modifyAt distance name f) where
  scopes := List.length_modify ..
  functionContext := rfl
  classContext := rfl

end Surroundings

namespace Resolve

/-- A walk leaves no trace: it comes back to the level it began at, also when it stops,
and does the same behind any uses found before. -/
structure Traceless (act : Resolve α) : Prop where
  returns : ∀ place : Surroundings, place.Level (act.walk place).2
  blind : ∀ (place : Surroundings) (before : Array Located),
    act.walk (place.behind before) = ((act.walk place).1, (act.walk place).2.behind before)

variable {act : Resolve α} {place : Surroundings}

theorem walk_bind (act : Resolve α) (next : α → Resolve β) (place : Surroundings) :
    (act >>= next).walk place =
      match act.walk place with
      | (.ok a, mid) => (next a).walk mid
      | (.error e, mid) => (.error e, mid) := by
  simp only [walk, bind, EStateM.bind]
  cases act place <;> rfl

theorem Traceless.pure (a : α) : Traceless (pure a : Resolve α) where
  returns := Surroundings.Level.refl
  blind _ _ := rfl

theorem Traceless.throw (e : ScopeError) : Traceless (throw e : Resolve α) where
  returns := Surroundings.Level.refl
  blind _ _ := rfl

theorem Traceless.bind {next : α → Resolve β} (first : Traceless act)
    (rest : ∀ a, Traceless (next a)) : Traceless (act >>= next) where
  returns place := by
    have level := first.returns place
    rw [walk_bind]
    generalize act.walk place = ran at level
    obtain ⟨e | a, mid⟩ := ran
    · exact level
    · exact level.trans ((rest a).returns mid)
  blind place before := by
    rw [walk_bind, walk_bind, first.blind]
    generalize act.walk place = ran
    obtain ⟨e | a, mid⟩ := ran
    · rfl
    · exact (rest a).blind mid before

theorem Traceless.modify {f : Surroundings → Surroundings}
    (level : ∀ place : Surroundings, place.Level (f place))
    (same : ∀ place before, f (place.behind before) = (f place).behind before) :
    Traceless (modify f) where
  returns := level
  blind place before := congrArg (Prod.mk _) (same place before)

/-- A step that looks at its surroundings, but not at what was found. -/
theorem Traceless.inspect {next : Surroundings → Resolve α} (each : ∀ place, Traceless (next place))
    (same : ∀ place before, next (place.behind before) = next place) :
    Traceless (get >>= next) where
  returns place := (each place).returns place
  blind place before := by
    show (next (place.behind before)).walk (place.behind before) = _
    rw [same]
    exact (each place).blind place before

theorem Traceless.ite {p : Prop} [Decidable p] {yes no : Resolve α} (h : Traceless yes)
    (h' : Traceless no) : Traceless (if p then yes else no) := by
  split
  · exact h
  · exact h'

theorem Traceless.forM {row : List β} {f : β → Resolve PUnit} (each : ∀ b, Traceless (f b)) :
    Traceless (row.forM f) := by
  induction row with
  | nil => exact .pure _
  | cons b row ih => exact (each b).bind fun _ => ih

/-- Walking somewhere else and coming back leaves no trace if what is changed for the walk
is put back, and neither is done by what was found. -/
theorem Traceless.restored {around : Resolve α} (inside : Surroundings → Surroundings)
    (leave : Surroundings → Surroundings → Surroundings) (h : Traceless act)
    (same : ∀ place, around.walk place =
      ((act.walk (inside place)).1, leave place (act.walk (inside place)).2))
    (back : ∀ place after, (inside place).Level after → place.Level (leave place after))
    (inside_behind : ∀ place before, inside (place.behind before) = (inside place).behind before)
    (leave_behind : ∀ place after before,
      leave (place.behind before) (after.behind before) = (leave place after).behind before) :
    Traceless around where
  returns place := by
    rw [same]
    exact back place _ (h.returns _)
  blind place before := by
    rw [same, same, inside_behind, h.blind, leave_behind]

theorem Traceless.inScope (scope : Scope) (h : Traceless act) : Traceless (inScope scope act) := by
  refine .restored (fun place => { place with scopes := scope :: place.scopes })
    (fun _ after => { after with scopes := after.scopes.tail }) h (fun place => ?_)
    (fun place after level => ?_) (fun _ _ => rfl) (fun _ _ _ => rfl)
  · unfold walk Resolve.inScope
    cases act { place with scopes := scope :: place.scopes } <;> rfl
  · have scopes : after.scopes.length = place.scopes.length + 1 := level.scopes
    exact { level with scopes := by simp [scopes] }

theorem Traceless.inFunction (context : FunctionContext) (h : Traceless act) :
    Traceless (inFunction context act) := by
  refine .restored (fun place => { place with functionContext := context })
    (fun place after => { after with functionContext := place.functionContext }) h
    (fun place => ?_) (fun _ _ level => { level with functionContext := rfl })
    (fun _ _ => rfl) (fun _ _ _ => rfl)
  unfold walk Resolve.inFunction
  cases act { place with functionContext := context } <;> rfl

theorem Traceless.inClass (context : ClassContext) (h : Traceless act) :
    Traceless (inClass context act) := by
  refine .restored (fun place => { place with classContext := context })
    (fun place after => { after with classContext := place.classContext }) h
    (fun place => ?_) (fun _ _ level => { level with classContext := rfl })
    (fun _ _ => rfl) (fun _ _ _ => rfl)
  unfold walk Resolve.inClass
  cases act { place with classContext := context } <;> rfl

theorem fail_traceless (cause : ScopeCause) (token : Token) :
    Traceless (fail cause token : Resolve α) :=
  .throw _

/-- A fault of a scope, if there is one, is thrown. -/
theorem throw_fault_traceless (fault : Option ScopeError) :
    Traceless (if let some e := fault then throw e else return () : Resolve Unit) := by
  cases fault with
  | none => exact .pure ()
  | some e => exact .throw e

theorem declare_walk (name : Token) (place : Surroundings) :
    (declare name).walk place =
      match place.scopes with
      | [] => (.ok (), place)
      | scope :: outer =>
        if scope.contains name.lexeme then (.error ⟨.redeclared, name⟩, place)
        else (.ok (), { place with
          scopes := scope.put name.lexeme (.declared name false false) :: outer }) := by
  rw [walk, declare, get_bind_apply]
  cases place.scopes with
  | nil => rfl
  | cons scope outer =>
      dsimp only
      cases scope.contains name.lexeme <;> rfl

theorem declare_traceless (name : Token) : Traceless (declare name) where
  returns place := by
    rw [declare_walk]
    split
    next => exact .refl place
    next scope outer cut =>
      split
      · exact .refl place
      · exact ⟨by simp [cut], rfl, rfl⟩
  blind place before := by
    obtain ⟨scopes, _, _, _⟩ := place
    rw [declare_walk, declare_walk]
    cases scopes with
    | nil => rfl
    | cons scope outer =>
        dsimp only [Surroundings.behind]
        cases scope.contains name.lexeme <;> rfl

theorem settle_traceless (name : Token) : Traceless (settle name) :=
  .modify (fun place => place.modifyAt_level 0 _ _) fun _ _ => rfl

theorem declareReady_traceless (name : Token) : Traceless (declareReady name) :=
  (declare_traceless name).bind fun _ => settle_traceless name

theorem checkReady_traceless (name : Token) : Traceless (checkReady name) := by
  refine .inspect (fun place => ?_) fun _ _ => rfl
  cases place.scopes with
  | nil => exact .pure ()
  | cons scope outer =>
      dsimp only
      cases scope.get? name.lexeme with
      | none => exact .pure ()
      | some binding => exact .ite (.pure ()) (fail_traceless _ _)

theorem locate_traceless (use : Use) (reference : Reference) :
    Traceless (locate use reference) := by
  refine .inspect (fun place => ?_) fun _ _ => rfl
  dsimp only
  cases place.distance? reference.name.lexeme with
  | none => exact .pure _
  | some distance =>
      refine .bind (.modify (fun place => ?_) fun place before => ?_) fun _ => .pure _
      · split
        · exact ⟨rfl, rfl, rfl⟩
        · have noted : place.Level
              { place with found := place.found.push ⟨use, reference.name, distance⟩ } :=
            ⟨rfl, rfl, rfl⟩
          exact noted.trans (Surroundings.modifyAt_level _ distance _ Binding.read)
      · split <;> simp [Surroundings.behind, Surroundings.modifyAt]

theorem readVariable_traceless (reference : Reference) : Traceless (readVariable reference) :=
  (checkReady_traceless reference.name).bind fun _ => locate_traceless .variable reference

theorem checkBlock_traceless : Traceless checkBlock := by
  refine .inspect (fun place => ?_) fun _ _ => rfl
  cases place.scopes with
  | nil => exact .pure ()
  | cons locals outer => exact .ite (.pure ()) (throw_fault_traceless _)

theorem checkBody_traceless : Traceless checkBody := by
  refine .inspect (fun place => ?_) fun _ _ => rfl
  obtain _ | ⟨locals, _ | ⟨parameters, outer⟩⟩ := place.scopes
  · exact .pure ()
  · exact .pure ()
  · exact throw_fault_traceless _

theorem routine_traceless (context : FunctionContext) (params : List Token) {body : Resolve α}
    (h : Traceless body) : Traceless (routine context params body) := by
  refine .inFunction context (.inScope .empty ?_)
  refine (Traceless.forM declareReady_traceless).bind fun _ => .inScope .empty ?_
  exact h.bind fun a => checkBody_traceless.bind fun _ => .pure a

theorem inClassScopes_traceless (hasSuperclass : Bool) (h : Traceless act) :
    Traceless (inClassScopes hasSuperclass act) :=
  .ite ((h.inScope _).inScope _) (h.inScope _)

theorem superclass_traceless (name : Token) (parent : Option Reference) :
    Traceless (superclass name parent) := by
  cases parent with
  | none => exact .pure none
  | some reference =>
      refine .ite (fail_traceless _ _) ?_
      exact (readVariable_traceless reference).bind fun _ => .pure _

theorem checkReturn_traceless (keyword : Token) (hasValue : Bool) :
    Traceless (checkReturn keyword hasValue) :=
  .inspect (fun _ => .ite (fail_traceless _ _) (.ite (fail_traceless _ _) (.pure ())))
    fun _ _ => rfl

theorem checkThis_traceless (keyword : Token) : Traceless (checkThis keyword) :=
  .inspect (fun _ => .ite (fail_traceless _ _) (.pure ())) fun _ _ => rfl

theorem checkSuper_traceless (keyword : Token) : Traceless (checkSuper keyword) := by
  refine .inspect (fun place => ?_) fun _ _ => rfl
  cases place.classContext with
  | outside | base => exact fail_traceless _ _
  | derived => exact .pure ()

end Resolve

open Resolve

mutual

theorem Expr.resolve_traceless : ∀ e : Expr, Traceless e.resolve
  | .literal _ => by
    rw [Expr.resolve]
    exact .pure _
  | .variable reference => by
    rw [Expr.resolve]
    exact (readVariable_traceless reference).bind fun _ => .pure _
  | .assign reference value => by
    rw [Expr.resolve]
    exact value.resolve_traceless.bind fun _ =>
      (locate_traceless .assign reference).bind fun _ => .pure _
  | .this reference => by
    rw [Expr.resolve]
    exact (checkThis_traceless reference.name).bind fun _ =>
      (locate_traceless .this reference).bind fun _ => .pure _
  | .super reference _ => by
    rw [Expr.resolve]
    exact (checkSuper_traceless reference.name).bind fun _ =>
      (locate_traceless .super reference).bind fun _ => .pure _
  | .grouping inner => by
    rw [Expr.resolve]
    exact inner.resolve_traceless.bind fun _ => .pure _
  | .unary _ operand => by
    rw [Expr.resolve]
    exact operand.resolve_traceless.bind fun _ => .pure _
  | .binary left _ right | .logical left _ right => by
    rw [Expr.resolve]
    exact left.resolve_traceless.bind fun _ => right.resolve_traceless.bind fun _ => .pure _
  | .conditional condition consequent alternative => by
    rw [Expr.resolve]
    exact condition.resolve_traceless.bind fun _ => consequent.resolve_traceless.bind fun _ =>
      alternative.resolve_traceless.bind fun _ => .pure _
  | .comma items => by
    rw [Expr.resolve]
    exact (Expr.resolveEach_traceless items).bind fun _ => .pure _
  | .call callee _ arguments => by
    rw [Expr.resolve]
    exact callee.resolve_traceless.bind fun _ =>
      (Expr.resolveEach_traceless arguments).bind fun _ => .pure _
  | .get object _ => by
    rw [Expr.resolve]
    exact object.resolve_traceless.bind fun _ => .pure _
  | .set object _ value => by
    rw [Expr.resolve]
    exact value.resolve_traceless.bind fun _ => object.resolve_traceless.bind fun _ => .pure _
  | .lambda _ params body => by
    rw [Expr.resolve]
    exact (routine_traceless .function params (Stmt.resolveEach_traceless body)).bind
      fun _ => .pure _
termination_by structural e => e

theorem Expr.resolveEach_traceless : ∀ items : List Expr, Traceless (Expr.resolveEach items)
  | [] => by
    rw [Expr.resolveEach]
    exact .pure _
  | e :: rest => by
    rw [Expr.resolveEach]
    exact e.resolve_traceless.bind fun _ => (Expr.resolveEach_traceless rest).bind fun _ => .pure _
termination_by structural items => items

theorem Stmt.resolve_traceless : ∀ s : Stmt, Traceless s.resolve
  | .expression value | .print value => by
    rw [Stmt.resolve]
    exact value.resolve_traceless.bind fun _ => .pure _
  | .varDecl name none => by
    rw [Stmt.resolve]
    exact (declareReady_traceless name).bind fun _ => .pure _
  | .varDecl name (some initial) => by
    rw [Stmt.resolve]
    exact (declare_traceless name).bind fun _ => initial.resolve_traceless.bind fun _ =>
      (settle_traceless name).bind fun _ => .pure _
  | .block body => by
    rw [Stmt.resolve]
    exact .inScope .empty ((Stmt.resolveEach_traceless body).bind fun _ =>
      checkBlock_traceless.bind fun _ => .pure _)
  | .branch condition consequent none => by
    rw [Stmt.resolve]
    exact condition.resolve_traceless.bind fun _ => consequent.resolve_traceless.bind fun _ =>
      .pure _
  | .branch condition consequent (some alternative) => by
    rw [Stmt.resolve]
    exact condition.resolve_traceless.bind fun _ => consequent.resolve_traceless.bind fun _ =>
      alternative.resolve_traceless.bind fun _ => .pure _
  | .loop condition body => by
    rw [Stmt.resolve]
    exact condition.resolve_traceless.bind fun _ => body.resolve_traceless.bind fun _ => .pure _
  | .functionDecl (.mk name params body) => by
    rw [Stmt.resolve]
    exact (declareReady_traceless name).bind fun _ =>
      (routine_traceless .function params (Stmt.resolveEach_traceless body)).bind fun _ => .pure _
  | .classDecl name parent methods => by
    rw [Stmt.resolve]
    exact .inClass _ ((declareReady_traceless name).bind fun _ =>
      (superclass_traceless name parent).bind fun _ =>
        (inClassScopes_traceless _ (FunctionDecl.resolveEach_traceless methods)).bind
          fun _ => .pure _)
  | .returns keyword none => by
    rw [Stmt.resolve]
    exact (checkReturn_traceless keyword false).bind fun _ => .pure _
  | .returns keyword (some value) => by
    rw [Stmt.resolve]
    exact (checkReturn_traceless keyword true).bind fun _ => value.resolve_traceless.bind
      fun _ => .pure _
termination_by structural s => s

theorem Stmt.resolveEach_traceless : ∀ body : List Stmt, Traceless (Stmt.resolveEach body)
  | [] => by
    rw [Stmt.resolveEach]
    exact .pure _
  | s :: rest => by
    rw [Stmt.resolveEach]
    exact s.resolve_traceless.bind fun _ => (Stmt.resolveEach_traceless rest).bind fun _ => .pure _
termination_by structural body => body

theorem FunctionDecl.resolveEach_traceless : ∀ members : List FunctionDecl,
    Traceless (FunctionDecl.resolveEach members)
  | [] => by
    rw [FunctionDecl.resolveEach]
    exact .pure _
  | .mk name params body :: rest => by
    rw [FunctionDecl.resolveEach]
    exact (routine_traceless _ params (Stmt.resolveEach_traceless body)).bind fun _ =>
      (FunctionDecl.resolveEach_traceless rest).bind fun _ => .pure _
termination_by structural members => members

end

namespace Surroundings

/-- What is left behind some programs that were walked one after the other, whatever
became of each. -/
def afterEach (place : Surroundings) (programs : List (List Stmt)) : Surroundings :=
  programs.foldl (fun place program => ((Stmt.resolveEach program).walk place).2) place

theorem afterEach_level (place : Surroundings) (programs : List (List Stmt)) :
    place.Level (place.afterEach programs) := by
  induction programs generalizing place with
  | nil => exact .refl place
  | cons program rest ih => exact ((Stmt.resolveEach_traceless program).returns place).trans (ih _)

/-- At the level of no scope there is nothing but what was found. -/
theorem Level.eq_initial {place : Surroundings} (h : initial.Level place) :
    place = initial.behind place.found := by
  obtain ⟨scopes, functionContext, classContext, found⟩ := place
  obtain rfl : scopes = [] := List.length_eq_zero_iff.1 h.scopes
  obtain rfl : functionContext = .outside := h.functionContext
  obtain rfl : classContext = .outside := h.classContext
  simp [behind, initial]

/-- Programs that are walked one after the other, violations at any depth among them, are
walked as each of them alone: the outcome is the same, the same uses are found behind
those found before, and the walk is outside every scope, function and class again. -/
theorem walk_afterEach (programs : List (List Stmt)) (program : List Stmt) :
    let place := initial.afterEach programs
    let alone := (Stmt.resolveEach program).walk initial
    (Stmt.resolveEach program).walk place =
      (alone.1, { initial with found := place.found ++ alone.2.found }) := by
  intro place alone
  have traceless := Stmt.resolveEach_traceless program
  have level : initial.Level place := initial.afterEach_level programs
  have last : initial.Level alone.2 := traceless.returns initial
  rw [level.eq_initial, traceless.blind]
  show (alone.1, alone.2.behind place.found) = _
  rw [last.eq_initial]
  simp [behind, initial]

end Surroundings

end TreeWalk
