import TreeWalk.Proofs.Run.Sequels
import TreeWalk.Proofs.Scope.Traceless

/-!
# Statements at the top level

A statement of a program itself is a declaration, or it declares nothing at all: the
grammar allows no declaration as the body of a branch or a loop. The superclass of a class
that is declared there is looked up among the globals, with the scope rules or without.

## Implementation notes

The scope rules fill in distances and change nothing else. Outside of all scopes they find
no distance, and a walk over the statements before leaves it outside of all scopes.
-/

namespace TreeWalk

variable {place place' : Surroundings}

/-- What a statement of a program itself has to be: a declaration, with a superclass that
is looked up among the globals, or plain. -/
def Stmt.AtTop : Stmt → Prop
  | .varDecl .. | .functionDecl _ => True
  | .classDecl _ parent _ => ∀ reference ∈ parent, reference.distance = none
  | s => s.IsPlain

theorem Stmt.Layered.isPlain : ∀ {s : Stmt}, s.Layered → s.declared? = none → s.IsPlain
  | .expression _, _, _ | .print _, _, _ | .block _, _, _ | .returns .., _, _ => trivial
  | .varDecl .., _, named | .functionDecl _, _, named | .classDecl .., _, named => nomatch named
  | .branch _ consequent none, layered, _ => isPlain (s := consequent) layered.2.1 layered.2.2
  | .branch _ consequent (some alternative), layered, _ =>
    ⟨isPlain (s := consequent) layered.2.1 layered.2.2.1,
      isPlain (s := alternative) layered.2.2.2.2.1 layered.2.2.2.2.2⟩
  | .loop _ body, layered, _ => isPlain (s := body) layered.2.1 layered.2.2

theorem Stmt.IsPlain.atTop {s : Stmt} (isPlain : s.IsPlain) : s.AtTop := by
  cases s with
  | varDecl | functionDecl | classDecl => exact isPlain.elim
  | expression | print | block | branch | loop | returns => exact isPlain

theorem Stmt.Layered.atTop {s : Stmt} (layered : s.Layered) : s.AtTop := by
  cases s with
  | varDecl | functionDecl => trivial
  | classDecl name parent methods =>
      rintro reference ⟨⟩
      exact layered.2.1.2
  | expression | print | block | branch | loop | returns => exact layered.isPlain rfl

/-- Distances make no declarations and take none away. -/
theorem Stmt.isPlain_resolve : ∀ {s s' : Stmt} {place place' : Surroundings},
    s.resolve.Gives place s' place' → (s'.IsPlain ↔ s.IsPlain)
  | .expression _, _, _, _, walk | .print _, _, _, _, walk | .returns _ none, _, _, _, walk
  | .returns _ (some _), _, _, _, walk | .block _, _, _, _, walk | .varDecl _ none, _, _, _, walk
  | .varDecl _ (some _), _, _, _, walk | .functionDecl (.mk _ _ _), _, _, _, walk
  | .classDecl .., _, _, _, walk => by
    have made := Stmt.resolve_gives.1 walk
    grind [Stmt.IsPlain]
  | .branch _ consequent none, _, _, _, walk => by
    obtain ⟨_, _, _, _, part, rfl⟩ := Stmt.resolve_gives.1 walk
    have inner := isPlain_resolve (s := consequent) part
    exact inner
  | .branch _ consequent (some alternative), _, _, _, walk => by
    obtain ⟨_, _, _, _, _, _, part, part', rfl⟩ := Stmt.resolve_gives.1 walk
    have first := isPlain_resolve (s := consequent) part
    have second := isPlain_resolve (s := alternative) part'
    exact and_congr first second
  | .loop _ body, _, _, _, walk => by
    obtain ⟨_, _, _, _, part, rfl⟩ := Stmt.resolve_gives.1 walk
    have inner := isPlain_resolve (s := body) part
    exact inner

theorem Resolve.Traceless.outside {α : Type} {act : Resolve α} {a : α} (h : Traceless act)
    (outside : place.scopes = []) (walk : act.Gives place a place') : place'.scopes = [] := by
  have level := (h.returns place).scopes
  rw [Resolve.walk_eq_ok.2 walk, outside] at level
  exact List.length_eq_zero_iff.1 level

/-- Outside of all scopes a name has no distance. -/
theorem readVariable_outside {reference reference' : Reference} (outside : place.scopes = [])
    (walk : (Resolve.readVariable reference).Gives place reference' place') :
    reference'.distance = none := by
  obtain ⟨_, mid, ready, located⟩ := bind_gives.1 walk
  obtain ⟨rfl, -⟩ := Resolve.checkReady_gives ready
  have located := Resolve.locate_gives.1 located
  have none : mid.distance? reference.name.lexeme = none := by
    rw [Surroundings.distance?, outside, List.findIdx?_nil]
  rw [none] at located
  rw [located.1]

theorem Stmt.AtTop.resolve {s s' : Stmt} (h : s.AtTop) (outside : place.scopes = [])
    (walk : s.resolve.Gives place s' place') : s'.AtTop := by
  cases s with
  | varDecl name initial =>
      cases initial with
      | none =>
          obtain ⟨-, rfl⟩ := Stmt.resolve_gives.1 walk
          trivial
      | some initial =>
          obtain ⟨_, _, _, -, -, -, rfl⟩ := Stmt.resolve_gives.1 walk
          trivial
  | functionDecl function =>
      obtain ⟨name, params, body⟩ := function
      obtain ⟨_, _, -, -, rfl⟩ := Stmt.resolve_gives.1 walk
      trivial
  | classDecl name parent methods =>
      obtain ⟨mid, parent', _, _, _, named, looked, -, -, rfl⟩ := Stmt.resolve_gives.1 walk
      have still : mid.scopes = [] := by
        refine (Resolve.declareReady_traceless name).outside ?_ named
        exact outside
      rintro reference' ⟨⟩
      cases parent with
      | none =>
          obtain ⟨wrong, -⟩ := Resolve.superclass_gives.1 looked
          cases wrong
      | some reference =>
          obtain ⟨-, _, read, ⟨⟩⟩ := Resolve.superclass_gives.1 looked
          exact readVariable_outside still read
  | expression | print | block | branch | loop | returns =>
      exact ((Stmt.isPlain_resolve walk).2 h).atTop

theorem Stmt.atTop_resolveEach {body body' : List Stmt} (h : ∀ s ∈ body, s.AtTop)
    (outside : place.scopes = []) (walk : (Stmt.resolveEach body).Gives place body' place') :
    ∀ s ∈ body', s.AtTop := by
  induction body generalizing place body' with
  | nil =>
      obtain ⟨rfl, -⟩ := Stmt.resolveEach_gives.1 walk
      exact nofun
  | cons s rest ih =>
      obtain ⟨s', mid, rest', first, others, rfl⟩ := Stmt.resolveEach_gives.1 walk
      have still := (Stmt.resolve_traceless s).outside outside first
      have others := ih (fun t among => h t (List.mem_cons_of_mem _ among)) still others
      exact List.forall_mem_cons.2 ⟨(h s List.mem_cons_self).resolve outside first, others⟩

theorem Stmt.AllLayered.atTop {body : List Stmt} (layered : Stmt.AllLayered body) :
    ∀ s ∈ body, s.AtTop := by
  induction body with
  | nil => exact nofun
  | cons s rest ih => exact List.forall_mem_cons.2 ⟨layered.1.atTop, ih layered.2⟩

theorem parseSource_atTop {source : String} {program : List Stmt}
    (parsed : (parseSource source).result = .ok program) : ∀ s ∈ program, s.AtTop := by
  obtain ⟨tokens, rest, -, read⟩ := parseSource_ok parsed
  obtain ⟨-, layered, -⟩ := Grammar.items_accounts (Grammar.read_eq_ok.1 read)
  exact layered.atTop

theorem prepareSource_atTop {source : String} {program : List Stmt} {uses : Nat}
    (prepared : (prepareSource source).result = .ok (program, uses)) : ∀ s ∈ program, s.AtTop := by
  obtain ⟨original, parsed, resolved⟩ := Noted.andThen_ok.1 prepared
  unfold resolveProgram at resolved
  split at resolved
  next tree after found =>
    cases resolved
    exact Stmt.atTop_resolveEach (parseSource_atTop parsed) rfl (Resolve.walk_eq_ok.1 found)
  next => cases resolved

/-- The statements that a step runs stand at the top level. -/
theorem Step.atTop {step : Step} {body : List Stmt} (work : step.work = .statements body) :
    ∀ s ∈ body, s.AtTop :=
  step.forall_statements prepareSource_atTop parseSource_atTop work

end TreeWalk
