import TreeWalk.Proofs.Grammar.Writing
import TreeWalk.Proofs.Scope.Resolving
import Mathlib.Logic.Function.Basic

/-!
# Views of the scopes at a place

The walk of the scope rules changes the scopes at a place in two ways: a declaration
binds its name in the innermost scope, and a use notes that a name was read. The view of
a scope leaves the second out. Walking over an expression then changes no view, and
walking over a statement changes the innermost one by the name that it declares.

## Implementation notes

The bodies of branches and loops are walked in the scope around them. That they declare
nothing there is a matter of the grammar, so the trees are required to be layered.
-/

namespace TreeWalk

/-- What a scope says about names, apart from whether they were read. -/
abbrev View : Type := String → Option Binding

/-- The view of a scope. -/
def Scope.view (scope : Scope) : View := fun name => (scope.get? name).map Binding.read

/-- The view of a scope that binds nothing. -/
def View.empty : View := fun _ => none

/-- Bind a name that no token but its own has declared. -/
def View.bind (v : View) (name : Token) (ready : Bool) : View :=
  Function.update v name.lexeme (some (.declared name ready true))

/-- The innermost view gets a name that was not there before; names outside every scope
are not tracked. -/
def Binds (name : Token) (ready : Bool) : List View → List View → Prop
  | [], after => after = []
  | v :: outer, after => v name.lexeme = none ∧ after = v.bind name ready :: outer

namespace Surroundings

/-- The views of the scopes around a place, innermost first. -/
def views (place : Surroundings) : List View := place.scopes.map Scope.view

/-- Two places differ in nothing but the names that were read and the uses found. -/
structure Alike (place place' : Surroundings) : Prop where
  views : place'.views = place.views
  functionContext : place'.functionContext = place.functionContext
  classContext : place'.classContext = place.classContext

/-- Two places differ in one more name that is declared. -/
structure Declares (name : Token) (ready : Bool) (place place' : Surroundings) : Prop where
  binds : Binds name ready place.views place'.views
  functionContext : place'.functionContext = place.functionContext
  classContext : place'.classContext = place.classContext

/-- Two places differ at most in their innermost scopes. -/
structure AlikeOutside (place place' : Surroundings) : Prop where
  views : place'.views.tail = place.views.tail
  functionContext : place'.functionContext = place.functionContext
  classContext : place'.classContext = place.classContext

/-- The place before and after a statement that declares at most one name. -/
def After : Option Token → Surroundings → Surroundings → Prop
  | none => Alike
  | some name => Declares name true

variable {place place' place'' : Surroundings}

theorem Alike.refl : Alike place place := ⟨rfl, rfl, rfl⟩

theorem Alike.trans (h : Alike place place') (h' : Alike place' place'') : Alike place place'' :=
  ⟨h'.views.trans h.views, h'.functionContext.trans h.functionContext,
    h'.classContext.trans h.classContext⟩

theorem Alike.outside (h : Alike place place') : AlikeOutside place place' :=
  ⟨by rw [h.views], h.functionContext, h.classContext⟩

theorem AlikeOutside.trans (h : AlikeOutside place place') (h' : AlikeOutside place' place'') :
    AlikeOutside place place'' :=
  ⟨h'.views.trans h.views, h'.functionContext.trans h.functionContext,
    h'.classContext.trans h.classContext⟩

theorem Declares.trans_alike {name : Token} {ready : Bool} (h : Declares name ready place place')
    (h' : Alike place' place'') : Declares name ready place place'' :=
  ⟨h'.views ▸ h.binds, h'.functionContext.trans h.functionContext,
    h'.classContext.trans h.classContext⟩

theorem Declares.outside {name : Token} {ready : Bool} (h : Declares name ready place place') :
    AlikeOutside place place' := by
  refine ⟨?_, h.functionContext, h.classContext⟩
  have binds := h.binds
  cases cut : place.views with
  | nil =>
      rw [cut] at binds
      rw [show place'.views = [] from binds]
  | cons v outer =>
      rw [cut] at binds
      rw [binds.2, List.tail_cons, List.tail_cons]

theorem After.outside {declared : Option Token} (h : After declared place place') :
    AlikeOutside place place' := by
  cases declared with
  | none => exact Alike.outside h
  | some name => exact Declares.outside h

@[simp] theorem views_cons (scope : Scope) (place : Surroundings) :
    views { place with scopes := scope :: place.scopes } = scope.view :: place.views := rfl

theorem views_tail (place : Surroundings) :
    views { place with scopes := place.scopes.tail } = place.views.tail := by
  simp [views, List.map_tail]

/-- The distance of a name by views. -/
theorem distance?_eq (place : Surroundings) (name : String) :
    place.distance? name = place.views.findIdx? fun v => (v name).isSome := by
  simp only [distance?, views, List.findIdx?_map]
  congr
  funext scope
  simp [Scope.view, Bindings.contains]

end Surroundings

namespace Scope

theorem view_put (scope : Scope) (name : Token) (ready used : Bool) :
    view (scope.put name.lexeme (.declared name ready used)) = scope.view.bind name ready := by
  funext other
  simp only [view, View.bind, Bindings.get?_put, Function.update_apply]
  split <;> rfl

/-- Noting that a name was read does not show in a view. -/
theorem view_read (scope : Scope) (name : String) :
    view (scope.modify name Binding.read) = scope.view := by
  funext other
  simp only [view, Bindings.get?_modify]
  split
  · cases scope.get? other with
    | none => rfl
    | some binding => cases binding <;> rfl
  · rfl

theorem view_settled (scope : Scope) (name : String) :
    view (scope.modify name Binding.settled) =
      Function.update scope.view name ((scope.view name).map Binding.settled) := by
  funext other
  simp only [view, Bindings.get?_modify, Function.update_apply]
  split
  next same =>
    subst same
    cases scope.get? other with
    | none => rfl
    | some binding => cases binding <;> rfl
  next => rfl

end Scope

namespace Resolve

open Surroundings

variable {place place' : Surroundings} {name : Token}

theorem declare_declares {u : Unit} (h : (declare name).Gives place u place') :
    Declares name false place place' := by
  have h := declare_gives.1 h
  cases cut : place.scopes with
  | nil =>
      simp only [cut] at h
      subst h
      exact ⟨by simp [views, cut, Binds], rfl, rfl⟩
  | cons scope outer =>
      simp only [cut] at h
      obtain ⟨fresh, rfl⟩ := h
      refine ⟨?_, rfl, rfl⟩
      have none : scope.get? name.lexeme = none := by
        simpa [Bindings.contains] using fresh
      simp only [views, cut, List.map_cons, Binds, Scope.view_put, and_true]
      simp [Scope.view, none]

/-- A declared name becomes ready. -/
theorem settle_declares {mid : Surroundings} {u : Unit} (h : Declares name false place mid)
    (h' : (settle name).Gives mid u place') : Declares name true place place' := by
  obtain rfl := modify_gives.1 h'
  obtain ⟨binds, function, cls⟩ := h
  refine ⟨?_, function, cls⟩
  cases cut : place.views with
  | nil =>
      rw [cut] at binds
      have none : mid.scopes = [] := List.map_eq_nil_iff.1 binds
      simp [views, modifyAt, none, Binds]
  | cons v outer =>
      rw [cut] at binds
      obtain ⟨fresh, after⟩ := binds
      obtain ⟨scope, scopes, split, sees, rest⟩ := List.map_eq_cons_iff.1 after
      refine ⟨fresh, ?_⟩
      simp only [views, modifyAt, split, List.modify_zero_cons, List.map_cons, rest,
        Scope.view_settled, sees]
      simp [View.bind, Binding.settled]

theorem declareReady_declares {u : Unit} (h : (declareReady name).Gives place u place') :
    Declares name true place place' := by
  obtain ⟨mid, first, second⟩ := declareReady_gives.1 h
  exact settle_declares (declare_declares first) second

theorem views_modifyAt_read (place : Surroundings) (distance : Nat) (name : String) :
    views (place.modifyAt distance name Binding.read) = place.views := by
  simp only [views, modifyAt]
  apply List.ext_getElem?
  intro i
  simp only [List.getElem?_map, List.getElem?_modify]
  cases place.scopes[i]? with
  | none => simp
  | some scope =>
      by_cases h : distance = i <;> simp [h, Scope.view_read]

/-- A use is located by what the views say. -/
theorem locate_alike {use : Use} {reference reference' : Reference}
    (h : (locate use reference).Gives place reference' place') :
    Alike place place' ∧ reference' = ⟨reference.name, place.distance? reference.name.lexeme⟩ := by
  have h := locate_gives.1 h
  split at h
  next far =>
    obtain ⟨rfl, rfl⟩ := h
    exact ⟨.refl, by rw [far]⟩
  next distance near =>
    obtain ⟨rfl, rfl⟩ := h
    refine ⟨?_, by rw [near]⟩
    dsimp only
    split
    · exact ⟨rfl, rfl, rfl⟩
    · exact ⟨views_modifyAt_read _ _ _, rfl, rfl⟩

theorem readVariable_alike {reference reference' : Reference}
    (h : (readVariable reference).Gives place reference' place') :
    Alike place place' ∧ reference' = ⟨reference.name, place.distance? reference.name.lexeme⟩ := by
  simp only [readVariable, bind_gives, exists_unit] at h
  obtain ⟨mid, check, found⟩ := h
  obtain ⟨rfl, -⟩ := checkReady_gives check
  exact locate_alike found

theorem superclass_alike {parent parent' : Option Reference}
    (h : (superclass name parent).Gives place parent' place') : Alike place place' := by
  have h := superclass_gives.1 h
  cases parent with
  | none => exact h.2 ▸ .refl
  | some reference =>
      obtain ⟨-, _, read, -⟩ := h
      exact (readVariable_alike read).1

/-- Parameters are names of a scope of their own. -/
theorem params_alike {params : List Token} {u : Unit}
    (h : (params.forM declareReady).Gives place u place') : AlikeOutside place place' := by
  induction params generalizing place with
  | nil =>
      obtain ⟨-, rfl⟩ := pure_gives.1 h
      exact Alike.refl.outside
  | cons param params ih =>
      rw [List.forM_eq_forM, List.forM_cons, bind_gives] at h
      obtain ⟨_, mid, first, others⟩ := h
      exact (declareReady_declares first).outside.trans (ih others)

theorem routine_alike {α : Type} {context : FunctionContext} {params : List Token}
    {body : Resolve α} {a : α} (h : (routine context params body).Gives place a place')
    (within : ∀ {mid after}, body.Gives mid a after → AlikeOutside mid after) :
    Alike place place' := by
  obtain ⟨mid, after, bound, walk, -, rfl⟩ := routine_gives.1 h
  have first := params_alike bound
  have second := within walk
  refine ⟨?_, rfl, second.classContext.trans first.classContext⟩
  calc views { after with scopes := after.scopes.tail.tail, functionContext := _ }
      = after.views.tail.tail := by simp [views, List.map_tail]
    _ = mid.views.tail := by rw [second.views]; simp
    _ = place.views := by rw [first.views]; rfl

theorem inClassScopes_alike {α : Type} {hasSuperclass : Bool} {act : Resolve α} {a : α}
    (h : (inClassScopes hasSuperclass act).Gives place a place')
    (within : ∀ {mid after}, act.Gives mid a after → Alike mid after) : Alike place place' := by
  obtain ⟨after, walk, rfl⟩ := inClassScopes_gives.1 h
  have inner := within walk
  refine ⟨?_, inner.functionContext, inner.classContext⟩
  have same := inner.views
  cases hasSuperclass <;> simp_all [views, classScopes, List.map_tail]

end Resolve

open Resolve Surroundings

mutual

/-- Walking over an expression changes no view. -/
theorem Expr.resolve_alike : ∀ {e e' : Expr} {place place' : Surroundings}, e.Layered →
    e.resolve.Gives place e' place' → Alike place place'
  | .literal _, _, _, _, _, h => by
      obtain ⟨-, rfl⟩ := Expr.resolve_gives.1 h
      exact .refl
  | .variable _, _, _, _, _, h => by
      obtain ⟨_, read, -⟩ := Expr.resolve_gives.1 h
      exact (readVariable_alike read).1
  | .assign _ value, _, _, _, layered, h => by
      obtain ⟨_, _, _, walk, found, -⟩ := Expr.resolve_gives.1 h
      exact (Expr.resolve_alike layered.2.1 walk).trans (locate_alike found).1
  | .this _, _, _, _, _, h => by
      obtain ⟨_, -, found, -⟩ := Expr.resolve_gives.1 h
      exact (locate_alike found).1
  | .super _ _, _, _, _, _, h => by
      obtain ⟨_, -, found, -⟩ := Expr.resolve_gives.1 h
      exact (locate_alike found).1
  | .grouping inner, _, _, _, layered, h => by
      obtain ⟨_, walk, -⟩ := Expr.resolve_gives.1 h
      exact inner.resolve_alike layered walk
  | .unary _ operand, _, _, _, layered, h => by
      obtain ⟨_, walk, -⟩ := Expr.resolve_gives.1 h
      exact operand.resolve_alike layered.2.1 walk
  | .binary left _ right, _, _, _, layered, h => by
      obtain ⟨_, _, _, first, second, -⟩ := Expr.resolve_gives.1 h
      exact (Expr.resolve_alike layered.2.1 first).trans (Expr.resolve_alike layered.2.2 second)
  | .logical left _ right, _, _, _, layered, h => by
      obtain ⟨_, _, _, first, second, -⟩ := Expr.resolve_gives.1 h
      exact (Expr.resolve_alike layered.2.1 first).trans (Expr.resolve_alike layered.2.2 second)
  | .conditional condition consequent alternative, _, _, _, layered, h => by
      obtain ⟨_, _, _, _, _, first, second, third, -⟩ := Expr.resolve_gives.1 h
      obtain ⟨layered, -, layered', layered''⟩ := layered
      exact (Expr.resolve_alike layered first).trans
        ((Expr.resolve_alike layered' second).trans (Expr.resolve_alike layered'' third))
  | .comma items, _, _, _, layered, h => by
      obtain ⟨_, walk, -⟩ := Expr.resolve_gives.1 h
      exact Expr.resolveEach_alike layered.2.2 walk
  | .call callee _ arguments, _, _, _, layered, h => by
      obtain ⟨_, _, _, first, second, -⟩ := Expr.resolve_gives.1 h
      obtain ⟨layered, -, -, -, -, layered'⟩ := layered
      exact (Expr.resolve_alike layered first).trans (Expr.resolveEach_alike layered' second)
  | .get object _, _, _, _, layered, h => by
      obtain ⟨_, walk, -⟩ := Expr.resolve_gives.1 h
      exact Expr.resolve_alike layered.1 walk
  | .set object _ value, _, _, _, layered, h => by
      obtain ⟨_, _, _, first, second, -⟩ := Expr.resolve_gives.1 h
      obtain ⟨layered, -, -, layered', -⟩ := layered
      exact (Expr.resolve_alike layered' first).trans (Expr.resolve_alike layered second)
  | .lambda _ _ body, _, _, _, layered, h => by
      obtain ⟨_, walk, -⟩ := Expr.resolve_gives.1 h
      exact routine_alike walk fun h => Stmt.resolveEach_alike layered.2.2 h
termination_by structural e => e

theorem Expr.resolveEach_alike : ∀ {items items' : List Expr} {place place' : Surroundings},
    Expr.AllLayered items → (Expr.resolveEach items).Gives place items' place' →
      Alike place place'
  | [], _, _, _, _, h => by
      obtain ⟨-, rfl⟩ := Expr.resolveEach_gives.1 h
      exact .refl
  | e :: rest, _, _, _, layered, h => by
      obtain ⟨_, _, _, first, others, -⟩ := Expr.resolveEach_gives.1 h
      exact (Expr.resolve_alike layered.1 first).trans (Expr.resolveEach_alike layered.2 others)
termination_by structural items => items

/-- Walking over a statement changes the innermost view by what the statement declares. -/
theorem Stmt.resolve_after : ∀ {s s' : Stmt} {place place' : Surroundings}, s.Layered →
    s.resolve.Gives place s' place' → After s.declared? place place'
  | .expression value, _, _, _, layered, h => by
      obtain ⟨_, walk, -⟩ := Stmt.resolve_gives.1 h
      exact value.resolve_alike layered walk
  | .print value, _, _, _, layered, h => by
      obtain ⟨_, walk, -⟩ := Stmt.resolve_gives.1 h
      exact value.resolve_alike layered walk
  | .varDecl _ none, _, _, _, _, h => by
      obtain ⟨declares, -⟩ := Stmt.resolve_gives.1 h
      exact declareReady_declares declares
  | .varDecl _ (some initial), _, _, _, layered, h => by
      obtain ⟨_, _, _, declares, walk, settles, -⟩ := Stmt.resolve_gives.1 h
      exact settle_declares
        ((declare_declares declares).trans_alike (initial.resolve_alike layered.2 walk)) settles
  | .block body, _, place, _, layered, h => by
      obtain ⟨_, after, walk, -, rfl, -⟩ := Stmt.resolve_gives.1 h
      have inner := Stmt.resolveEach_alike layered walk
      exact ⟨by rw [views_tail, inner.views]; simp [blockPlace], inner.functionContext,
        inner.classContext⟩
  | .branch condition consequent none, _, _, _, layered, h => by
      obtain ⟨_, _, _, first, second, -⟩ := Stmt.resolve_gives.1 h
      obtain ⟨layered, layered', plain⟩ := layered
      have second := Stmt.resolve_after layered' second
      rw [plain] at second
      exact (condition.resolve_alike layered first).trans second
  | .branch condition consequent (some alternative), _, _, _, layered, h => by
      obtain ⟨_, _, _, _, _, first, second, third, -⟩ := Stmt.resolve_gives.1 h
      obtain ⟨layered, layered', plain, -, layered'', plain'⟩ := layered
      have second := Stmt.resolve_after layered' second
      have third := Stmt.resolve_after layered'' third
      rw [plain] at second
      rw [plain'] at third
      exact ((condition.resolve_alike layered first).trans second).trans third
  | .loop condition body, _, _, _, layered, h => by
      obtain ⟨_, _, _, first, second, -⟩ := Stmt.resolve_gives.1 h
      obtain ⟨layered, layered', plain⟩ := layered
      have second := Stmt.resolve_after layered' second
      rw [plain] at second
      exact (condition.resolve_alike layered first).trans second
  | .functionDecl (.mk _ _ body), _, _, _, layered, h => by
      obtain ⟨_, _, declares, walk, -⟩ := Stmt.resolve_gives.1 h
      exact (declareReady_declares declares).trans_alike
        (routine_alike walk fun h => Stmt.resolveEach_alike layered.2.2 h)
  | .classDecl _ parent methods, _, place, _, layered, h => by
      obtain ⟨mid, _, _, _, after, declares, parents, walk, rfl, -⟩ := Stmt.resolve_gives.1 h
      have layered : FunctionDecl.AllLayered methods := by
        cases parent with
        | none => exact layered.2
        | some reference => exact layered.2.2
      have inner := (superclass_alike parents).trans
        (inClassScopes_alike walk fun h => FunctionDecl.resolveEach_alike layered h)
      have whole := (declareReady_declares declares).trans_alike inner
      exact ⟨whole.binds, whole.functionContext, rfl⟩
  | .returns _ none, _, _, _, _, h => by
      obtain ⟨check, -⟩ := Stmt.resolve_gives.1 h
      exact checkReturn_gives check ▸ Alike.refl
  | .returns _ (some value), _, _, _, layered, h => by
      obtain ⟨_, _, check, walk, -⟩ := Stmt.resolve_gives.1 h
      obtain rfl := checkReturn_gives check
      exact value.resolve_alike layered.2 walk
termination_by structural s => s

theorem Stmt.resolveEach_alike : ∀ {body body' : List Stmt} {place place' : Surroundings},
    Stmt.AllLayered body → (Stmt.resolveEach body).Gives place body' place' →
      AlikeOutside place place'
  | [], _, _, _, _, h => by
      obtain ⟨-, rfl⟩ := Stmt.resolveEach_gives.1 h
      exact Alike.refl.outside
  | s :: rest, _, _, _, layered, h => by
      obtain ⟨_, _, _, first, others, -⟩ := Stmt.resolveEach_gives.1 h
      exact (Stmt.resolve_after layered.1 first).outside.trans
        (Stmt.resolveEach_alike layered.2 others)
termination_by structural body => body

theorem FunctionDecl.resolveEach_alike :
    ∀ {members members' : List FunctionDecl} {place place' : Surroundings},
      FunctionDecl.AllLayered members →
      (FunctionDecl.resolveEach members).Gives place members' place' → Alike place place'
  | [], _, _, _, _, h => by
      obtain ⟨-, rfl⟩ := FunctionDecl.resolveEach_gives.1 h
      exact .refl
  | .mk _ _ body :: rest, _, _, _, layered, h => by
      obtain ⟨_, _, _, first, others, -⟩ := FunctionDecl.resolveEach_gives.1 h
      exact (routine_alike first fun h => Stmt.resolveEach_alike layered.1.2.2 h).trans
        (FunctionDecl.resolveEach_alike layered.2 others)
termination_by structural members => members

end

end TreeWalk
