import TreeWalk.Proofs.Scope.Marks
import TreeWalk.Proofs.Scope.Places
import TreeWalk.Proofs.Scope.Settings

/-!
# The walk agrees with the text

Wherever the walk of the scope rules comes to, what it knows there is what the text says:
the scopes bind the names that were declared before, and the only name that is not ready
is that of the variable whose initial value is being walked.
-/

namespace TreeWalk

open Resolve Surroundings

variable {place mid place' : Surroundings} {Γ : Setting}

/-- What the walk knows at a place is what the text says. -/
structure Setting.Agrees (Γ : Setting) (place : Surroundings) : Prop where
  scopes : List.Forall₂ (fun names v => ∀ x, (v x).isSome ↔ x ∈ names) Γ.scopes place.views
  functionContext : place.functionContext = Γ.functionContext
  classContext : place.classContext = Γ.classContext
  unready : ∀ x, (∃ v ∈ place.views.head?, ∃ b ∈ v x, b.isReady = false) ↔
    Γ.initializing = some x

namespace Setting.Agrees

theorem top : Setting.top.Agrees .initial :=
  ⟨.nil, rfl, rfl, fun x => by simp [Surroundings.views, Surroundings.initial, Setting.top]⟩

/-- The walk finds the same distances. -/
theorem distance? (h : Γ.Agrees place) (x : String) : place.distance? x = Γ.distance? x := by
  rw [distance?_eq, Setting.distance?]
  have scopes := h.scopes
  generalize place.views = views, Γ.scopes = names at scopes
  induction scopes with
  | nil => rfl
  | @cons names v _ _ same _ ih =>
      have head : (v x).isSome = decide (x ∈ names) := Bool.eq_iff_iff.2 (by simpa using same x)
      rw [List.findIdx?_cons, List.findIdx?_cons, ih, head]

theorem finds (h : Γ.Agrees place) (depth : Nat) (name : String) :
    place.Finds depth name ↔ Γ.Finds depth name := by
  have length : place.scopes.length = Γ.scopes.length := by
    rw [h.scopes.length_eq, views, List.length_map]
  rw [Surroundings.Finds, Setting.Finds, h.distance?, length]

theorem alike (h : Γ.Agrees place) (alike : Alike place mid) : Γ.Agrees mid :=
  ⟨alike.views ▸ h.scopes, alike.functionContext.trans h.functionContext,
    alike.classContext.trans h.classContext, alike.views ▸ h.unready⟩

/-- A new scope without names. -/
theorem enter (h : Γ.Agrees place) : (Γ.enter []).Agrees (blockPlace place) := by
  refine ⟨.cons (fun x => ?_) h.scopes, h.functionContext, h.classContext, fun x => ?_⟩
  · simp [Scope.view, Bindings.empty, Bindings.get?]
  · simp [blockPlace, views, Setting.enter, Scope.view, Bindings.empty, Bindings.get?]

theorem inFunction (h : Γ.Agrees place) (context : FunctionContext) :
    { Γ with functionContext := context }.Agrees { place with functionContext := context } :=
  ⟨h.scopes, rfl, h.classContext, h.unready⟩

theorem inClass (h : Γ.Agrees place) (context : ClassContext) :
    { Γ with classContext := context }.Agrees { place with classContext := context } :=
  ⟨h.scopes, h.functionContext, rfl, h.unready⟩

/-- The scopes bind one more name. -/
theorem binds_scopes {name : Token} {ready : Bool} {views views' : List View}
    {scopes : List (List String)}
    (h : List.Forall₂ (fun names v => ∀ x, (v x).isSome ↔ x ∈ names) scopes views)
    (binds : Binds name ready views views') :
    List.Forall₂ (fun names (v : View) => ∀ x, (v x).isSome ↔ x ∈ names)
      (scopes.modifyHead (name.lexeme :: ·)) views' := by
  cases h with
  | nil =>
      obtain rfl : views' = [] := binds
      exact .nil
  | cons same others =>
      obtain ⟨-, rfl⟩ := binds
      refine .cons (fun x => ?_) others
      simp only [View.bind, Function.update_apply, List.mem_cons]
      split
      next named => simp [named]
      next other => simp [same, other]

/-- A declared name that is ready at once. -/
theorem declares {name : Token} (h : Γ.Agrees place) (declares : Declares name true place mid) :
    (Γ.declare name).Agrees mid := by
  refine ⟨binds_scopes h.scopes declares.binds, declares.functionContext.trans h.functionContext,
    declares.classContext.trans h.classContext, fun x => ?_⟩
  have binds := declares.binds
  rw [show (Γ.declare name).initializing = Γ.initializing from rfl, ← h.unready]
  cases cut : place.views with
  | nil =>
      rw [cut] at binds
      rw [show mid.views = [] from binds]
  | cons v outer =>
      rw [cut] at binds
      obtain ⟨fresh, after⟩ := binds
      simp only [after, List.head?_cons, Option.mem_some_iff, exists_eq_left', View.bind,
        Function.update_apply]
      split
      next named => simp [named, fresh, Binding.isReady]
      next => rfl

/-- A declared name that is not ready before it has its value. -/
theorem initial {name : Token} (h : Γ.Agrees place) (settled : Γ.initializing = none)
    (declares : Declares name false place mid) : (Γ.initial name).Agrees mid := by
  refine ⟨binds_scopes h.scopes declares.binds, declares.functionContext.trans h.functionContext,
    declares.classContext.trans h.classContext, fun x => ?_⟩
  have binds := declares.binds
  have ready := h.unready x
  have scopes := h.scopes
  simp only [Setting.initial]
  cases cut : place.views with
  | nil =>
      rw [cut] at binds scopes
      rw [show mid.views = [] from binds, List.forall₂_nil_right_iff.1 scopes]
      simp
  | cons v outer =>
      rw [cut] at binds scopes ready
      obtain ⟨names, others, -, -, split⟩ := List.forall₂_cons_right_iff.1 scopes
      obtain ⟨-, after⟩ := binds
      simp only [settled, List.head?_cons, Option.mem_some_iff, exists_eq_left', reduceCtorEq,
        iff_false, not_exists, not_and] at ready
      simp only [split, after, List.head?_cons, Option.mem_some_iff, exists_eq_left', View.bind,
        Function.update_apply, Option.map_some, Option.some.injEq]
      split
      next named => simp [named, Binding.isReady]
      next other => simpa [Ne.symm other] using ready

theorem params {params : List Token} {u : Unit}
    (bound : (params.forM declareReady).Gives place u mid) (h : Γ.Agrees place) :
    (params.foldl Setting.declare Γ).Agrees mid := by
  induction params generalizing place Γ with
  | nil =>
      obtain ⟨-, rfl⟩ := pure_gives.1 bound
      exact h
  | cons param params ih =>
      rw [List.forM_eq_forM, List.forM_cons, bind_gives] at bound
      obtain ⟨_, next, first, others⟩ := bound
      exact ih others (h.declares (declareReady_declares first))

theorem routine {context : FunctionContext} {params : List Token} {u : Unit} (h : Γ.Agrees place)
    (bound : (params.forM declareReady).Gives (bodyPlace context place) u mid) :
    (Γ.routine context params).Agrees (blockPlace mid) := by
  exact (Agrees.params bound (h.inFunction context).enter).enter

/-- A new scope with one implicit name. -/
theorem enter_implicit (h : Γ.Agrees place) (name : String) :
    (Γ.enter [name]).Agrees { place with scopes := Scope.ofImplicit name :: place.scopes } := by
  refine ⟨.cons (fun x => ?_) h.scopes, h.functionContext, h.classContext, fun x => ?_⟩
  · by_cases named : x = name <;> simp [Scope.view, Scope.ofImplicit, named]
  · by_cases named : x = name <;>
      simp [Setting.enter, Scope.view, Scope.ofImplicit, named, Binding.read, Binding.isReady]

theorem methods (h : Γ.Agrees place) (hasSuperclass : Bool) :
    (Γ.methods hasSuperclass).Agrees (methodsPlace hasSuperclass place) := by
  cases hasSuperclass with
  | false => exact h.enter_implicit "this"
  | true => exact (h.enter_implicit "super").enter_implicit "this"

/-- A class inside of which the name of the class is declared. -/
theorem behindName {name : Token} {hasSuperclass : Bool} (h : Γ.Agrees place)
    (declares : Declares name true (classPlace hasSuperclass place) mid) :
    (Γ.behindName name hasSuperclass).Agrees mid :=
  (h.inClass _).declares declares

theorem after {s s' : Stmt} (h : Γ.Agrees place) (layered : s.Layered)
    (walk : s.resolve.Gives place s' mid) : (Γ.after s).Agrees mid := by
  have after := Stmt.resolve_after layered walk
  unfold Setting.after
  cases declared : s.declared? with
  | none =>
      rw [declared] at after
      exact h.alike after
  | some name =>
      rw [declared] at after
      exact h.declares after

end Setting.Agrees

/-- The nodes that have no initial value around them in their scope. -/
def Node.IsStatement : Node → Prop
  | .expr _ | .exprs _ => False
  | .stmt _ | .stmts _ | .methods _ => True

/-- The use of a variable. -/
def Node.IsVariable : Node → Prop
  | .expr (.variable _) => True
  | _ => False

/-- The walk comes to a node where it stands. The superclass of a class is a variable that
is walked inside of the class and outside of its scopes, so its spot is not sane. -/
structure Occurrence.At (o : Occurrence) (place : Surroundings) : Prop where
  sane : ¬o.node.IsVariable → Spot.Sane ⟨o.node, place⟩
  agrees : o.setting.Agrees place
  settled : o.node.IsStatement → o.setting.initializing = none

/-- What the walk knows at a part agrees with the setting of the part. -/
theorem Setting.Agrees.walks {node node' : Node} (h : Walks ⟨node, place⟩ ⟨node', place'⟩)
    (layered : node.Layered) (agrees : Γ.Agrees place)
    (settled : node.IsStatement → Γ.initializing = none) :
    (Γ.inside node node').Agrees place' := by
  cases h with
  | binaryRight walk | logicalRight walk => exact agrees.alike (Expr.resolve_alike layered.2.1 walk)
  | consequent walk | arguments walk | otherItems walk =>
      exact agrees.alike (Expr.resolve_alike layered.1 walk)
  | alternative walk walk' =>
      exact (agrees.alike (Expr.resolve_alike layered.1 walk)).alike
        (Expr.resolve_alike layered.2.2.1 walk')
  | setObject walk => exact agrees.alike (Expr.resolve_alike layered.2.2.2.1 walk)
  | @branchConsequent _ _ alternative _ _ _ walk =>
      cases alternative <;> exact agrees.alike (Expr.resolve_alike layered.1 walk)
  | loopBody walk => exact agrees.alike (Expr.resolve_alike layered.1 walk)
  | branchAlternative walk walk' =>
      have second := Stmt.resolve_after layered.2.1 walk'
      rw [layered.2.2.1] at second
      exact (agrees.alike (Expr.resolve_alike layered.1 walk)).alike second
  | initial declares => exact agrees.initial (settled trivial) (declare_declares declares)
  | lambdaBody bound => exact agrees.routine bound
  | functionBody declares bound =>
      exact (agrees.declares (declareReady_declares declares)).routine bound
  | methodBody bound => exact agrees.routine bound
  | methods declares parents =>
      exact ((agrees.behindName (declareReady_declares declares)).alike
        (superclass_alike parents)).methods _
  | otherStatements walk => exact agrees.after layered.1 walk
  | otherMethods walk =>
      exact agrees.alike (routine_alike walk fun walk => Stmt.resolveEach_alike layered.1.2.2 walk)
  | block => exact agrees.enter
  | _ => exact agrees

@[simp] theorem Setting.after_initializing (Γ : Setting) (s : Stmt) :
    (Γ.after s).initializing = Γ.initializing := by
  unfold Setting.after
  cases s.declared? <;> rfl

/-- A statement declares what it declared before it got its distances. -/
theorem Setting.after_resolve {s s' : Stmt} (walk : s.resolve.Gives place s' mid) :
    Γ.after s' = Γ.after s := by
  rw [Setting.after, Setting.after, Placed.resolve_declared walk]

theorem Walks.not_variable {spot spot' : Spot} (h : Walks spot spot') : ¬spot.node.IsVariable := by
  cases h <;> exact id

namespace Occurrence.At

theorem top {program : List Stmt} (sane : Spot.Sane ⟨.stmts program, .initial⟩) :
    (ofProgram program).At .initial :=
  ⟨fun _ => sane, .top, fun _ => rfl⟩

/-- The walk comes to the parts of a node where they stand. -/
theorem walks {node node' : Node} (h : At ⟨node, Γ⟩ place)
    (walks : Walks ⟨node, place⟩ ⟨node', place'⟩) : At ⟨node', Γ.inside node node'⟩ place' := by
  have sane := h.sane walks.not_variable
  have settled := h.settled
  refine ⟨fun _ => walks.sane sane, h.agrees.walks walks sane.layered settled, ?_⟩
  cases walks with
  | otherStatements walk => exact fun _ => (Γ.after_initializing _).trans (settled trivial)
  | _ => first | exact False.elim | exact fun _ => rfl | exact fun _ => settled trivial

/-- The walk comes to the superclass of a class where it stands. -/
theorem superclass {name : Token} {parent : Reference} {members : List FunctionDecl}
    (h : At ⟨.stmt (.classDecl name (some parent) members), Γ⟩ place)
    (declares : (declareReady name).Gives (classPlace true place) () mid) :
    At ⟨.expr (.variable parent), Γ.behindName name true⟩ mid :=
  ⟨fun other => absurd trivial other, h.agrees.behindName (declareReady_declares declares),
    False.elim⟩

end Occurrence.At

end TreeWalk
