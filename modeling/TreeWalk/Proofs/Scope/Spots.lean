import TreeWalk.Proofs.Scope.Views

/-!
# Spots of a walk

A spot is a node together with what the walk of the scope rules knows when it comes to
it. `Walks` relates a spot to those that the walk comes to from it directly. Every spot
that is reached from the top of a program keeps what makes `this` and `super` work: the
scopes that bind them lie where the class around the spot says.

## Implementation notes

A use of `this` or `super` is found by its text, so that no other name has this text is
part of a spot being sane; it is a matter of the scanner.
-/

namespace TreeWalk

open Resolve Surroundings

/-- The parts of a program that a walk comes to. -/
inductive Node
  | expr (e : Expr)
  | exprs (items : List Expr)
  | stmt (s : Stmt)
  | stmts (body : List Stmt)
  | methods (members : List FunctionDecl)

/-- A node and what is known when the walk comes to it. -/
structure Spot where
  node : Node
  place : Surroundings

/-- The place of the first method of a class. -/
def methodsPlace (hasSuperclass : Bool) (place : Surroundings) : Surroundings :=
  { place with scopes := classScopes hasSuperclass place.scopes }

/-- The place inside a class around which something is known. -/
def classPlace (hasSuperclass : Bool) (place : Surroundings) : Surroundings :=
  { place with classContext := if hasSuperclass then .derived else .base }

/-- The walk comes from one spot to another directly. -/
inductive Walks : Spot → Spot → Prop
  | assignValue {reference value place} :
      Walks ⟨.expr (.assign reference value), place⟩ ⟨.expr value, place⟩
  | grouping {inner place} : Walks ⟨.expr (.grouping inner), place⟩ ⟨.expr inner, place⟩
  | unary {operator operand place} :
      Walks ⟨.expr (.unary operator operand), place⟩ ⟨.expr operand, place⟩
  | binaryLeft {left operator right place} :
      Walks ⟨.expr (.binary left operator right), place⟩ ⟨.expr left, place⟩
  | binaryRight {left operator right place left' mid} : left.resolve.Gives place left' mid →
      Walks ⟨.expr (.binary left operator right), place⟩ ⟨.expr right, mid⟩
  | logicalLeft {left operator right place} :
      Walks ⟨.expr (.logical left operator right), place⟩ ⟨.expr left, place⟩
  | logicalRight {left operator right place left' mid} : left.resolve.Gives place left' mid →
      Walks ⟨.expr (.logical left operator right), place⟩ ⟨.expr right, mid⟩
  | condition {condition consequent alternative place} :
      Walks ⟨.expr (.conditional condition consequent alternative), place⟩
        ⟨.expr condition, place⟩
  | consequent {condition consequent alternative place condition' mid} :
      condition.resolve.Gives place condition' mid →
      Walks ⟨.expr (.conditional condition consequent alternative), place⟩ ⟨.expr consequent, mid⟩
  | alternative {condition consequent alternative place condition' mid consequent' mid'} :
      condition.resolve.Gives place condition' mid →
      consequent.resolve.Gives mid consequent' mid' →
      Walks ⟨.expr (.conditional condition consequent alternative), place⟩
        ⟨.expr alternative, mid'⟩
  | items {items place} : Walks ⟨.expr (.comma items), place⟩ ⟨.exprs items, place⟩
  | callee {callee paren arguments place} :
      Walks ⟨.expr (.call callee paren arguments), place⟩ ⟨.expr callee, place⟩
  | arguments {callee paren arguments place callee' mid} :
      callee.resolve.Gives place callee' mid →
      Walks ⟨.expr (.call callee paren arguments), place⟩ ⟨.exprs arguments, mid⟩
  | getObject {object name place} :
      Walks ⟨.expr (.get object name), place⟩ ⟨.expr object, place⟩
  | setValue {object name value place} :
      Walks ⟨.expr (.set object name value), place⟩ ⟨.expr value, place⟩
  | setObject {object name value place value' mid} : value.resolve.Gives place value' mid →
      Walks ⟨.expr (.set object name value), place⟩ ⟨.expr object, mid⟩
  | lambdaBody {keyword params body place mid} :
      (params.forM declareReady).Gives (bodyPlace .function place) () mid →
      Walks ⟨.expr (.lambda keyword params body), place⟩ ⟨.stmts body, blockPlace mid⟩
  | item {e rest place} : Walks ⟨.exprs (e :: rest), place⟩ ⟨.expr e, place⟩
  | otherItems {e rest place e' mid} : e.resolve.Gives place e' mid →
      Walks ⟨.exprs (e :: rest), place⟩ ⟨.exprs rest, mid⟩
  | value {value place} : Walks ⟨.stmt (.expression value), place⟩ ⟨.expr value, place⟩
  | printed {value place} : Walks ⟨.stmt (.print value), place⟩ ⟨.expr value, place⟩
  | initial {name initial place mid} : (declare name).Gives place () mid →
      Walks ⟨.stmt (.varDecl name (some initial)), place⟩ ⟨.expr initial, mid⟩
  | block {body place} : Walks ⟨.stmt (.block body), place⟩ ⟨.stmts body, blockPlace place⟩
  | branchCondition {condition consequent alternative place} :
      Walks ⟨.stmt (.branch condition consequent alternative), place⟩ ⟨.expr condition, place⟩
  | branchConsequent {condition consequent alternative place condition' mid} :
      condition.resolve.Gives place condition' mid →
      Walks ⟨.stmt (.branch condition consequent alternative), place⟩ ⟨.stmt consequent, mid⟩
  | branchAlternative {condition consequent alternative place condition' mid consequent' mid'} :
      condition.resolve.Gives place condition' mid →
      consequent.resolve.Gives mid consequent' mid' →
      Walks ⟨.stmt (.branch condition consequent (some alternative)), place⟩
        ⟨.stmt alternative, mid'⟩
  | loopCondition {condition body place} :
      Walks ⟨.stmt (.loop condition body), place⟩ ⟨.expr condition, place⟩
  | loopBody {condition body place condition' mid} : condition.resolve.Gives place condition' mid →
      Walks ⟨.stmt (.loop condition body), place⟩ ⟨.stmt body, mid⟩
  | functionBody {name params body place mid mid'} : (declareReady name).Gives place () mid →
      (params.forM declareReady).Gives (bodyPlace .function mid) () mid' →
      Walks ⟨.stmt (.functionDecl (.mk name params body)), place⟩ ⟨.stmts body, blockPlace mid'⟩
  | methods {name parent methods place mid parent' mid'} :
      (declareReady name).Gives (classPlace parent.isSome place) () mid →
      (superclass name parent).Gives mid parent' mid' →
      Walks ⟨.stmt (.classDecl name parent methods), place⟩
        ⟨.methods methods, methodsPlace parent.isSome mid'⟩
  | returned {keyword value place} :
      Walks ⟨.stmt (.returns keyword (some value)), place⟩ ⟨.expr value, place⟩
  | statement {s rest place} : Walks ⟨.stmts (s :: rest), place⟩ ⟨.stmt s, place⟩
  | otherStatements {s rest place s' mid} : s.resolve.Gives place s' mid →
      Walks ⟨.stmts (s :: rest), place⟩ ⟨.stmts rest, mid⟩
  | methodBody {name params body rest place mid} :
      (params.forM declareReady).Gives (bodyPlace (methodContext name) place) () mid →
      Walks ⟨.methods (.mk name params body :: rest), place⟩ ⟨.stmts body, blockPlace mid⟩
  | otherMethods {name params body rest place body' mid} :
      (routine (methodContext name) params (Stmt.resolveEach body)).Gives place body' mid →
      Walks ⟨.methods (.mk name params body :: rest), place⟩ ⟨.methods rest, mid⟩

/-- A name that is neither `this` nor `super`. -/
def IsPlainName (name : String) : Prop := name ≠ "this" ∧ name ≠ "super"

/-- A token whose text is neither `this` nor `super`. -/
abbrev Token.IsPlain (name : Token) : Prop := IsPlainName name.lexeme

/-- Names are told from `this` and `super` by their text. -/
structure Token.IsProper (t : Token) : Prop where
  identifier : t.kind = .identifier → t.IsPlain
  this : t.kind = .thisWord → t.lexeme = "this"
  super : t.kind = .superWord → t.lexeme = "super"

namespace View

/-- A view of a scope that binds neither `this` nor `super`. -/
def IsPlain (v : View) : Prop := v "this" = none ∧ v "super" = none

/-- A view of the scope that binds `this`. -/
def BindsThis (v : View) : Prop := v "this" = some .implicit ∧ v "super" = none

/-- A view of the scope that binds `super`. -/
def BindsSuper (v : View) : Prop := v "super" = some .implicit ∧ v "this" = none

end View

/-- The scopes that bind `this` and `super` lie where the class around them says. -/
def Enclosed : ClassContext → List View → Prop
  | .outside, views => ∀ v ∈ views, v.IsPlain
  | .base, views => ∃ inner this outer, views = inner ++ this :: outer ∧
      (∀ v ∈ inner, v.IsPlain) ∧ this.BindsThis
  | .derived, views => ∃ inner this super outer, views = inner ++ this :: super :: outer ∧
      (∀ v ∈ inner, v.IsPlain) ∧ this.BindsThis ∧ super.BindsSuper

namespace Node

/-- The parts of a node are tight enough for their places. -/
def Layered : Node → Prop
  | expr e => e.Layered
  | exprs items => Expr.AllLayered items
  | stmt s => s.Layered
  | stmts body => Stmt.AllLayered body
  | methods members => FunctionDecl.AllLayered members

/-- The words of a node. -/
def words : Node → List Word
  | expr e => e.words
  | exprs items => Expr.listWords items
  | stmt s => s.words
  | stmts body => Stmt.rowWords body
  | methods members => FunctionDecl.rowWords members

/-- The tokens that a node has kept are proper. -/
def Proper (node : Node) : Prop := ∀ t, .kept t ∈ node.words → t.IsProper

end Node

/-- What holds of every spot that the walk of a program comes to. -/
structure Spot.Sane (spot : Spot) : Prop where
  layered : spot.node.Layered
  proper : spot.node.Proper
  enclosed : Enclosed spot.place.classContext spot.place.views

theorem View.bind_this {name : Token} (v : View) (ready : Bool) (plain : name.IsPlain) :
    v.bind name ready "this" = v "this" ∧ v.bind name ready "super" = v "super" := by
  simp [View.bind, plain.1.symm, plain.2.symm]

theorem Enclosed.binds {context : ClassContext} {views views' : List View} {name : Token}
    {ready : Bool} (h : Enclosed context views) (binds : Binds name ready views views')
    (plain : name.IsPlain) : Enclosed context views' := by
  cases views with
  | nil => rwa [show views' = [] from binds]
  | cons v outer =>
      obtain ⟨-, rfl⟩ := binds
      obtain ⟨this, super⟩ := View.bind_this v ready plain
      cases context with
      | outside => simpa [Enclosed, View.IsPlain, this, super] using h
      | base =>
          obtain ⟨inner, w, outer', cut, plain, bindsThis⟩ := h
          cases inner with
          | nil =>
              obtain ⟨rfl, rfl⟩ := List.cons.inj cut
              exact ⟨[], _, _, rfl, by simp, by simpa [View.BindsThis, this, super] using bindsThis⟩
          | cons u inner =>
              obtain ⟨rfl, rfl⟩ := List.cons.inj cut
              refine ⟨_ :: inner, w, outer', rfl, ?_, bindsThis⟩
              simpa [View.IsPlain, this, super] using plain
      | derived =>
          obtain ⟨inner, w, w', outer', cut, plain, bindsThis, bindsSuper⟩ := h
          cases inner with
          | nil =>
              obtain ⟨rfl, rfl⟩ := List.cons.inj cut
              exact ⟨[], _, _, _, rfl, by simp,
                by simpa [View.BindsThis, this, super] using bindsThis, bindsSuper⟩
          | cons u inner =>
              obtain ⟨rfl, rfl⟩ := List.cons.inj cut
              refine ⟨_ :: inner, w, w', outer', rfl, ?_, bindsThis, bindsSuper⟩
              simpa [View.IsPlain, this, super] using plain

/-- A new scope without names. -/
theorem Enclosed.push {context : ClassContext} {views : List View} (h : Enclosed context views) :
    Enclosed context (View.empty :: views) := by
  have plain : View.IsPlain View.empty := ⟨rfl, rfl⟩
  cases context with
  | outside =>
      intro v inside
      obtain rfl | inside := List.mem_cons.1 inside
      · exact plain
      · exact h v inside
  | base =>
      obtain ⟨inner, this, outer, rfl, plains, bindsThis⟩ := h
      exact ⟨View.empty :: inner, this, outer, rfl, by simpa [plain] using plains, bindsThis⟩
  | derived =>
      obtain ⟨inner, this, super, outer, rfl, plains, bindings⟩ := h
      exact ⟨View.empty :: inner, this, super, outer, rfl, by simpa [plain] using plains, bindings⟩

theorem Enclosed.alike {place place' : Surroundings}
    (h : Enclosed place.classContext place.views) (alike : Alike place place') :
    Enclosed place'.classContext place'.views := by
  rwa [alike.views, alike.classContext]

theorem Enclosed.declares {place place' : Surroundings} {name : Token} {ready : Bool}
    (h : Enclosed place.classContext place.views) (declares : Declares name ready place place')
    (plain : name.IsPlain) :
    Enclosed place'.classContext place'.views := by
  rw [declares.classContext]
  exact h.binds declares.binds plain

theorem Enclosed.params {place place' : Surroundings} {params : List Token}
    (bound : (params.forM declareReady).Gives place () place')
    (h : Enclosed place.classContext place.views)
    (plain : ∀ param ∈ params, param.IsPlain) :
    Enclosed place'.classContext place'.views := by
  induction params generalizing place with
  | nil =>
      obtain ⟨-, rfl⟩ := pure_gives.1 bound
      exact h
  | cons param params ih =>
      rw [List.forM_eq_forM, List.forM_cons, bind_gives] at bound
      obtain ⟨_, mid, first, others⟩ := bound
      exact ih others (h.declares (declareReady_declares first) (plain param (by simp)))
        fun other inside => plain other (by simp [inside])

theorem Enclosed.methods (hasSuperclass : Bool) (place : Surroundings) :
    Enclosed (if hasSuperclass then .derived else .base)
      (methodsPlace hasSuperclass place).views := by
  cases hasSuperclass with
  | false => exact ⟨[], _, _, rfl, by simp, rfl, rfl⟩
  | true => exact ⟨[], _, _, _, rfl, by simp, ⟨rfl, rfl⟩, rfl, rfl⟩

theorem Expr.kept_moreWords {items : List Expr} {t : Token}
    (h : .kept t ∈ Expr.listWords items) : .kept t ∈ Expr.moreWords items := by
  cases items with
  | nil => exact h
  | cons item others => exact List.mem_cons_of_mem _ h

/-- What a statement declares is a name that it has kept. -/
theorem Stmt.declared_kept {s : Stmt} {name : Token} (layered : s.Layered)
    (declared : s.declared? = some name) : name.kind = .identifier ∧ .kept name ∈ s.words := by
  rcases s with _ | _ | ⟨_, _ | _⟩ | _ | _ | _ | ⟨_, _, _⟩ | ⟨_, _ | _, _⟩ | _ <;>
    cases declared
  · exact ⟨layered, by simp [Stmt.words]⟩
  · exact ⟨layered.1, by simp [Stmt.words]⟩
  · exact ⟨layered.1, by simp [Stmt.words, FunctionDecl.words, FunctionDecl.name]⟩
  · exact ⟨layered.1, by simp [Stmt.words]⟩
  · exact ⟨layered.1, by simp [Stmt.words]⟩

namespace Walks

variable {spot spot' : Spot}

theorem layered (h : Walks spot spot') (layered : spot.node.Layered) : spot'.node.Layered := by
  cases h with
  | @branchCondition _ _ alternative | @branchConsequent _ _ alternative =>
      cases alternative <;> simp_all only [Node.Layered, Stmt.Layered]
  | @methods _ parent => cases parent <;> simp_all only [Node.Layered, Stmt.Layered]
  | _ =>
      simp_all only [Node.Layered, Expr.Layered, Stmt.Layered, FunctionDecl.Layered,
        Expr.AllLayered, Stmt.AllLayered, FunctionDecl.AllLayered]

/-- The tokens of a part are tokens of the whole. -/
theorem kept {t : Token} (h : Walks spot spot') (kept : .kept t ∈ spot'.node.words) :
    .kept t ∈ spot.node.words := by
  cases h with
  | @branchCondition _ _ alternative | @branchConsequent _ _ alternative =>
      cases alternative <;> simp_all [Node.words, Stmt.words]
  | @methods _ parent => cases parent <;> simp_all [Node.words, Stmt.words]
  | otherItems => simp_all [Node.words, Expr.listWords, Expr.kept_moreWords]
  | _ =>
      simp_all [Node.words, Expr.words, Stmt.words, FunctionDecl.words, Expr.listWords,
        Stmt.rowWords, FunctionDecl.rowWords]

theorem proper (h : Walks spot spot') (proper : spot.node.Proper) : spot'.node.Proper :=
  fun t kept => proper t (h.kept kept)

end Walks

namespace Spot.Sane

variable {place mid : Surroundings}

/-- A name that a sane spot has kept is neither `this` nor `super`. -/
theorem plainName {node : Node} {name : Token} (h : Sane ⟨node, place⟩)
    (kept : .kept name ∈ node.words) (isName : name.kind = .identifier) : name.IsPlain :=
  (h.proper name kept).identifier isName

theorem plainParams {node : Node} {params : List Token} (h : Sane ⟨node, place⟩)
    (kept : ∀ param ∈ params, .kept param ∈ node.words) (names : AreParameters params) :
    ∀ param ∈ params, param.IsPlain :=
  fun param inside => h.plainName (kept param inside) (names.2 param inside)

/-- The place after an expression is as good as the one before it. -/
theorem after {node : Node} {e e' : Expr} (h : Sane ⟨node, place⟩) (layered : e.Layered)
    (walk : e.resolve.Gives place e' mid) : Enclosed mid.classContext mid.views :=
  h.enclosed.alike (Expr.resolve_alike layered walk)

/-- The place after a statement is as good as the one before it. -/
theorem afterStatement {node : Node} {s s' : Stmt} (h : Sane ⟨node, place⟩) (layered : s.Layered)
    (kept : ∀ w ∈ s.words, w ∈ node.words) (walk : s.resolve.Gives place s' mid) :
    Enclosed mid.classContext mid.views := by
  have after := Stmt.resolve_after layered walk
  cases declared : s.declared? with
  | none =>
      rw [declared] at after
      exact h.enclosed.alike after
  | some name =>
      rw [declared] at after
      obtain ⟨isName, inside⟩ := Stmt.declared_kept layered declared
      exact h.enclosed.declares after (h.plainName (kept _ inside) isName)

end Spot.Sane

/-- The scopes around a spot stay where the class around it says. -/
theorem Walks.enclosed {spot spot' : Spot} (h : Walks spot spot') (sane : spot.Sane) :
    Enclosed spot'.place.classContext spot'.place.views := by
  have layered := sane.layered
  cases h with
  | binaryRight walk | logicalRight walk => exact sane.after layered.2.1 walk
  | consequent walk | arguments walk | otherItems walk => exact sane.after layered.1 walk
  | alternative walk walk' =>
      exact (sane.enclosed.alike (Expr.resolve_alike layered.1 walk)).alike
        (Expr.resolve_alike layered.2.2.1 walk')
  | setObject walk => exact sane.after layered.2.2.2.1 walk
  | @branchConsequent _ _ alternative _ _ _ walk =>
      cases alternative <;> exact sane.after layered.1 walk
  | loopBody walk => exact sane.after layered.1 walk
  | branchAlternative walk walk' =>
      have second := Stmt.resolve_after layered.2.1 walk'
      rw [layered.2.2.1] at second
      exact (sane.after layered.1 walk).alike second
  | initial declares =>
      exact sane.enclosed.declares (declare_declares declares)
        (sane.plainName (by simp [Node.words, Stmt.words]) layered.1)
  | lambdaBody bound =>
      have params := sane.plainParams
        (fun param inside => by simp [Node.words, Expr.words, mem_nameWords inside]) layered.2.1
      exact (Enclosed.params bound sane.enclosed.push params).push
  | functionBody declares bound =>
      have name := sane.plainName (by simp [Node.words, Stmt.words, FunctionDecl.words]) layered.1
      have params := sane.plainParams (fun param inside => by
        simp [Node.words, Stmt.words, FunctionDecl.words, mem_nameWords inside]) layered.2.1
      have first := sane.enclosed.declares (declareReady_declares declares) name
      exact (Enclosed.params bound first.push params).push
  | methodBody bound =>
      have params := sane.plainParams (fun param inside => by
        simp [Node.words, FunctionDecl.rowWords, FunctionDecl.words, mem_nameWords inside])
        layered.1.2.1
      exact (Enclosed.params bound sane.enclosed.push params).push
  | @methods _ parent _ _ _ _ mid declares parents =>
      have outer : mid.classContext = if parent.isSome then .derived else .base := by
        rw [(superclass_alike parents).classContext, (declareReady_declares declares).classContext]
        rfl
      exact (congrArg (Enclosed · _) outer).mpr (Enclosed.methods parent.isSome mid)
  | otherStatements walk =>
      exact sane.afterStatement layered.1 (fun w inside => List.mem_append_left _ inside) walk
  | otherMethods walk =>
      exact sane.enclosed.alike
        (routine_alike walk fun walk => Stmt.resolveEach_alike layered.1.2.2 walk)
  | block => exact sane.enclosed.push
  | _ => exact sane.enclosed

theorem Walks.sane {spot spot' : Spot} (h : Walks spot spot') (sane : spot.Sane) : spot'.Sane :=
  ⟨h.layered sane.layered, h.proper sane.proper, h.enclosed sane⟩

end TreeWalk
