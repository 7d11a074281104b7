import TreeWalk.Proofs.Run.Sessions
import TreeWalk.Proofs.Scope.Stages

/-!
# Distances are told by the text

In a program that the scope rules accept, a use of a name has a distance exactly if a
scope around it has declared the name before, and then it is the number of scopes up to
the nearest such scope. The uses that were found are those of the program, in order.
-/

namespace TreeWalk

open Resolve Surroundings

variable {place place' : Surroundings} {Γ : Setting}

/-- A distance is there if a scope around a place has declared a name before it, and then
it is that of the nearest such scope. -/
structure Setting.Locates (Γ : Setting) (name : String) (distance : Option Nat) : Prop where
  isSome_iff : distance.isSome ↔ ∃ names ∈ Γ.scopes, name ∈ names
  declares : ∀ d ∈ distance, ∃ names, Γ.scopes[d]? = some names ∧ name ∈ names
  nearest : ∀ d ∈ distance, ∀ nearer < d, ∀ names, Γ.scopes[nearer]? = some names → name ∉ names

theorem Setting.locates (Γ : Setting) (name : String) : Γ.Locates name (Γ.distance? name) := by
  refine ⟨by simp [Setting.distance?], fun d found => ?_, fun d found nearer less names => ?_⟩
  · obtain ⟨inside, declares, -⟩ := List.findIdx?_eq_some_iff_getElem.1 found
    exact ⟨_, List.getElem?_eq_getElem inside, of_decide_eq_true declares⟩
  · obtain ⟨inside, -, others⟩ := List.findIdx?_eq_some_iff_getElem.1 found
    intro isScope among
    obtain ⟨_, rfl⟩ := List.getElem?_eq_some_iff.1 isScope
    simpa [among] using others nearer less

/-- What is bound in a view was declared in the scope at its distance. -/
theorem Setting.Agrees.declares_of_view {d : Nat} {v : View} {name : String} (h : Γ.Agrees place)
    (isView : place.views[d]? = some v) (bound : (v name).isSome) :
    ∃ names, Γ.scopes[d]? = some names ∧ name ∈ names := by
  obtain ⟨inside, rfl⟩ := List.getElem?_eq_some_iff.1 isView
  have inside' : d < Γ.scopes.length := h.scopes.length_eq ▸ inside
  exact ⟨_, List.getElem?_eq_getElem inside', (h.scopes.get inside' inside name).1 bound⟩

/-- Inside of a class there is a scope that binds `this`. -/
theorem Enclosed.bindsThis {context : ClassContext} {views : List View}
    (h : Enclosed context views) (inside : context ≠ .outside) :
    ∃ v ∈ views, (v "this").isSome := by
  cases context with
  | outside => exact absurd rfl inside
  | base =>
      obtain ⟨inner, this, outer, rfl, -, bindsThis⟩ := h
      exact ⟨this, by simp, by simp [bindsThis.1]⟩
  | derived =>
      obtain ⟨inner, this, super, outer, rfl, -, bindsThis, -⟩ := h
      exact ⟨this, by simp, by simp [bindsThis.1]⟩

/-- A node, and the node with its distances where it stands. -/
structure Occurrence.IsLocatedAs (o o' : Occurrence) : Prop where
  setting : o'.setting = o.setting
  uses : Option.Rel (fun found found' => found'.1 = found.1 ∧ found'.2.name = found.2.name ∧
      o.setting.Locates found.2.name.lexeme found'.2.distance)
    o.node.reference? o'.node.reference?
  this : ∀ reference, o'.node = .expr (.this reference) → ∃ d, reference.distance = some d
  super : ∀ reference method, o'.node = .expr (.super reference method) →
    ∃ d names, reference.distance = some (d + 1) ∧ o.setting.scopes[d]? = some names ∧
      "this" ∈ names

theorem Resolved.reference? {o o' : Occurrence} (h : Resolved o o') :
    Option.Rel o.setting.Annotates o.node.reference? o'.node.reference? := by
  obtain ⟨node, Γ⟩ := o
  obtain ⟨node', Γ'⟩ := o'
  obtain ⟨rfl, place, place', at', made⟩ := h
  exact (at'.staged made).reference

/-- The use of a name that a use with a distance was before. -/
theorem Resolved.source {o o' : Occurrence} {use : Use} {reference : Reference}
    (h : Resolved o o') (isUse : o'.node.reference? = some (use, reference)) :
    ∃ original, o.node.reference? = some (use, original) ∧ original.name = reference.name ∧
      reference.distance = o.setting.distance? reference.name.lexeme := by
  have rel := h.reference?
  rw [isUse] at rel
  generalize o.node.reference? = found at rel
  cases rel with
  | some annotated =>
      obtain ⟨rfl, rfl⟩ := Prod.mk.inj annotated
      exact ⟨_, rfl, rfl, rfl⟩

/-- Every use of `this` has a distance. -/
theorem Resolved.this {o o' : Occurrence} {reference : Reference} (h : Resolved o o')
    (isThis : o'.node = .expr (.this reference)) : ∃ d, reference.distance = some d := by
  obtain ⟨original, isUse, same, distance⟩ := h.source (by rw [isThis]; rfl)
  obtain ⟨node, Γ⟩ := o
  obtain ⟨node', Γ'⟩ := o'
  obtain rfl : node = .expr (.this original) := Node.of_reference? isUse
  obtain ⟨-, place, after, at', made⟩ := h
  have sane := at'.sane id
  have word := (sane.proper original.name (by simp [Node.words, Expr.words])).this sane.layered.1
  cases made with
  | expr walk =>
      obtain ⟨_, inside, -, -⟩ := Expr.resolve_gives.1 walk
      obtain ⟨v, isView, bound⟩ := sane.enclosed.bindsThis inside
      obtain ⟨d, isView⟩ := List.mem_iff_getElem?.1 isView
      obtain ⟨names, isScope, declares⟩ := at'.agrees.declares_of_view isView bound
      rw [← same, word] at distance
      rw [distance, ← Option.isSome_iff_exists, (Γ.locates "this").isSome_iff]
      exact ⟨names, List.mem_of_getElem? isScope, declares⟩

/-- Every use of `super` has a distance, and the next nearer scope declares `this`. -/
theorem Resolved.super {o o' : Occurrence} {reference : Reference} {method : Token}
    (h : Resolved o o') (isSuper : o'.node = .expr (.super reference method)) :
    ∃ d names, reference.distance = some (d + 1) ∧ o.setting.scopes[d]? = some names ∧
      "this" ∈ names := by
  obtain ⟨original, isUse, same, distance⟩ := h.source (by rw [isSuper]; rfl)
  obtain ⟨node, Γ⟩ := o
  obtain ⟨node', Γ'⟩ := o'
  obtain ⟨_, rfl⟩ : ∃ method, node = .expr (.super original method) := Node.of_reference? isUse
  obtain ⟨-, place, after, at', made⟩ := h
  have sane := at'.sane id
  have word := (sane.proper original.name (by simp [Node.words, Expr.words])).super
    sane.layered.1.1
  cases made with
  | expr walk =>
      obtain ⟨_, derived, -, -⟩ := Expr.resolve_gives.1 walk
      have enclosed := sane.enclosed
      rw [derived] at enclosed
      have located : reference.IsLocated place.views := by
        rw [Reference.IsLocated, distance, ← at'.agrees.distance?, distance?_eq]
      obtain ⟨d, this, _, far, isView, bindsThis, -⟩ :=
        (Reference.isSuperOf located (same ▸ word) enclosed).inside
      have bound : (this "this").isSome := by simp [bindsThis.1]
      obtain ⟨names, isScope, declares⟩ := at'.agrees.declares_of_view isView bound
      exact ⟨d, names, far, isScope, declares⟩

theorem Resolved.isLocatedAs {o o' : Occurrence} (h : Resolved o o') : o.IsLocatedAs o' := by
  refine ⟨h.setting, ?_, fun _ => h.this, fun _ _ => h.super⟩
  have uses := h.reference?
  generalize o.node.reference? = found, o'.node.reference? = found' at uses
  cases uses with
  | none => exact .none
  | some annotated =>
      cases annotated
      exact .some ⟨rfl, rfl, o.setting.locates _⟩

/-- In an accepted program every use of a name has the distance that the text tells, every
`this` and `super` has one, and the uses with a distance are those that were found. -/
theorem distances_are_declarative {source : String} {program program' : List Stmt}
    {after : Surroundings} (parsed : (parseSource source).result = .ok program)
    (accepted : (Stmt.resolveEach program).walk .initial = (.ok program', after)) :
    (∀ path, Option.Rel Occurrence.IsLocatedAs
      ((Occurrence.ofProgram program).at? path) ((Occurrence.ofProgram program').at? path)) ∧
      after.found.toList = (Node.stmts program').located := by
  have made : Resolves ⟨.stmts program, .initial⟩ (.stmts program') after :=
    .stmts (walk_eq_ok.1 accepted)
  have start := Occurrence.At.top (Root.program parsed : Root (.run 1) _ _).sane
  constructor
  · intro path
    have rel := (start.resolved made).at? path
    change Option.Rel Resolved ((Occurrence.ofProgram program).at? path)
      ((Occurrence.ofProgram program').at? path) at rel
    generalize (Occurrence.ofProgram program).at? path = o,
      (Occurrence.ofProgram program').at? path = o' at rel
    cases rel with
    | none => exact .none
    | some resolved => exact .some resolved.isLocatedAs
  · have marks := start.marks made
    simpa [initial] using marks.found

/-- A source that reads a variable from a nested block. -/
def nestedBlocks : String := "\x7b var a; \x7b a; \x7d \x7d"

namespace NestedBlocks

open TokenKind (word)

/-- The name of the variable. -/
def a : Token := word .identifier "a"

/-- The program of the source, with a distance for the variable. -/
def program (distance : Option Nat) : List Stmt :=
  [.block [.varDecl a none, .block [.expression (.variable ⟨a, distance⟩)]]]

theorem parsed : (parseSource nestedBlocks).result = .ok (program none) := by
  let tokens : List Token :=
    [word .leftBrace "\x7b", word .varWord "var", a, word .semicolon ";", word .leftBrace "\x7b", a,
      word .semicolon ";", word .rightBrace "\x7d", word .rightBrace "\x7d", .endOfText 1]
  have scanned : (scanSource nestedBlocks).result = .ok tokens := by decide +kernel
  have read : (Grammar.program tokens).1 = .ok (program none) := rfl
  simp only [parseSource, Noted.andThen, scanned, read, Noted.done]

/-- The nested block is one scope away from the declaration. -/
theorem distances_are_declarative_a : ∃ after,
    (parseSource nestedBlocks).result = .ok (program none) ∧
      (Stmt.resolveEach (program none)).walk .initial = (.ok (program (some 1)), after) ∧
      Occurrence.IsLocatedAs ⟨.expr (.variable ⟨a, none⟩), ⟨[[], ["a"]], .outside, .outside, none⟩⟩
        ⟨.expr (.variable ⟨a, some 1⟩), ⟨[[], ["a"]], .outside, .outside, none⟩⟩ ∧
      after.found.toList = [⟨.variable, a, 1⟩] := by
  have accepted : (Stmt.resolveEach (program none)).walk .initial = (.ok (program (some 1)),
    ⟨[], .outside, .outside, #[⟨.variable, a, 1⟩]⟩) := rfl
  obtain ⟨located, found⟩ := distances_are_declarative parsed accepted
  cases located [0, 0, 1, 0, 0, 0, 0] with
  | some located => exact ⟨_, parsed, accepted, located, rfl⟩

end NestedBlocks

end TreeWalk
