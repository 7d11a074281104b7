import TreeWalk.Proofs.Loops.Layers
import TreeWalk.Proofs.Run.TopLevel

/-!
# The scope rules without the scopes of passes

A walk in which counting loops bring no scopes with them finds the same violation, or it gives
the tree that the walk with these scopes gives, with its distances thinned.

## Implementation notes

Of a statement it is also said what becomes of the statements in it if it is a block: the block
of a pass is left out, and they are walked where it stands.
-/

namespace TreeWalk

open Resolve

variable {α β γ : Type} {layers : Layers}

namespace Resolve

variable {Q : α → β → Prop} {x : Resolve α} {y : Resolve β}

/-- A new scope without names. -/
theorem Recounts.inEmpty {unready : Option String}
    (act : Recounts (.kept none :: layers) (.kept unready :: layers) Q x y) :
    Recounts layers layers Q (Resolve.inScope .empty x) (Resolve.inScope .empty y) :=
  .inScope nofun act

theorem checkBlock_empty {place : Surroundings} {outer : List Scope}
    (cut : place.scopes = .empty :: outer) : checkBlock.Gives place () place := by
  have whole : (Scope.fault? .empty .empty) = none := rfl
  rw [checkBlock, get_bind_gives, cut]
  dsimp only
  rw [whole]
  split <;> simp

/-- The scope of a pass is left out, and to be checked it has no names. -/
theorem Recounts.inPass (f : α → γ) (act : Recounts (.pass :: layers) (.pass :: layers) Q x y) :
    Recounts layers layers (fun c b => ∃ a, c = f a ∧ Q a b)
      (Resolve.inScope .empty do
        let a ← x
        checkBlock
        return f a) y := by
  intro p q thinned
  have inner : Surroundings.Thinned (.pass :: layers) { p with scopes := .empty :: p.scopes } q :=
    { thinned with scopes := .pass thinned.scopes }
  have both := act inner
  unfold Resolve.inScope
  simp only [Bind.bind, EStateM.bind]
  generalize x { p with scopes := .empty :: p.scopes } = one, y q = other at both
  cases both with
  | @ok a b p' q' same after =>
      obtain ⟨outer, cut, rest⟩ := after.scopes.of_pass
      have checked : checkBlock p' = .ok () p' := checkBlock_empty cut
      simp only [checked]
      refine .ok ⟨a, rfl, same⟩ { after with scopes := ?_ }
      rwa [cut]
  | error => exact .error

theorem routine_recounts (context : FunctionContext) (params : List Token)
    (body : Recounts (.kept none :: .kept none :: layers) (.kept none :: .kept none :: layers)
      Q x y) :
    Recounts layers layers Q (routine context params x) (routine context params y) := by
  have calm : Layers.Calm (.kept none :: layers) := rfl
  have declared : Recounts (.kept none :: layers) (.kept none :: layers) Eq
      (params.forM declareReady) (params.forM declareReady) := by
    induction params with
    | nil => exact .pure rfl
    | cons param params ih =>
        exact (declareReady_recounts calm trivial param).bind fun _ _ _ => ih
  apply Recounts.inFunction
  apply Recounts.inEmpty
  refine declared.bind fun _ _ _ => ?_
  apply Recounts.inEmpty
  exact body.bind fun a b same => checkBody_recounts.bind fun _ _ _ => .pure same

/-- The layers around the methods of a class. -/
def methodLayers (hasSuperclass : Bool) (layers : Layers) : Layers :=
  .kept none :: if hasSuperclass then .kept none :: layers else layers

theorem shape_methodLayers (hasSuperclass : Bool) :
    (methodLayers hasSuperclass layers).shape = layers.shape.inClass hasSuperclass := by
  cases hasSuperclass <;> rfl

theorem inClassScopes_recounts {hasSuperclass : Bool}
    (act : Recounts (methodLayers hasSuperclass layers) (methodLayers hasSuperclass layers) Q x y) :
    Recounts layers layers Q (inClassScopes hasSuperclass x) (inClassScopes hasSuperclass y) := by
  have ready (name x : String) (b : Binding) (bound : (Scope.ofImplicit name).get? x = some b) :
      b.isReady = true ∨ none = some x := by
    rw [Scope.ofImplicit, Bindings.get?_put] at bound
    split at bound
    · cases bound
      exact .inl rfl
    · cases bound
  cases hasSuperclass with
  | true => exact .inScope (ready "super") (.inScope (ready "this") act)
  | false => exact .inScope (ready "this") act

theorem superclass_recounts (fits : layers.Fits) (name : Token) (parent : Option Reference) :
    Recounts layers layers
      (fun found found' => found' = found.map (Reference.thin layers.shape) ∧
        found.isSome = parent.isSome)
      (superclass name parent) (superclass name parent) := by
  cases parent with
  | none => exact .pure ⟨rfl, rfl⟩
  | some reference =>
      rw [superclass]
      split
      · exact .fail _ _
      · refine (readVariable_recounts fits reference).bind fun r r' same => .pure ⟨?_, rfl⟩
        rw [same, Option.map_some]

end Resolve

theorem Stmt.resolve_expression {s s' : Stmt} {place place' : Surroundings}
    (walk : s.resolve.Gives place s' place') :
    (∃ e, s' = .expression e) ↔ ∃ e, s = .expression e := by
  have made := Stmt.resolve_gives.1 walk
  rcases s with _ | _ | ⟨_, _ | _⟩ | _ | ⟨_, _, _ | _⟩ | _ | ⟨⟨_, _, _⟩⟩ | _ | ⟨_, _ | _⟩
  all_goals grind

theorem Stmt.resolve_block {s s' : Stmt} {place place' : Surroundings}
    (walk : s.resolve.Gives place s' place') :
    (∃ items, s' = .block items) ↔ ∃ items, s = .block items := by
  have made := Stmt.resolve_gives.1 walk
  rcases s with _ | _ | ⟨_, _ | _⟩ | _ | ⟨_, _, _ | _⟩ | _ | ⟨⟨_, _, _⟩⟩ | _ | ⟨_, _ | _⟩
  all_goals grind

theorem Stmt.isSome_pass?_pair {s t : Stmt} :
    (Stmt.pass? [s, t]).isSome ↔ s.IsPlain ∧ ∃ e, t = .expression e := by
  rw [Option.isSome_iff_exists]
  simp [Stmt.pass?_eq_some, and_comm]

/-- The scope rules make no statements passes and take none away from them. -/
theorem Stmt.pass?_resolveEach {items items' : List Stmt} {place place' : Surroundings}
    (walk : (Stmt.resolveEach items).Gives place items' place') :
    (Stmt.pass? items').isSome = (Stmt.pass? items).isSome := by
  match items with
  | [] =>
      obtain ⟨rfl, -⟩ := Stmt.resolveEach_gives.1 walk
      rfl
  | [s] =>
      obtain ⟨s', _, _, -, others, rfl⟩ := Stmt.resolveEach_gives.1 walk
      obtain ⟨rfl, -⟩ := Stmt.resolveEach_gives.1 others
      rfl
  | [s, t] =>
      obtain ⟨s', _, _, first, others, rfl⟩ := Stmt.resolveEach_gives.1 walk
      obtain ⟨t', _, _, second, none, rfl⟩ := Stmt.resolveEach_gives.1 others
      obtain ⟨rfl, -⟩ := Stmt.resolveEach_gives.1 none
      rw [Bool.eq_iff_iff, Stmt.isSome_pass?_pair, Stmt.isSome_pass?_pair,
        Stmt.isPlain_resolve first, Stmt.resolve_expression second]
  | _ :: _ :: _ :: _ =>
      obtain ⟨_, _, _, -, others, rfl⟩ := Stmt.resolveEach_gives.1 walk
      obtain ⟨_, _, _, -, others', rfl⟩ := Stmt.resolveEach_gives.1 others
      obtain ⟨_, _, _, -, -, rfl⟩ := Stmt.resolveEach_gives.1 others'
      simp [Stmt.pass?]

/-- A walk over a statement agrees with the one without the scopes of passes, and so does that over
the statements of a block where the block stands. In a pass there is nothing that declares. -/
structure Stmt.Recounted (s : Stmt) : Prop where
  itself {layers : Layers} : layers.Calm → (layers.Open ∨ s.IsPlain) →
    Recounts layers layers (fun t t' => t' = t.thin layers.shape) s.resolve (Counting.resolveStmt s)
  inside (layers : Layers) {items : List Stmt} : s = .block items → layers.Calm →
    (layers.Open ∨ ∀ t ∈ items, t.IsPlain) →
    Recounts layers layers (fun row row' => row' = Stmt.thinEach layers.shape row)
      (Stmt.resolveEach items) (Counting.resolveStmts items)

/-- A loop agrees whether what it runs is a pass, another block or no block. -/
theorem Stmt.Recounted.loop {condition : Expr} {body : Stmt}
    (first : ∀ {layers : Layers}, layers.Calm → Recounts layers layers
      (fun t t' => t' = t.thin layers.shape) condition.resolve (Counting.resolveExpr condition))
    (inner : body.Recounted) : (Stmt.loop condition body).Recounted := by
  refine ⟨fun {layers} calm plain => ?_, nofun⟩
  rw [Stmt.resolve]
  by_cases block : ∃ items, body = .block items
  · obtain ⟨items, rfl⟩ := block
    rw [Counting.resolveStmt]
    refine (first calm).andThen fun c => ?_
    by_cases passed : (Stmt.pass? items).isSome = true
    · rw [if_pos passed, Stmt.resolve]
      obtain ⟨⟨body, step⟩, pass⟩ := Option.isSome_iff_exists.1 passed
      obtain ⟨rfl, isPlain⟩ := Stmt.pass?_eq_some.1 pass
      have each : ∀ t ∈ [body, .expression step], t.IsPlain := by
        rintro t (_ | ⟨_, _ | ⟨_, ⟨⟩⟩⟩)
        · exact isPlain
        · trivial
      have run := inner.inside (.pass :: layers) rfl calm (.inr each)
      refine (Recounts.inPass Stmt.block run.gives).bind ?_
      rintro _ _ ⟨made, rfl, rfl, _, _, walk⟩
      refine .pure ?_
      rw [Stmt.thin_loop, Stmt.thinPass, Stmt.pass?_resolveEach walk, passed]
      rfl
    · rw [if_neg passed, ← Counting.resolveStmt]
      refine (inner.itself calm (.inr trivial)).gives.bind ?_
      rintro _ _ ⟨rfl, _, _, walk⟩
      obtain ⟨made, _, each, -, -, rfl⟩ := Stmt.resolve_gives.1 walk
      refine .pure ?_
      rw [Stmt.thin_loop, Stmt.thinPass, Stmt.pass?_resolveEach each,
        Bool.eq_false_iff.2 passed]
      rfl
  · have other : Counting.resolveStmt (.loop condition body) = (do
        let condition ← Counting.resolveExpr condition
        return .loop condition (← Counting.resolveStmt body)) := by
      cases body with
      | block items => exact absurd ⟨items, rfl⟩ block
      | _ => rfl
    rw [other]
    refine (first calm).andThen fun c => ?_
    refine (inner.itself calm plain).gives.bind ?_
    rintro made _ ⟨rfl, _, _, walk⟩
    refine .pure ?_
    have still : ∀ items, made ≠ .block items := fun items same =>
      block ((Stmt.resolve_block walk).1 ⟨items, same⟩)
    rw [Stmt.thin_loop, Stmt.thinPass_other still]

mutual

theorem Expr.resolve_recounts : ∀ (e : Expr) {layers : Layers}, layers.Fits →
    Recounts layers layers (fun t t' => t' = t.thin layers.shape) e.resolve (Counting.resolveExpr e)
  | .literal _, _, _ => by
    rw [Expr.resolve, Counting.resolveExpr]
    exact .pure rfl
  | .variable reference, _, fits => by
    rw [Expr.resolve, Counting.resolveExpr]
    refine (readVariable_recounts fits reference).andThen fun _ => ?_
    exact .pure rfl
  | .assign reference value, _, fits => by
    rw [Expr.resolve, Counting.resolveExpr]
    refine (value.resolve_recounts fits).andThen fun _ => ?_
    refine (locate_recounts .assign reference).andThen fun _ => ?_
    exact .pure rfl
  | .this reference, _, _ => by
    rw [Expr.resolve, Counting.resolveExpr]
    refine (checkThis_recounts reference.name).bind fun _ _ _ => ?_
    refine (locate_recounts .this reference).andThen fun _ => ?_
    exact .pure rfl
  | .super reference _, _, _ => by
    rw [Expr.resolve, Counting.resolveExpr]
    refine (checkSuper_recounts reference.name).bind fun _ _ _ => ?_
    refine (locate_recounts .super reference).andThen fun _ => ?_
    exact .pure rfl
  | .grouping inner, _, fits | .unary _ inner, _, fits | .get inner _, _, fits => by
    rw [Expr.resolve, Counting.resolveExpr]
    refine (inner.resolve_recounts fits).andThen fun _ => ?_
    exact .pure rfl
  | .binary left _ right, _, fits | .logical left _ right, _, fits
  | .set right _ left, _, fits => by
    rw [Expr.resolve, Counting.resolveExpr]
    refine (left.resolve_recounts fits).andThen fun _ => ?_
    refine (right.resolve_recounts fits).andThen fun _ => ?_
    exact .pure rfl
  | .conditional condition consequent alternative, _, fits => by
    rw [Expr.resolve, Counting.resolveExpr]
    refine (condition.resolve_recounts fits).andThen fun _ => ?_
    refine (consequent.resolve_recounts fits).andThen fun _ => ?_
    refine (alternative.resolve_recounts fits).andThen fun _ => ?_
    exact .pure rfl
  | .comma items, _, fits => by
    rw [Expr.resolve, Counting.resolveExpr]
    refine (Expr.resolveEach_recounts items fits).andThen fun _ => ?_
    exact .pure rfl
  | .call callee _ arguments, _, fits => by
    rw [Expr.resolve, Counting.resolveExpr]
    refine (callee.resolve_recounts fits).andThen fun _ => ?_
    refine (Expr.resolveEach_recounts arguments fits).andThen fun _ => ?_
    exact .pure rfl
  | .lambda _ params body, layers, _ => by
    rw [Expr.resolve, Counting.resolveExpr]
    have inner := Stmt.resolveEach_recounts body (.kept none :: .kept none :: layers) rfl
      (.inl trivial)
    refine (routine_recounts .function params inner).andThen fun _ => ?_
    exact .pure rfl
termination_by structural e => e

theorem Expr.resolveEach_recounts : ∀ (items : List Expr) {layers : Layers}, layers.Fits →
    Recounts layers layers (fun row row' => row' = Expr.thinEach layers.shape row)
      (Expr.resolveEach items) (Counting.resolveExprs items)
  | [], _, _ => by
    rw [Expr.resolveEach, Counting.resolveExprs]
    exact .pure rfl
  | e :: rest, _, fits => by
    rw [Expr.resolveEach, Counting.resolveExprs]
    refine (e.resolve_recounts fits).andThen fun _ => ?_
    refine (Expr.resolveEach_recounts rest fits).andThen fun _ => ?_
    exact .pure rfl
termination_by structural items => items

theorem Stmt.resolve_recounts : ∀ s : Stmt, s.Recounted
  | .expression value | .print value => by
    refine ⟨fun calm _ => ?_, nofun⟩
    rw [Stmt.resolve, Counting.resolveStmt]
    refine (value.resolve_recounts calm.fits).andThen fun _ => ?_
    exact .pure rfl
  | .varDecl name none => by
    refine ⟨fun calm plain => ?_, nofun⟩
    rw [Stmt.resolve, Counting.resolveStmt]
    refine (declareReady_recounts calm (plain.resolve_right id) name).bind fun _ _ _ => ?_
    exact .pure rfl
  | .varDecl name (some initial) => by
    refine ⟨fun {layers} calm plain => ?_, nofun⟩
    rw [Stmt.resolve, Counting.resolveStmt]
    apply initial_recounts calm (plain.resolve_right id) name
      (Q := fun t t' => t' = t.thin layers.shape)
    · intro inner same fits
      rw [← same]
      exact initial.resolve_recounts fits
    · rintro _ _ rfl
      rfl
  | .block body => by
    have inner := Stmt.resolveEach_recounts body
    refine ⟨fun {layers} _ _ => ?_, ?_⟩
    · rw [Stmt.resolve, Counting.resolveStmt]
      apply Recounts.inEmpty
      refine (inner (.kept none :: layers) rfl (.inl trivial)).andThen fun _ => ?_
      exact checkBlock_recounts.bind fun _ _ _ => .pure rfl
    · rintro layers _ ⟨⟩ calm plain
      exact inner layers calm plain
  | .branch condition consequent none => by
    refine ⟨fun calm plain => ?_, nofun⟩
    rw [Stmt.resolve, Counting.resolveStmt]
    refine (condition.resolve_recounts calm.fits).andThen fun _ => ?_
    refine (consequent.resolve_recounts.itself calm plain).andThen fun _ => ?_
    exact .pure rfl
  | .branch condition consequent (some alternative) => by
    refine ⟨fun calm plain => ?_, nofun⟩
    rw [Stmt.resolve, Counting.resolveStmt]
    refine (condition.resolve_recounts calm.fits).andThen fun _ => ?_
    refine (consequent.resolve_recounts.itself calm (plain.imp id And.left)).andThen fun _ => ?_
    refine (alternative.resolve_recounts.itself calm (plain.imp id And.right)).andThen fun _ => ?_
    exact .pure rfl
  | .loop condition body => by
    have first {layers : Layers} (calm : layers.Calm) := condition.resolve_recounts calm.fits
    exact Stmt.Recounted.loop first body.resolve_recounts
  | .functionDecl (.mk name params body) => by
    refine ⟨fun {layers} calm plain => ?_, nofun⟩
    rw [Stmt.resolve, Counting.resolveStmt]
    have inner := Stmt.resolveEach_recounts body (.kept none :: .kept none :: layers) rfl
      (.inl trivial)
    refine (declareReady_recounts calm (plain.resolve_right id) name).bind fun _ _ _ => ?_
    refine (routine_recounts .function params inner).andThen fun _ => ?_
    exact .pure rfl
  | .classDecl name parent methods => by
    refine ⟨fun {layers} calm plain => ?_, nofun⟩
    rw [Stmt.resolve, Counting.resolveStmt]
    have inner := FunctionDecl.resolveEach_recounts methods (methodLayers parent.isSome layers) rfl
    apply Recounts.inClass
    refine (declareReady_recounts calm (plain.resolve_right id) name).bind fun _ _ _ => ?_
    refine (superclass_recounts calm.fits name parent).bind ?_
    rintro found _ ⟨rfl, same⟩
    rw [Option.isSome_map, same]
    refine (inClassScopes_recounts inner).andThen fun _ => ?_
    refine .pure ?_
    rw [Stmt.thin, same, shape_methodLayers]
  | .returns keyword none => by
    refine ⟨fun calm _ => ?_, nofun⟩
    rw [Stmt.resolve, Counting.resolveStmt]
    exact (checkReturn_recounts keyword false).bind fun _ _ _ => .pure rfl
  | .returns keyword (some value) => by
    refine ⟨fun calm _ => ?_, nofun⟩
    rw [Stmt.resolve, Counting.resolveStmt]
    refine (checkReturn_recounts keyword true).bind fun _ _ _ => ?_
    refine (value.resolve_recounts calm.fits).andThen fun _ => ?_
    exact .pure rfl
termination_by structural s => s

theorem Stmt.resolveEach_recounts : ∀ (items : List Stmt) (layers : Layers), layers.Calm →
    (layers.Open ∨ ∀ t ∈ items, t.IsPlain) →
    Recounts layers layers (fun row row' => row' = Stmt.thinEach layers.shape row)
      (Stmt.resolveEach items) (Counting.resolveStmts items)
  | [], _, _, _ => by
    rw [Stmt.resolveEach, Counting.resolveStmts]
    exact .pure rfl
  | s :: rest, _, calm, plain => by
    rw [Stmt.resolveEach, Counting.resolveStmts]
    have first := plain.imp id fun each => each s List.mem_cons_self
    have others := plain.imp id fun each t among => each t (List.mem_cons_of_mem s among)
    refine (s.resolve_recounts.itself calm first).andThen fun _ => ?_
    refine (Stmt.resolveEach_recounts rest _ calm others).andThen fun _ => ?_
    exact .pure rfl
termination_by structural items => items

theorem FunctionDecl.resolveEach_recounts : ∀ (methods : List FunctionDecl) (layers : Layers),
    layers.Calm →
    Recounts layers layers (fun row row' => row' = FunctionDecl.thinEach layers.shape row)
      (FunctionDecl.resolveEach methods) (Counting.resolveMethods methods)
  | [], _, _ => by
    rw [FunctionDecl.resolveEach, Counting.resolveMethods]
    exact .pure rfl
  | .mk name params body :: rest, layers, calm => by
    rw [FunctionDecl.resolveEach, Counting.resolveMethods]
    have inner := Stmt.resolveEach_recounts body (.kept none :: .kept none :: layers) rfl
      (.inl trivial)
    refine (routine_recounts (methodContext name) params inner).andThen fun _ => ?_
    refine (FunctionDecl.resolveEach_recounts rest _ calm).andThen fun _ => ?_
    exact .pure rfl
termination_by structural methods => methods

end

end TreeWalk
