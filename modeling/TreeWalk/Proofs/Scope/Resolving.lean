import TreeWalk.Proofs.Gives
import TreeWalk.Scope.Resolution

/-!
# What the walk of the scope rules consists of

For every kind of node an equivalence: the walk over it gives a tree exactly if the
walks over its parts do, one after the other. Later proofs use these and never open the
walk.

## Implementation notes

A walk that stops for a violation gives nothing and is not described here.
-/

namespace TreeWalk

variable {α : Type} {place place' : Surroundings}

namespace Resolve

@[simp] theorem fail_gives {cause : ScopeCause} {token : Token} {a : α} :
    (fail cause token : Resolve α).Gives place a place' ↔ False :=
  throw_gives

theorem walk_eq_ok {act : Resolve α} {a : α} :
    act.walk place = (.ok a, place') ↔ act.Gives place a place' := by
  unfold walk EStateM.Gives EStateM.run
  split
  next b after h => simp [h]
  next e after h => simp [h]

/-- What was changed for a walk is put back behind it. -/
theorem restored_gives {inner : Surroundings} {leave : Surroundings → Surroundings}
    {act around : Resolve α} {a : α}
    (same : around place = match act inner with
      | .ok a after => .ok a (leave after)
      | .error e after => .error e (leave after)) :
    around.Gives place a place' ↔ ∃ after, act.Gives inner a after ∧ place' = leave after := by
  unfold EStateM.Gives EStateM.run
  rw [same]
  cases act inner with
  | ok b after =>
      simp only [EStateM.Result.ok.injEq]
      constructor
      · rintro ⟨rfl, rfl⟩
        exact ⟨after, ⟨rfl, rfl⟩, rfl⟩
      · rintro ⟨_, ⟨rfl, rfl⟩, rfl⟩
        exact ⟨rfl, rfl⟩
  | error e after => simp

theorem inScope_gives {scope : Scope} {act : Resolve α} {a : α} :
    (inScope scope act).Gives place a place' ↔
      ∃ after, act.Gives { place with scopes := scope :: place.scopes } a after ∧
        place' = { after with scopes := after.scopes.tail } :=
  restored_gives rfl

theorem inFunction_gives {context : FunctionContext} {act : Resolve α} {a : α} :
    (inFunction context act).Gives place a place' ↔
      ∃ after, act.Gives { place with functionContext := context } a after ∧
        place' = { after with functionContext := place.functionContext } :=
  restored_gives rfl

theorem inClass_gives {context : ClassContext} {act : Resolve α} {a : α} :
    (inClass context act).Gives place a place' ↔
      ∃ after, act.Gives { place with classContext := context } a after ∧
        place' = { after with classContext := place.classContext } :=
  restored_gives rfl

theorem declare_gives {name : Token} {u : Unit} :
    (declare name).Gives place u place' ↔
      match place.scopes with
      | [] => place' = place
      | scope :: outer => scope.contains name.lexeme = false ∧
          place' =
            { place with
              scopes := scope.put name.lexeme (.declared name false false) :: outer } := by
  rw [declare, get_bind_gives]
  cases place.scopes with
  | nil => simp
  | cons scope outer =>
      dsimp only
      split <;> simp_all

theorem locate_gives {use : Use} {reference reference' : Reference} :
    (locate use reference).Gives place reference' place' ↔
      match place.distance? reference.name.lexeme with
      | none => reference' = ⟨reference.name, none⟩ ∧ place' = place
      | some distance => reference' = ⟨reference.name, some distance⟩ ∧
          place' =
            let noted := { place with found := place.found.push ⟨use, reference.name, distance⟩ }
            if use = .assign then noted
            else noted.modifyAt distance reference.name.lexeme Binding.read := by
  rw [locate, get_bind_gives]
  cases place.distance? reference.name.lexeme with
  | none => simp
  | some distance => simp [map_gives, and_comm]

theorem declareReady_gives {name : Token} {u : Unit} :
    (declareReady name).Gives place u place' ↔
      ∃ mid, (declare name).Gives place () mid ∧ (settle name).Gives mid u place' := by
  simp only [declareReady, bind_gives, exists_unit]

/-- The checks change nothing. -/
theorem checkReady_gives {name : Token} {u : Unit}
    (h : (checkReady name).Gives place u place') :
    place' = place ∧ ∀ scope ∈ place.scopes.head?, ∀ binding ∈ scope.get? name.lexeme,
      binding.isReady := by
  rw [checkReady, get_bind_gives] at h
  split at h
  next none => simp_all
  next scope outer cut =>
    split at h
    next binding bound =>
      split at h
      · simp_all
      · simp at h
    next unbound => simp_all

theorem checkThis_gives {keyword : Token} {u : Unit} :
    (checkThis keyword).Gives place u place' ↔ place' = place ∧ place.classContext ≠ .outside := by
  rw [checkThis, get_bind_gives]
  split <;> simp_all

theorem checkSuper_gives {keyword : Token} {u : Unit} :
    (checkSuper keyword).Gives place u place' ↔ place' = place ∧ place.classContext = .derived := by
  rw [checkSuper, get_bind_gives]
  split <;> simp_all

theorem checkReturn_gives {keyword : Token} {hasValue : Bool} {u : Unit}
    (h : (checkReturn keyword hasValue).Gives place u place') : place' = place := by
  rw [checkReturn, get_bind_gives] at h
  dsimp only at h
  split at h
  · simp at h
  · split at h <;> simp_all

theorem checkBlock_gives {u : Unit} (h : checkBlock.Gives place u place') : place' = place := by
  rw [checkBlock, get_bind_gives] at h
  split at h
  · simp_all
  · split at h
    · simp_all
    · split at h <;> simp_all

theorem checkBody_gives {u : Unit} (h : checkBody.Gives place u place') : place' = place := by
  rw [checkBody, get_bind_gives] at h
  split at h
  · split at h <;> simp_all
  · simp_all

/-- The state in which the body of a function is walked. -/
def bodyPlace (context : FunctionContext) (place : Surroundings) : Surroundings :=
  { place with functionContext := context, scopes := .empty :: place.scopes }

theorem routine_gives {context : FunctionContext} {params : List Token} {body : Resolve α} {a : α} :
    (routine context params body).Gives place a place' ↔
      ∃ mid after, (params.forM declareReady).Gives (bodyPlace context place) () mid ∧
        body.Gives { mid with scopes := .empty :: mid.scopes } a after ∧
        checkBody.Gives after () after ∧
        place' = { after with
          scopes := after.scopes.tail.tail, functionContext := place.functionContext } := by
  simp only [routine, inFunction_gives, inScope_gives, bind_gives, pure_gives]
  constructor
  · rintro ⟨_, ⟨_, ⟨_, mid, params, _, ⟨_, after, walk, _, _, check, rfl, rfl⟩, rfl⟩, rfl⟩, rfl⟩
    have same := checkBody_gives check
    rw [same] at check ⊢
    exact ⟨mid, after, params, walk, check, rfl⟩
  · rintro ⟨mid, after, params, walk, check, rfl⟩
    exact ⟨_, ⟨_, ⟨(), mid, params, _, ⟨a, after, walk, (), after, check, rfl, rfl⟩, rfl⟩,
      rfl⟩, rfl⟩

/-- The scopes around the methods of a class, inside those around the class. -/
def classScopes (hasSuperclass : Bool) (outer : List Scope) : List Scope :=
  if hasSuperclass then Scope.ofImplicit "this" :: Scope.ofImplicit "super" :: outer
  else Scope.ofImplicit "this" :: outer

theorem inClassScopes_gives {hasSuperclass : Bool} {act : Resolve α} {a : α} :
    (inClassScopes hasSuperclass act).Gives place a place' ↔
      ∃ after, act.Gives { place with scopes := classScopes hasSuperclass place.scopes } a after ∧
        place' = { after with
          scopes := if hasSuperclass then after.scopes.tail.tail else after.scopes.tail } := by
  cases hasSuperclass with
  | false => simp [inClassScopes, inScope_gives, classScopes]
  | true =>
      simp only [inClassScopes, if_true, inScope_gives, classScopes]
      constructor
      · rintro ⟨_, ⟨after, walk, rfl⟩, rfl⟩
        exact ⟨after, walk, rfl⟩
      · rintro ⟨after, walk, rfl⟩
        exact ⟨_, ⟨after, walk, rfl⟩, rfl⟩

theorem superclass_gives {name : Token} {parent parent' : Option Reference} :
    (superclass name parent).Gives place parent' place' ↔
      match parent with
      | none => parent' = none ∧ place' = place
      | some reference => name.lexeme ≠ reference.name.lexeme ∧
          ∃ reference', (readVariable reference).Gives place reference' place' ∧
            parent' = some reference' := by
  cases parent with
  | none => simp [superclass]
  | some reference =>
      simp only [superclass]
      split <;> simp_all [map_gives]

end Resolve

open Resolve

theorem Expr.resolve_gives {e e' : Expr} :
    e.resolve.Gives place e' place' ↔
      match e with
      | .literal value => e' = .literal value ∧ place' = place
      | .variable reference =>
        ∃ reference', (readVariable reference).Gives place reference' place' ∧
          e' = .variable reference'
      | .assign reference value =>
        ∃ value' mid reference', value.resolve.Gives place value' mid ∧
          (locate .assign reference).Gives mid reference' place' ∧ e' = .assign reference' value'
      | .this reference =>
        ∃ reference', place.classContext ≠ .outside ∧
          (locate .this reference).Gives place reference' place' ∧ e' = .this reference'
      | .super reference method =>
        ∃ reference', place.classContext = .derived ∧
          (locate .super reference).Gives place reference' place' ∧ e' = .super reference' method
      | .grouping inner => ∃ inner', inner.resolve.Gives place inner' place' ∧ e' = .grouping inner'
      | .unary operator operand =>
        ∃ operand', operand.resolve.Gives place operand' place' ∧ e' = .unary operator operand'
      | .binary left operator right =>
        ∃ left' mid right', left.resolve.Gives place left' mid ∧
          right.resolve.Gives mid right' place' ∧ e' = .binary left' operator right'
      | .logical left operator right =>
        ∃ left' mid right', left.resolve.Gives place left' mid ∧
          right.resolve.Gives mid right' place' ∧ e' = .logical left' operator right'
      | .conditional condition consequent alternative =>
        ∃ condition' mid consequent' mid' alternative',
          condition.resolve.Gives place condition' mid ∧
          consequent.resolve.Gives mid consequent' mid' ∧
          alternative.resolve.Gives mid' alternative' place' ∧
          e' = .conditional condition' consequent' alternative'
      | .comma items =>
        ∃ items', (Expr.resolveEach items).Gives place items' place' ∧ e' = .comma items'
      | .call callee paren arguments =>
        ∃ callee' mid arguments', callee.resolve.Gives place callee' mid ∧
          (Expr.resolveEach arguments).Gives mid arguments' place' ∧
          e' = .call callee' paren arguments'
      | .get object name =>
        ∃ object', object.resolve.Gives place object' place' ∧ e' = .get object' name
      | .set object name value =>
        ∃ value' mid object', value.resolve.Gives place value' mid ∧
          object.resolve.Gives mid object' place' ∧ e' = .set object' name value'
      | .lambda keyword params body =>
        ∃ body', (routine .function params (Stmt.resolveEach body)).Gives place body' place' ∧
          e' = .lambda keyword params body' := by
  cases e <;>
    simp only [Expr.resolve, bind_gives, pure_gives, exists_unit, checkThis_gives,
      checkSuper_gives]
  all_goals constructor <;> grind

theorem Expr.resolveEach_gives {items items' : List Expr} :
    (Expr.resolveEach items).Gives place items' place' ↔
      match items with
      | [] => items' = [] ∧ place' = place
      | e :: rest => ∃ e' mid rest', e.resolve.Gives place e' mid ∧
          (Expr.resolveEach rest).Gives mid rest' place' ∧ items' = e' :: rest' := by
  cases items <;> simp only [Expr.resolveEach, bind_gives, pure_gives]
  constructor <;> grind

/-- The state in which the statements of a block are walked. -/
def blockPlace (place : Surroundings) : Surroundings :=
  { place with scopes := .empty :: place.scopes }

theorem Stmt.resolve_gives {s s' : Stmt} :
    s.resolve.Gives place s' place' ↔
      match s with
      | .expression value =>
        ∃ value', value.resolve.Gives place value' place' ∧ s' = .expression value'
      | .print value => ∃ value', value.resolve.Gives place value' place' ∧ s' = .print value'
      | .varDecl name none => (declareReady name).Gives place () place' ∧ s' = .varDecl name none
      | .varDecl name (some initial) =>
        ∃ mid initial' mid', (declare name).Gives place () mid ∧
          initial.resolve.Gives mid initial' mid' ∧ (settle name).Gives mid' () place' ∧
          s' = .varDecl name (some initial')
      | .block body =>
        ∃ body' after, (Stmt.resolveEach body).Gives (blockPlace place) body' after ∧
          checkBlock.Gives after () after ∧
          place' = { after with scopes := after.scopes.tail } ∧ s' = .block body'
      | .branch condition consequent none =>
        ∃ condition' mid consequent', condition.resolve.Gives place condition' mid ∧
          consequent.resolve.Gives mid consequent' place' ∧ s' = .branch condition' consequent' none
      | .branch condition consequent (some alternative) =>
        ∃ condition' mid consequent' mid' alternative',
          condition.resolve.Gives place condition' mid ∧
          consequent.resolve.Gives mid consequent' mid' ∧
          alternative.resolve.Gives mid' alternative' place' ∧
          s' = .branch condition' consequent' (some alternative')
      | .loop condition body =>
        ∃ condition' mid body', condition.resolve.Gives place condition' mid ∧
          body.resolve.Gives mid body' place' ∧ s' = .loop condition' body'
      | .functionDecl (.mk name params body) =>
        ∃ mid body', (declareReady name).Gives place () mid ∧
          (routine .function params (Stmt.resolveEach body)).Gives mid body' place' ∧
          s' = .functionDecl (.mk name params body')
      | .classDecl name parent methods =>
        ∃ mid parent' mid' methods' after,
          (declareReady name).Gives
            { place with classContext := if parent.isSome then .derived else .base } () mid ∧
          (superclass name parent).Gives mid parent' mid' ∧
          (inClassScopes parent'.isSome (FunctionDecl.resolveEach methods)).Gives mid' methods'
            after ∧
          place' = { after with classContext := place.classContext } ∧
          s' = .classDecl name parent' methods'
      | .returns keyword none =>
        (checkReturn keyword false).Gives place () place' ∧ s' = .returns keyword none
      | .returns keyword (some value) =>
        ∃ mid value', (checkReturn keyword true).Gives place () mid ∧
          value.resolve.Gives mid value' place' ∧ s' = .returns keyword (some value') := by
  rcases s with _ | _ | ⟨_, _ | _⟩ | _ | ⟨_, _, _ | _⟩ | _ | ⟨⟨_, _, _⟩⟩ | _ | ⟨_, _ | _⟩ <;>
    simp only [Stmt.resolve, bind_gives, pure_gives, exists_unit, inScope_gives, inClass_gives]
  all_goals constructor <;> grind [blockPlace, checkBlock_gives]

theorem Stmt.resolveEach_gives {body body' : List Stmt} :
    (Stmt.resolveEach body).Gives place body' place' ↔
      match body with
      | [] => body' = [] ∧ place' = place
      | s :: rest => ∃ s' mid rest', s.resolve.Gives place s' mid ∧
          (Stmt.resolveEach rest).Gives mid rest' place' ∧ body' = s' :: rest' := by
  cases body <;> simp only [Stmt.resolveEach, bind_gives, pure_gives]
  constructor <;> grind

theorem FunctionDecl.resolveEach_gives {members members' : List FunctionDecl} :
    (FunctionDecl.resolveEach members).Gives place members' place' ↔
      match members with
      | [] => members' = [] ∧ place' = place
      | .mk name params body :: rest => ∃ body' mid rest',
          (routine (methodContext name) params (Stmt.resolveEach body)).Gives place body' mid ∧
          (FunctionDecl.resolveEach rest).Gives mid rest' place' ∧
          members' = .mk name params body' :: rest' := by
  rcases members with _ | ⟨⟨name, params, body⟩, rest⟩ <;>
    simp only [FunctionDecl.resolveEach, bind_gives, pure_gives]
  constructor <;> grind

end TreeWalk
