import TreeWalk.Proofs.Scope.Resolving

/-!
# Where the walk of the scope rules stops

For every kind of node an equivalence: the walk over it stops for a violation exactly if
one of its own checks does or the walk over a part does, behind those over the parts
before it.
-/

namespace EStateM

variable {ε σ α : Type}

/-- A computation stops for a reason. -/
def Fails (act : EStateM ε σ α) (s : σ) (e : ε) : Prop := ∃ s', act.run s = .error e s'

end EStateM

namespace TreeWalk

section

variable {ε σ α β : Type} {s : σ} {e : ε}

theorem not_fails_of_gives {act : EStateM ε σ α} {a : α} {s' : σ} (h : act.Gives s a s') :
    ¬act.Fails s e := by
  rintro ⟨_, fails⟩
  cases h.symm.trans fails

theorem bind_fails {x : EStateM ε σ α} {f : α → EStateM ε σ β} :
    (x >>= f).Fails s e ↔ x.Fails s e ∨ ∃ a mid, x.Gives s a mid ∧ (f a).Fails mid e := by
  simp only [EStateM.Fails, EStateM.Gives, EStateM.run, bind, EStateM.bind]
  split
  next a mid h =>
    simp only [h, EStateM.Result.ok.injEq, reduceCtorEq, exists_false, false_or]
    grind
  next h => simp [h]

@[simp] theorem pure_fails {a : α} : (pure a : EStateM ε σ α).Fails s e ↔ False := by
  simp [EStateM.Fails, EStateM.run, pure, EStateM.pure]

@[simp] theorem throw_fails {e' : ε} : (throw e' : EStateM ε σ α).Fails s e ↔ e = e' := by
  show (∃ s', (EStateM.Result.error e' s : EStateM.Result ε σ α) = .error e s') ↔ e = e'
  simp [eq_comm]

theorem map_fails {x : EStateM ε σ α} {f : α → β} : (f <$> x).Fails s e ↔ x.Fails s e := by
  simp only [EStateM.Fails, EStateM.run, Functor.map, EStateM.map]
  split
  next a mid h => simp [h]
  next h => simp [h]

theorem get_bind_fails {f : σ → EStateM ε σ β} :
    ((get : EStateM ε σ σ) >>= f).Fails s e ↔ (f s).Fails s e := by
  have get_fails : (get : EStateM ε σ σ).Fails s e ↔ False := by
    show (∃ s', (EStateM.Result.ok s s : EStateM.Result ε σ σ) = .error e s') ↔ False
    simp
  simp [bind_fails, get_fails, and_assoc]

@[simp] theorem modify_fails {f : σ → σ} : (modify f : EStateM ε σ PUnit).Fails s e ↔ False := by
  show (∃ s', (EStateM.Result.ok PUnit.unit (f s) : EStateM.Result ε σ PUnit) = .error e s') ↔ False
  simp

end

variable {α : Type} {place : Surroundings} {e : ScopeError}

namespace Resolve

@[simp] theorem fail_fails {cause : ScopeCause} {token : Token} :
    (fail cause token : Resolve α).Fails place e ↔ e = ⟨cause, token⟩ :=
  throw_fails

theorem walk_eq_error {act : Resolve α} :
    (∃ after, act.walk place = (.error e, after)) ↔ act.Fails place e := by
  unfold walk EStateM.Fails EStateM.run
  split
  next b after h => simp [h]
  next e after h => simp [h]

theorem restored_fails {inner : Surroundings} {leave : Surroundings → Surroundings}
    {act around : Resolve α}
    (same : around place = match act inner with
      | .ok a after => .ok a (leave after)
      | .error e after => .error e (leave after)) :
    around.Fails place e ↔ act.Fails inner e := by
  unfold EStateM.Fails EStateM.run
  rw [same]
  cases act inner <;> simp

theorem inScope_fails {scope : Scope} {act : Resolve α} :
    (inScope scope act).Fails place e ↔
      act.Fails { place with scopes := scope :: place.scopes } e :=
  restored_fails rfl

theorem inFunction_fails {context : FunctionContext} {act : Resolve α} :
    (inFunction context act).Fails place e ↔
      act.Fails { place with functionContext := context } e :=
  restored_fails rfl

theorem inClass_fails {context : ClassContext} {act : Resolve α} :
    (inClass context act).Fails place e ↔ act.Fails { place with classContext := context } e :=
  restored_fails rfl

theorem inClassScopes_fails {hasSuperclass : Bool} {act : Resolve α} :
    (inClassScopes hasSuperclass act).Fails place e ↔
      act.Fails { place with scopes := classScopes hasSuperclass place.scopes } e := by
  cases hasSuperclass <;> simp [inClassScopes, inScope_fails, classScopes]

theorem declare_fails {name : Token} : (declare name).Fails place e ↔
    e = ⟨.redeclared, name⟩ ∧ ∃ scope ∈ place.scopes.head?, scope.contains name.lexeme := by
  rw [declare, get_bind_fails]
  cases place.scopes with
  | nil => simp
  | cons scope outer =>
      dsimp only
      split <;> simp_all

theorem settle_fails {name : Token} : (settle name).Fails place e ↔ False := modify_fails

theorem declareReady_fails {name : Token} :
    (declareReady name).Fails place e ↔ (declare name).Fails place e := by
  simp [declareReady, settle_fails, bind_fails]

theorem locate_fails {use : Use} {reference : Reference} :
    (locate use reference).Fails place e ↔ False := by
  rw [locate, get_bind_fails]
  split <;> simp [map_fails]

theorem readVariable_fails {reference : Reference} : (readVariable reference).Fails place e ↔
    e = ⟨.readInOwnInitializer, reference.name⟩ ∧ ∃ scope ∈ place.scopes.head?,
      ∃ binding ∈ scope.get? reference.name.lexeme, binding.isReady = false := by
  simp only [readVariable, bind_fails, locate_fails, and_false, exists_false, or_false]
  rw [checkReady, get_bind_fails]
  cases place.scopes with
  | nil => simp
  | cons scope outer =>
      dsimp only
      cases bound : scope.get? reference.name.lexeme with
      | none => simp [bound]
      | some binding => cases ready : binding.isReady <;> simp [bound, ready]

theorem checkThis_fails {keyword : Token} : (checkThis keyword).Fails place e ↔
    place.classContext = .outside ∧ e = ⟨.thisOutsideClass, keyword⟩ := by
  rw [checkThis, get_bind_fails]
  split <;> simp_all

theorem checkSuper_fails {keyword : Token} : (checkSuper keyword).Fails place e ↔
    place.classContext = .outside ∧ e = ⟨.superOutsideClass, keyword⟩ ∨
      place.classContext = .base ∧ e = ⟨.superWithoutSuperclass, keyword⟩ := by
  rw [checkSuper, get_bind_fails]
  split <;> simp_all

theorem checkReturn_fails {keyword : Token} {hasValue : Bool} :
    (checkReturn keyword hasValue).Fails place e ↔
      place.functionContext = .outside ∧ e = ⟨.returnAtTopLevel, keyword⟩ ∨
        hasValue ∧ place.functionContext = .initializer ∧ e = ⟨.valueFromInitializer, keyword⟩ := by
  rw [checkReturn, get_bind_fails]
  dsimp only
  split
  next outside => simp [outside]
  next inside =>
    split
    next wrong => simp_all
    next right => simp_all

theorem checkBlock_fails : checkBlock.Fails place e ↔ place.functionContext ≠ .outside ∧
    ∃ locals ∈ place.scopes.head?, Scope.fault? locals .empty = some e := by
  rw [checkBlock, get_bind_fails]
  cases place.scopes with
  | nil => simp
  | cons locals outer =>
      dsimp only
      split
      next outside => simp [outside]
      next inside =>
        split
        next e' fault => simp [inside, fault, eq_comm]
        next sound => simpa using fun _ => sound e

theorem checkBody_fails {locals parameters : Scope} {outer : List Scope}
    (cut : place.scopes = locals :: parameters :: outer) :
    checkBody.Fails place e ↔ Scope.fault? locals parameters = some e := by
  rw [checkBody, get_bind_fails, cut]
  dsimp only
  split
  next e' fault => simp [fault, eq_comm]
  next sound => simpa using sound e

theorem routine_fails {context : FunctionContext} {params : List Token} {body : Resolve α} :
    (routine context params body).Fails place e ↔
      (params.forM declareReady).Fails (bodyPlace context place) e ∨
        ∃ mid, (params.forM declareReady).Gives (bodyPlace context place) () mid ∧
          (body.Fails { mid with scopes := .empty :: mid.scopes } e ∨
            ∃ a after, body.Gives { mid with scopes := .empty :: mid.scopes } a after ∧
              checkBody.Fails after e) := by
  simp only [routine, inFunction_fails, inScope_fails, bind_fails, pure_fails, exists_unit,
    and_false, exists_false, or_false]
  rfl

theorem superclass_fails {name : Token} {parent : Option Reference} :
    (superclass name parent).Fails place e ↔ ∃ reference ∈ parent,
      name.lexeme = reference.name.lexeme ∧ e = ⟨.inheritsFromItself, reference.name⟩ ∨
        name.lexeme ≠ reference.name.lexeme ∧ (readVariable reference).Fails place e := by
  cases parent with
  | none => simp [superclass]
  | some reference =>
      simp only [superclass]
      split
      next same => simp [same]
      next other => simp [other, map_fails]

end Resolve

open Resolve

theorem Expr.resolve_fails {expr : Expr} :
    expr.resolve.Fails place e ↔
      match expr with
      | .literal _ => False
      | .variable reference => (readVariable reference).Fails place e
      | .assign _ value | .grouping value | .unary _ value | .get value _ =>
        value.resolve.Fails place e
      | .this reference => (checkThis reference.name).Fails place e
      | .super reference _ => (checkSuper reference.name).Fails place e
      | .binary first _ second | .logical first _ second | .set second _ first =>
        first.resolve.Fails place e ∨
          ∃ first' mid, first.resolve.Gives place first' mid ∧ second.resolve.Fails mid e
      | .conditional condition consequent alternative =>
        condition.resolve.Fails place e ∨
          ∃ condition' mid, condition.resolve.Gives place condition' mid ∧
            (consequent.resolve.Fails mid e ∨
              ∃ consequent' mid', consequent.resolve.Gives mid consequent' mid' ∧
                alternative.resolve.Fails mid' e)
      | .comma items => (Expr.resolveEach items).Fails place e
      | .call callee _ arguments =>
        callee.resolve.Fails place e ∨
          ∃ callee' mid, callee.resolve.Gives place callee' mid ∧
            (Expr.resolveEach arguments).Fails mid e
      | .lambda _ params body =>
        (routine .function params (Stmt.resolveEach body)).Fails place e := by
  cases expr <;> simp [Expr.resolve, bind_fails, map_fails, locate_fails]

theorem Expr.resolveEach_fails {items : List Expr} :
    (Expr.resolveEach items).Fails place e ↔
      match items with
      | [] => False
      | item :: rest => item.resolve.Fails place e ∨
          ∃ item' mid, item.resolve.Gives place item' mid ∧
            (Expr.resolveEach rest).Fails mid e := by
  cases items <;> simp [Expr.resolveEach, bind_fails, map_fails]

theorem Stmt.resolve_fails {s : Stmt} :
    s.resolve.Fails place e ↔
      match s with
      | .expression value | .print value => value.resolve.Fails place e
      | .varDecl name none => (declare name).Fails place e
      | .varDecl name (some initial) =>
        (declare name).Fails place e ∨
          ∃ mid, (declare name).Gives place () mid ∧ initial.resolve.Fails mid e
      | .block body =>
        (Stmt.resolveEach body).Fails { place with scopes := .empty :: place.scopes } e ∨
          ∃ body' after, (Stmt.resolveEach body).Gives
              { place with scopes := .empty :: place.scopes } body' after ∧
            checkBlock.Fails after e
      | .branch condition consequent alternative =>
        condition.resolve.Fails place e ∨
          ∃ condition' mid, condition.resolve.Gives place condition' mid ∧
            (consequent.resolve.Fails mid e ∨ ∃ other ∈ alternative, ∃ consequent' mid',
              consequent.resolve.Gives mid consequent' mid' ∧ other.resolve.Fails mid' e)
      | .loop condition body =>
        condition.resolve.Fails place e ∨
          ∃ condition' mid, condition.resolve.Gives place condition' mid ∧
            body.resolve.Fails mid e
      | .functionDecl (.mk name params body) =>
        (declare name).Fails place e ∨
          ∃ mid, (declareReady name).Gives place () mid ∧
            (routine .function params (Stmt.resolveEach body)).Fails mid e
      | .classDecl name parent methods =>
        (declare name).Fails
            { place with classContext := if parent.isSome then .derived else .base } e ∨
          ∃ mid, (declareReady name).Gives
              { place with classContext := if parent.isSome then .derived else .base } () mid ∧
            ((superclass name parent).Fails mid e ∨
              ∃ parent' mid', (superclass name parent).Gives mid parent' mid' ∧
                (inClassScopes parent'.isSome (FunctionDecl.resolveEach methods)).Fails mid' e)
      | .returns keyword value => (checkReturn keyword value.isSome).Fails place e ∨
          ∃ other ∈ value, ∃ mid, (checkReturn keyword true).Gives place () mid ∧
            other.resolve.Fails mid e := by
  rcases s with _ | _ | ⟨_, _ | _⟩ | _ | ⟨_, _, _ | _⟩ | _ | ⟨⟨_, _, _⟩⟩ | _ | ⟨_, _ | _⟩ <;>
    simp [Stmt.resolve, bind_fails, map_fails, inScope_fails, inClass_fails, exists_unit,
      declareReady_fails, settle_fails]

theorem Stmt.resolveEach_fails {body : List Stmt} :
    (Stmt.resolveEach body).Fails place e ↔
      match body with
      | [] => False
      | s :: rest => s.resolve.Fails place e ∨
          ∃ s' mid, s.resolve.Gives place s' mid ∧ (Stmt.resolveEach rest).Fails mid e := by
  cases body <;> simp [Stmt.resolveEach, bind_fails, map_fails]

theorem FunctionDecl.resolveEach_fails {members : List FunctionDecl} :
    (FunctionDecl.resolveEach members).Fails place e ↔
      match members with
      | [] => False
      | .mk name params body :: rest =>
        (routine (methodContext name) params (Stmt.resolveEach body)).Fails place e ∨
          ∃ body' mid,
            (routine (methodContext name) params (Stmt.resolveEach body)).Gives place body' mid ∧
            (FunctionDecl.resolveEach rest).Fails mid e := by
  rcases members with _ | ⟨⟨_, _, _⟩, _⟩ <;> simp [FunctionDecl.resolveEach, bind_fails, map_fails]

end TreeWalk
