import TreeWalk.Proofs.Loops.Scoping
import TreeWalk.Proofs.Loops.Thinning
import TreeWalk.Proofs.Scope.Resolving

/-!
# Walks without the scopes of passes

The layers around a place of a program tell which of its scopes are those of passes of counting
loops. The elementary steps of the walk do the same in surroundings without these scopes, and
distances are the same but for being thinned.

## Implementation notes

The scope of a pass is empty. A name that is not ready yet is one of the innermost scope, and in
the scope around a pass all names are ready: otherwise a name could be refused without the pass
that is not refused with it.
-/

namespace TreeWalk

/-- What is known of a scope: it is that of a pass, or all its names are ready but perhaps one. -/
inductive Layer
  | pass
  | kept (unready : Option String)

/-- Whether a layer is that of a pass. -/
def Layer.isPass : Layer → Bool
  | pass => true
  | kept _ => false

/-- The layers around a place of a program, innermost first. -/
abbrev Layers : Type := List Layer

namespace Layers

/-- The shape of layers. The global variables lie outside of them. -/
def shape : Layers → Shape
  | [] => [false]
  | layer :: outer => layer.isPass :: shape outer

/-- All names of the innermost scope that is not that of a pass are ready. -/
def Calm : Layers → Prop
  | [] => True
  | .pass :: outer => Calm outer
  | .kept unready :: _ => unready = none

/-- The innermost scope is not that of a pass. -/
def Open : Layers → Prop
  | .pass :: _ => False
  | _ => True

/-- Where an expression may stand: in a pass all names around it are ready. -/
def Fits : Layers → Prop
  | .pass :: outer => Calm outer
  | _ => True

theorem Calm.fits {layers : Layers} (calm : layers.Calm) : layers.Fits := by
  cases layers with
  | nil => trivial
  | cons layer outer =>
      cases layer with
      | pass => exact calm
      | kept => trivial

end Layers

/-- Scopes without those of passes. -/
inductive Layers.Thins : Layers → List Scope → List Scope → Prop
  | nil : Thins [] [] []
  | kept {unready : Option String} {layers : Layers} {scope : Scope} {ss ts : List Scope} :
      (∀ x b, scope.get? x = some b → b.isReady = true ∨ unready = some x) →
      Thins layers ss ts → Thins (.kept unready :: layers) (scope :: ss) (scope :: ts)
  | pass {layers : Layers} {ss ts : List Scope} :
      Thins layers ss ts → Thins (.pass :: layers) (.empty :: ss) ts

namespace Layers.Thins

variable {layers : Layers} {ss ts : List Scope} {k : Nat} {x : String}

theorem tail {unready : Option String} (thins : Thins (.kept unready :: layers) ss ts) :
    layers.Thins ss.tail ts.tail := by
  cases thins with
  | kept _ rest => exact rest

theorem of_pass (thins : Thins (.pass :: layers) ss ts) :
    ∃ outer, ss = .empty :: outer ∧ layers.Thins outer ts := by
  cases thins with
  | pass rest => exact ⟨_, rfl, rest⟩

/-- The distance of a name is thinned. -/
theorem distance (thins : layers.Thins ss ts) (x : String) :
    ts.findIdx? (fun scope => scope.contains x) =
      (ss.findIdx? fun scope => scope.contains x).map layers.shape.thin := by
  induction thins with
  | nil => rfl
  | @kept _ _ scope _ _ _ _ ih =>
      rw [List.findIdx?_cons, List.findIdx?_cons]
      split
      · rfl
      · rw [ih, Option.map_map, Option.map_map]
        rfl
  | pass _ ih =>
      have unbound : (Bindings.empty : Scope).contains x = false := rfl
      rw [List.findIdx?_cons, unbound, ih, if_neg (by simp), Option.map_map]
      rfl

/-- What is known of a name may change so that it stays ready. -/
theorem modify {f : Binding → Binding} (thins : layers.Thins ss ts)
    (ready : ∀ b : Binding, b.isReady = true → (f b).isReady = true)
    (found : (ss.findIdx? fun scope => scope.contains x) = some k) :
    layers.Thins (ss.modify k fun scope => scope.modify x f)
      (ts.modify (layers.shape.thin k) fun scope => scope.modify x f) := by
  induction thins generalizing k with
  | nil => cases found
  | @kept unready layers scope ss ts known rest ih =>
      rw [List.findIdx?_cons] at found
      split at found
      next =>
        cases found
        refine .kept ?_ rest
        intro y b bound
        rw [Bindings.get?_modify] at bound
        split at bound
        next =>
          obtain ⟨old, before, rfl⟩ := Option.map_eq_some_iff.1 bound
          exact (known y old before).imp (ready old) id
        next => exact known y b bound
      next =>
        obtain ⟨k, further, rfl⟩ := Option.map_eq_some_iff.1 found
        exact .kept known (ih further)
  | pass rest ih =>
      have unbound : (Bindings.empty : Scope).contains x = false := rfl
      rw [List.findIdx?_cons, unbound, if_neg (by simp)] at found
      obtain ⟨k, further, rfl⟩ := Option.map_eq_some_iff.1 found
      exact .pass (ih further)

/-- Where all names are ready the innermost scope refuses none. -/
theorem ready_of_calm (thins : layers.Thins ss ts) (calm : layers.Calm) {scope : Scope}
    (innermost : ts.head? = some scope) {b : Binding} (bound : scope.get? x = some b) :
    b.isReady = true := by
  induction thins with
  | nil => cases innermost
  | kept known =>
      cases innermost
      obtain rfl := calm
      exact (known x b bound).resolve_right nofun
  | pass _ ih => exact ih calm innermost

end Layers.Thins

/-- Surroundings without the scopes of passes. -/
structure Surroundings.Thinned (layers : Layers) (p q : Surroundings) : Prop where
  scopes : layers.Thins p.scopes q.scopes
  functionContext : q.functionContext = p.functionContext
  classContext : q.classContext = p.classContext
  found : q.found.size = p.found.size

namespace Resolve

variable {α β γ δ : Type} {start mid stop layers : Layers} {unready : Option String}

/-- What two walks come to that agree: results and surroundings in these layers, or the same
violation. -/
inductive Ends (layers : Layers) (Q : α → β → Prop) :
    EStateM.Result ScopeError Surroundings α → EStateM.Result ScopeError Surroundings β → Prop
  | ok {a : α} {b : β} {p q : Surroundings} : Q a b → p.Thinned layers q →
      Ends layers Q (.ok a p) (.ok b q)
  | error {e : ScopeError} {p q : Surroundings} : Ends layers Q (.error e p) (.error e q)

/-- Two walks agree but for the scopes of passes. -/
def Recounts (start stop : Layers) (Q : α → β → Prop) (x : Resolve α) (y : Resolve β) : Prop :=
  ∀ ⦃p q : Surroundings⦄, p.Thinned start q → Ends stop Q (x p) (y q)

variable {Q : α → β → Prop} {P : γ → δ → Prop} {x : Resolve α} {y : Resolve β}

namespace Recounts

protected theorem pure {a : α} {b : β} (same : Q a b) :
    Recounts layers layers Q (pure a) (pure b) :=
  fun _ _ thinned => .ok same thinned

protected theorem fail (cause : ScopeCause) (token : Token) :
    Recounts start stop Q (fail cause token) (fail cause token) :=
  fun _ _ _ => .error

protected theorem bind {f : α → Resolve γ} {g : β → Resolve δ} (first : Recounts start mid Q x y)
    (next : ∀ a b, Q a b → Recounts mid stop P (f a) (g b)) :
    Recounts start stop P (x >>= f) (y >>= g) := by
  intro p q thinned
  simp only [Bind.bind, EStateM.bind]
  have both := first thinned
  generalize x p = one, y q = other at both
  cases both with
  | ok same thinned => exact next _ _ same thinned
  | error => exact .error

/-- What one walk gives settles what the other one gives. -/
theorem andThen {into : α → β} {f : α → Resolve γ} {g : β → Resolve δ}
    (first : Recounts start mid (fun a b => b = into a) x y)
    (next : ∀ a, Recounts mid stop P (f a) (g (into a))) :
    Recounts start stop P (x >>= f) (y >>= g) :=
  first.bind fun a _ same => same ▸ next a

/-- What a walk gives is given by it. -/
protected theorem gives (h : Recounts start stop Q x y) :
    Recounts start stop (fun a b => Q a b ∧ ∃ p p', x.Gives p a p') x y := by
  intro p q thinned
  have both := h thinned
  generalize one : x p = result, other : y q = result' at both
  cases both with
  | ok same thinned => exact .ok ⟨same, _, _, one⟩ thinned
  | error => exact .error

/-- What is seen of the surroundings is the same. -/
theorem look (see : Surroundings → γ) {f : γ → Resolve α} {g : γ → Resolve β}
    (same : ∀ {p q : Surroundings}, p.Thinned start q → see q = see p)
    (next : ∀ c, Recounts start stop Q (f c) (g c)) :
    Recounts start stop Q (do f (see (← get))) (do g (see (← get))) := by
  intro p q thinned
  rw [get_bind_apply, get_bind_apply, same thinned]
  exact next _ thinned

/-- A scope that is kept on both sides. -/
theorem inScope {scope : Scope} {unready' : Option String}
    (ready : ∀ x b, scope.get? x = some b → b.isReady = true ∨ unready = some x)
    (act : Recounts (.kept unready :: layers) (.kept unready' :: layers) Q x y) :
    Recounts layers layers Q (inScope scope x) (inScope scope y) := by
  intro p q thinned
  have inner : Surroundings.Thinned (.kept unready :: layers)
      { p with scopes := scope :: p.scopes } { q with scopes := scope :: q.scopes } :=
    { thinned with scopes := .kept ready thinned.scopes }
  have both := act inner
  unfold Resolve.inScope
  generalize x { p with scopes := scope :: p.scopes } = one,
    y { q with scopes := scope :: q.scopes } = other at both
  cases both with
  | ok same after => exact .ok same { after with scopes := after.scopes.tail }
  | error => exact .error

theorem inFunction (context : FunctionContext) (act : Recounts layers layers Q x y) :
    Recounts layers layers Q (inFunction context x) (inFunction context y) := by
  intro p q thinned
  have inner : Surroundings.Thinned layers { p with functionContext := context }
      { q with functionContext := context } :=
    { thinned with functionContext := rfl }
  have both := act inner
  unfold Resolve.inFunction
  generalize x { p with functionContext := context } = one,
    y { q with functionContext := context } = other at both
  cases both with
  | ok same after => exact .ok same { after with functionContext := thinned.functionContext }
  | error => exact .error

theorem inClass (context : ClassContext) (act : Recounts layers layers Q x y) :
    Recounts layers layers Q (inClass context x) (inClass context y) := by
  intro p q thinned
  have inner : Surroundings.Thinned layers { p with classContext := context }
      { q with classContext := context } :=
    { thinned with classContext := rfl }
  have both := act inner
  unfold Resolve.inClass
  generalize x { p with classContext := context } = one,
    y { q with classContext := context } = other at both
  cases both with
  | ok same after => exact .ok same { after with classContext := thinned.classContext }
  | error => exact .error

end Recounts

theorem declare_recounts (name : Token) :
    Recounts (.kept none :: layers) (.kept (some name.lexeme) :: layers) Eq (declare name)
      (declare name) := by
  intro p q thinned
  obtain ⟨scopes, functionContext, classContext, found⟩ := thinned
  rcases p with ⟨ss, _, _, _⟩
  rcases q with ⟨ts, _, _, _⟩
  cases scopes with
  | @kept _ _ scope ss ts known rest =>
      simp only [declare, get_bind_apply]
      split
      · exact .error
      · refine .ok rfl ⟨.kept ?_ rest, functionContext, classContext, found⟩
        intro x b bound
        rw [Bindings.get?_put] at bound
        split at bound
        next same => exact .inr (congrArg some same.symm)
        next => exact .inl ((known x b bound).resolve_right (Option.some_ne_none _).symm)

theorem settle_recounts (name : Token) :
    Recounts (.kept (some name.lexeme) :: layers) (.kept none :: layers) Eq (settle name)
      (settle name) := by
  intro p q thinned
  obtain ⟨scopes, functionContext, classContext, found⟩ := thinned
  rcases p with ⟨ss, _, _, _⟩
  rcases q with ⟨ts, _, _, _⟩
  cases scopes with
  | @kept _ _ scope ss ts known rest =>
      refine .ok rfl ⟨.kept ?_ rest, functionContext, classContext, found⟩
      intro x b bound
      rw [Bindings.get?_modify] at bound
      split at bound
      next =>
        obtain ⟨old, -, rfl⟩ := Option.map_eq_some_iff.1 bound
        cases old <;> exact .inl rfl
      next other =>
        refine .inl ((known x b bound).resolve_right fun same => other ?_)
        exact (Option.some.inj same).symm

theorem declare_outside (name : Token) :
    Recounts [] [] Eq (declare name) (declare name) := by
  intro p q thinned
  have scopes := thinned.scopes
  have passes : Ends [] Eq (.ok () p) (.ok () q) := .ok rfl thinned
  rw [declare, get_bind_apply, get_bind_apply]
  generalize p.scopes = ss, q.scopes = ts at scopes
  cases scopes
  exact passes

theorem settle_outside (name : Token) : Recounts [] [] Eq (settle name) (settle name) := by
  intro p q thinned
  obtain ⟨scopes, functionContext, classContext, found⟩ := thinned
  rcases p with ⟨ss, _, _, _⟩
  rcases q with ⟨ts, _, _, _⟩
  cases scopes
  exact .ok rfl ⟨.nil, functionContext, classContext, found⟩

/-- While its initial value is computed a name may be the one that is not ready. -/
theorem initial_recounts {f : α → γ} {g : β → δ} (calm : layers.Calm) (isOpen : layers.Open)
    (name : Token)
    (act : ∀ inner : Layers, inner.shape = layers.shape → inner.Fits → Recounts inner inner Q x y)
    (same : ∀ a b, Q a b → P (f a) (g b)) :
    Recounts layers layers P
      (do
        declare name
        let a ← x
        settle name
        return f a)
      (do
        declare name
        let b ← y
        settle name
        return g b) := by
  match layers with
  | [] =>
      refine (declare_outside name).bind fun _ _ _ => (act [] rfl trivial).bind fun a b known => ?_
      exact (settle_outside name).bind fun _ _ _ => .pure (same a b known)
  | .pass :: _ => exact isOpen.elim
  | .kept unready :: layers =>
      obtain rfl : unready = none := calm
      refine (declare_recounts name).bind fun _ _ _ => ?_
      refine (act (.kept (some name.lexeme) :: layers) rfl trivial).bind fun a b known => ?_
      exact (settle_recounts name).bind fun _ _ _ => .pure (same a b known)

/-- A declaration may stand outside of all scopes or in a scope whose names are ready. -/
theorem declareReady_recounts (calm : layers.Calm) (isOpen : layers.Open) (name : Token) :
    Recounts layers layers Eq (declareReady name) (declareReady name) := by
  match layers with
  | [] => exact (declare_outside name).bind fun _ _ _ => settle_outside name
  | .pass :: _ => exact isOpen.elim
  | .kept unready :: layers =>
      obtain rfl : unready = none := calm
      exact (declare_recounts name).bind fun _ _ _ => settle_recounts name

/-- A name that is refused is refused on both sides. -/
theorem checkReady_recounts (fits : layers.Fits) (name : Token) :
    Recounts layers layers Eq (checkReady name) (checkReady name) := by
  intro p q thinned
  have scopes := thinned.scopes
  have passes : Ends layers Eq (.ok () p) (.ok () q) := .ok rfl thinned
  rw [checkReady, get_bind_apply, get_bind_apply]
  generalize p.scopes = ss, q.scopes = ts at scopes
  cases scopes with
  | nil => exact passes
  | @kept _ _ scope _ _ _ _ =>
      dsimp only
      cases scope.get? name.lexeme with
      | none => exact passes
      | some b =>
          dsimp only
          split
          · exact passes
          · exact .error
  | @pass _ _ ts rest =>
      cases ts with
      | nil => exact passes
      | cons scope outer =>
          dsimp only
          cases bound : scope.get? name.lexeme with
          | none => exact passes
          | some b =>
              dsimp only
              rw [if_pos (rest.ready_of_calm fits rfl bound)]
              exact passes

theorem locate_recounts (use : Use) (reference : Reference) :
    Recounts layers layers (fun r r' => r' = r.thin layers.shape) (locate use reference)
      (locate use reference) := by
  intro p q thinned
  have distance : q.distance? reference.name.lexeme =
      (p.distance? reference.name.lexeme).map layers.shape.thin :=
    thinned.scopes.distance reference.name.lexeme
  simp only [locate, get_bind_apply]
  rw [distance]
  cases found : p.distance? reference.name.lexeme with
  | none => exact .ok rfl thinned
  | some k =>
      have size : (q.found.push ⟨use, reference.name, layers.shape.thin k⟩).size =
          (p.found.push ⟨use, reference.name, k⟩).size := by
        rw [Array.size_push, Array.size_push, thinned.found]
      let note (k : Nat) (place : Surroundings) : Surroundings :=
        let noted := { place with found := place.found.push ⟨use, reference.name, k⟩ }
        if use = .assign then noted else noted.modifyAt k reference.name.lexeme Binding.read
      show Ends layers _ (.ok (Reference.mk reference.name (some k)) (note k p))
        (.ok (Reference.mk reference.name (some (layers.shape.thin k)))
          (note (layers.shape.thin k) q))
      refine .ok rfl ?_
      dsimp only [note]
      split
      · exact { thinned with found := size }
      · exact
          { thinned with
            found := size
            scopes := thinned.scopes.modify (fun b ready => by cases b <;> exact ready) found }

theorem readVariable_recounts (fits : layers.Fits) (reference : Reference) :
    Recounts layers layers (fun r r' => r' = r.thin layers.shape) (readVariable reference)
      (readVariable reference) :=
  (checkReady_recounts fits reference.name).bind fun _ _ _ => locate_recounts .variable reference

theorem checkThis_recounts (keyword : Token) :
    Recounts layers layers Eq (checkThis keyword) (checkThis keyword) := by
  apply Recounts.look Surroundings.classContext (fun thinned => thinned.classContext)
    (f := fun context => do if context = .outside then fail .thisOutsideClass keyword)
    (g := fun context => do if context = .outside then fail .thisOutsideClass keyword)
  intro context
  split
  · exact .fail _ _
  · exact .pure rfl

theorem checkSuper_recounts (keyword : Token) :
    Recounts layers layers Eq (checkSuper keyword) (checkSuper keyword) := by
  intro p q thinned
  rw [checkSuper, get_bind_apply, get_bind_apply, thinned.classContext]
  cases p.classContext with
  | outside | base => exact .error
  | derived => exact .ok rfl thinned

theorem checkReturn_recounts (keyword : Token) (hasValue : Bool) :
    Recounts layers layers Eq (checkReturn keyword hasValue) (checkReturn keyword hasValue) := by
  let check (context : FunctionContext) : Resolve Unit := do
    if context = .outside then fail .returnAtTopLevel keyword
    else if hasValue && context = .initializer then fail .valueFromInitializer keyword
  apply Recounts.look Surroundings.functionContext (fun thinned => thinned.functionContext)
    (f := check) (g := check)
  intro context
  dsimp only [check]
  split
  · exact .fail _ _
  · split
    · exact .fail _ _
    · exact .pure rfl

theorem checkBlock_recounts :
    Recounts (.kept unready :: layers) (.kept unready :: layers) Eq checkBlock checkBlock := by
  intro p q thinned
  have scopes := thinned.scopes
  have passes : Ends (.kept unready :: layers) Eq (.ok () p) (.ok () q) := .ok rfl thinned
  simp only [checkBlock, get_bind_apply]
  rw [thinned.functionContext]
  generalize p.scopes = ss, q.scopes = ts at scopes
  cases scopes with
  | @kept _ _ scope =>
      dsimp only
      split
      · exact passes
      · cases scope.fault? .empty with
        | none => exact passes
        | some e => exact .error

theorem checkBody_recounts {unready' : Option String} :
    Recounts (.kept unready :: .kept unready' :: layers) (.kept unready :: .kept unready' :: layers)
      Eq checkBody checkBody := by
  intro p q thinned
  have scopes := thinned.scopes
  have passes : Ends (.kept unready :: .kept unready' :: layers) Eq (.ok () p) (.ok () q) :=
    .ok rfl thinned
  rw [checkBody, get_bind_apply, get_bind_apply]
  generalize p.scopes = ss, q.scopes = ts at scopes
  cases scopes with
  | @kept _ _ locals _ _ _ outer =>
      cases outer with
      | @kept _ _ parameters =>
          dsimp only
          cases locals.fault? parameters with
          | none => exact passes
          | some e => exact .error

end Resolve

end TreeWalk
