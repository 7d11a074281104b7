import TreeWalk.Proofs.Run.Operations

/-!
# What declarations and calls bind

A statement binds the name that it declares in the current frame and no other name in
any frame that was there before. A call binds its parameters in a frame of its own.

## Implementation notes

A statement that ends with a return may have left out its declaration, so only one that
completes normally is known to bind its name.
-/

namespace TreeWalk

open Eval

variable {W : Spot → Prop} {P : Pending} {m m' : Machine} {views views' : List View}

/-- The postcondition of a statement that declares at most one name. -/
def Completed (W : Spot → Prop) (P : Pending) (m : Machine) (declared : Option Token)
    (completion : Completion) (m' : Machine) : Prop :=
  m'.heap.Sound W P ∧ m.heap.Carries (Named m.current declared) P P m'.heap ∧
    match completion with
    | .normal => ∀ name ∈ declared, m'.heap.frames.Has m.current name.lexeme
    | .returned v => m'.heap.Valid W P v

/-- Binding a declared name in the current frame. -/
theorem defineHere_safe {name : Token} {v : Value} (sound : m.heap.Sound W P)
    (inside : m.current < m.heap.frames.size) (plain : name.IsPlain) (valid : m.heap.Valid W P v)
    (settled : m.current ≠ Machine.globals → (m.current, name.lexeme) ∉ P) :
    Safe W (defineHere name.lexeme v) m fun _ m' =>
      Completed W P m (some name) .normal m' := by
  apply Safe.of_gives (defineHere_gives _ _) rfl
  refine ⟨?_, .ofFrames (.define inside (.inl ⟨plain, rfl, name, rfl, rfl⟩) fun _ _ => .inl), ?_⟩
  · exact sound.define_settled inside (.inl plain) valid plain.2 settled
  · rintro _ ⟨⟩
    exact (Frames.has_define inside).2 (.inl ⟨rfl, rfl⟩)

/-- Binding a name whose initial value was computed settles it. -/
theorem defineHere_settles {name : Token} {v : Value}
    (sound : m.heap.Sound W ((m.current, name.lexeme) :: P))
    (inside : m.current < m.heap.frames.size) (plain : name.IsPlain)
    (valid : m.heap.Valid W ((m.current, name.lexeme) :: P) v)
    (settled : m.current ≠ Machine.globals → (m.current, name.lexeme) ∉ P) :
    Safe W (defineHere name.lexeme v) m fun _ m' => m'.heap.Sound W P ∧
      m.heap.Carries (Named m.current (some name)) ((m.current, name.lexeme) :: P) P m'.heap ∧
      m'.heap.frames.Has m.current name.lexeme := by
  have settles : ∀ j y, (j, y) ∈ (m.current, name.lexeme) :: P →
      (j, y) ∈ P ∨ j = m.current ∧ y = name.lexeme := by
    intro j y pending
    obtain same | pending := List.mem_cons.1 pending
    · exact .inr (Prod.mk.inj same)
    · exact .inl pending
  apply Safe.of_gives (defineHere_gives _ _) rfl
  refine ⟨?_, .ofFrames (.define inside (.inl ⟨plain, rfl, name, rfl, rfl⟩) settles), ?_⟩
  · apply sound.define inside (.inl plain) valid plain.2 settles
    intro j y pending
    refine ⟨List.mem_cons_of_mem _ pending, ?_⟩
    rintro other ⟨rfl, rfl⟩
    exact settled other pending
  · exact (Frames.has_define inside).2 (.inl ⟨rfl, rfl⟩)

theorem closeOver_gives {name : Option String} {params : List Token} {body : List Stmt} :
    (closeOver name params body).Gives m (.closure m.heap.closures.size)
      (m.mapHeap fun heap => { heap with
        closures := heap.closures.push ⟨name, params, body, m.current, false⟩ }) := rfl

/-- A function that was just made is bound to its name. Only then may it be called, since
its own name is around its body. -/
theorem declareFunction_safe {name : Token} {params : List Token} {body : List Stmt}
    (sound : m.heap.Sound W P) (fits : Fits P m.heap.frames views m.current)
    (plain : name.IsPlain) (binds : Binds name true views views')
    (settled : m.current ≠ Machine.globals → (m.current, name.lexeme) ∉ P)
    (placed : PlacedRoutine W views' params body) :
    Safe W (defineHere name.lexeme (.closure m.heap.closures.size))
      (m.mapHeap fun heap => { heap with
        closures := heap.closures.push ⟨some name.lexeme, params, body, m.current, false⟩ })
      fun _ m' => Completed W P m (some name) .normal m' := by
  have inside := fits.inside sound.nonempty
  let closure : Closure := ⟨some name.lexeme, params, body, m.current, false⟩
  let made : Heap := { m.heap with closures := m.heap.closures.push closure }
  let done : Heap := { made with
    frames := made.frames.define m.current name.lexeme (.closure m.heap.closures.size) }
  have carries₁ : m.heap.Carries (Named m.current (some name)) P P made := .pushClosure closure
  have carries₂ : made.Carries (Named m.current (some name)) P P done :=
    .ofFrames (.define inside (.inl ⟨plain, rfl, name, rfl, rfl⟩) fun _ _ => .inl)
  have carries := carries₁.trans carries₂
  have has : done.frames.Has m.current name.lexeme :=
    (Frames.has_define inside).2 (.inl ⟨rfl, rfl⟩)
  have callable : done.Callable W P closure :=
    ⟨⟨views', placed, fits.binds binds plain carries.frames (.inl has)⟩, nofun⟩
  have valid : done.Valid W P (.closure m.heap.closures.size) :=
    ⟨closure, by simp [done, made], callable⟩
  have sound' : done.Sound W P := by
    apply (sound.pushClosure closure).extend carries₂
    · intro j y w bound
      rw [Frames.local?_define _ _ _ _ _ _ inside] at bound
      split at bound
      next same =>
        obtain ⟨-, rfl⟩ := same
        obtain rfl := Option.some.inj bound
        exact .inr ⟨valid, fun super => absurd super plain.2⟩
      next => exact .inl bound
    · intro _ _ _ _ bound _
      exact .inl bound
    · intro id record x v bound found
      exact .inr ⟨id, record, bound, found⟩
    · intro j y pending
      obtain ⟨isPlain, absent⟩ := sound.pending pending
      refine ⟨isPlain, fun other => ?_⟩
      obtain ⟨old, absent⟩ := absent other
      refine ⟨by simpa [done, made] using old, fun found => ?_⟩
      obtain ⟨rfl, rfl⟩ | found := (Frames.has_define inside).1 found
      · exact settled other pending
      · exact absent found
  apply Safe.of_gives (defineHere_gives _ _) rfl
  refine ⟨sound', carries, ?_⟩
  rintro _ ⟨⟩
  exact has

/-- What a row of pairs binds comes from one of the pairs. -/
theorem Bindings.mem_of_get?_ofList {α : Type} {pairs : List (String × α)} {name : String}
    {value : α} (found : (Bindings.ofList pairs).get? name = some value) :
    (name, value) ∈ pairs := by
  have general : ∀ b : Bindings α,
      (pairs.foldl (fun b pair => b.put pair.1 pair.2) b).get? name = some value →
      b.get? name = some value ∨ (name, value) ∈ pairs := by
    clear found
    induction pairs with
    | nil => exact fun b => .inl
    | cons pair rest ih =>
        intro b found
        obtain found | inside := ih _ found
        · rw [Bindings.get?_put] at found
          split at found
          next same =>
            obtain rfl := Option.some.inj found
            exact .inr (by simp [same])
          next => exact .inl found
        · exact .inr (List.mem_cons_of_mem _ inside)
  obtain found | inside := general .empty found
  · cases found
  · exact inside

theorem methodsPlace_views (hasSuperclass : Bool) (place : Surroundings) :
    (methodsPlace hasSuperclass place).views =
      (Scope.ofImplicit "this").view :: superViews hasSuperclass place.views := by
  cases hasSuperclass <;> rfl

/-- The class that the superclass of a class is, if it has one. -/
def superclassOf : Option Reference → Eval (Option ClassId)
  | none => return none
  | some reference => some <$> readClass reference

theorem superclassOf_safe {parent : Option Reference} (sound : m.heap.Sound W P)
    (fits : Fits P m.heap.frames views m.current)
    (located : ∀ reference ∈ parent, reference.IsLocated views) :
    Safe W (superclassOf parent) m fun found m' =>
      m' = m ∧ found.isSome = parent.isSome ∧ ∀ id ∈ found, id < m.heap.classes.size := by
  cases parent with
  | none => exact Safe.pure ⟨rfl, rfl, nofun⟩
  | some reference =>
      apply Safe.map
      apply (readClass_safe sound fits (located reference rfl)).mono
      rintro id _ - ⟨rfl, valid⟩
      refine ⟨rfl, rfl, ?_⟩
      rintro _ ⟨⟩
      exact valid

/-- A superclass is a class that some frame binds. -/
theorem local?_of_superclassOf {parent : Option Reference} {id : ClassId} {m m' : Machine}
    (run : (superclassOf parent).Gives m (some id) m') :
    ∃ j x, m.frames.local? j x = some (.classRef id) := by
  cases parent with
  | none => cases (pure_gives.1 run).1
  | some reference =>
      obtain ⟨_, read, same⟩ := map_gives.1 run
      cases same
      obtain ⟨v, _, read, isClass⟩ := bind_gives.1 read
      cases v with
      | classRef id =>
          cases (pure_gives.1 isClass).1
          exact local?_of_readReference read
      | scalar | closure | object | clock => cases isClass

/-- Declaring a class, with the superclass looked up by a step of its own. -/
theorem declareClass_eq (name : Token) (parent : Option Reference)
    (methods : List FunctionDecl) :
    declareClass name parent methods = (do
      defineHere name.lexeme .nil
      let superclass ← superclassOf parent
      let frame ← methodFrame superclass
      let methods ← newMethods frame methods
      let id ← newClass ⟨name.lexeme, superclass, .ofList methods⟩
      let frame ← inspect fun m => m.frames.target m.current name
      define frame name.lexeme (.classRef id)) := by
  cases parent <;> rfl

/-- The frame that binds a name itself is where it changes. -/
theorem target_gives {frame : FrameId} {name : Token} (still : m.current = frame)
    (has : m.heap.frames.Has frame name.lexeme) :
    (inspect fun m => m.frames.target m.current name).Gives m frame m := by
  have found : m.frames.owner? m.current name.lexeme = some frame := by
    rw [still]
    exact Frames.owner?_of_has has
  simp [EStateM.Gives, EStateM.run, inspect, Frames.target, found]

/-- A class whose methods are placed is declared with nothing but its name. -/
theorem declareClass_safe {name : Token} {parent : Option Reference}
    {methods : List FunctionDecl} {place place' : Surroundings} (known : Known W)
    (sound : m.heap.Sound W P) (fits : Fits P m.heap.frames views m.current)
    (plain : name.IsPlain) (binds : Binds name true views views')
    (settled : m.current ≠ Machine.globals → (m.current, name.lexeme) ∉ P)
    (located : ∀ reference ∈ parent, reference.IsLocated views') (same : place.views = views')
    (placed : Placed W (.methods methods) (methodsPlace parent.isSome place) place') :
    Safe W (declareClass name parent methods) m fun _ m' =>
      Completed W P m (some name) .normal m' := by
  have inside := fits.inside sound.nonempty
  have nil : m.heap.Valid W P .nil := trivial
  rw [declareClass_eq]
  apply (defineHere_safe sound inside plain nil settled).bind
  rintro - m₁ - still₁ ⟨sound₁, carries₁, has₁⟩
  have fits₁ : Fits P m₁.heap.frames views' m₁.current := by
    rw [still₁]
    exact fits.binds binds plain carries₁.frames (.inl (has₁ name rfl))
  apply (superclassOf_safe sound₁ fits₁ located).bind
  rintro superclass _ - - ⟨rfl, sameParent, valid⟩
  apply (methodFrame_safe sound₁ fits₁ valid).bind
  rintro frame m₂ - still₂ ⟨sound₂, carries₂, fits₂⟩
  have within := methodsPlace_views parent.isSome place
  rw [same, ← sameParent] at within
  rw [← sameParent] at placed
  apply (newMethods_safe known sound₂ placed within fits₂).bind
  rintro made m₃ - still₃ ⟨sound₃, carries₃, bindable⟩
  let record : ClassRecord := ⟨name.lexeme, superclass, .ofList made⟩
  let m₄ := m₃.mapHeap fun heap => { heap with classes := heap.classes.push record }
  have carries₄ : m₃.heap.Carries Nowhere P P m₄.heap := .pushClass record
  have sound₄ : m₄.heap.Sound W P := by
    apply sound₃.pushClass
    intro x method found
    exact bindable _ (Bindings.mem_of_get?_ofList found)
  have later := (carries₂.trans carries₃).trans carries₄
  have carries := carries₁.trans_of later nofun
  have still : m₄.current = m.current := still₃.trans (still₂.trans still₁)
  have has : m₄.heap.frames.Has m.current name.lexeme :=
    later.frames.has _ _ (has₁ name rfl)
  have valid : m₄.heap.Valid W P (.classRef m₃.heap.classes.size) := by
    simp [Heap.Valid, m₄, Machine.mapHeap]
  apply Safe.step (newClass_gives record) rfl
  apply Safe.step (target_gives still has) rfl
  apply Safe.of_gives (define_gives _ _ _) rfl
  refine ⟨?_, carries.trans (.ofFrames (.define (Frames.size_of_has has) (.inr has) ?_)), ?_⟩
  · exact sound₄.define_settled (Frames.size_of_has has) (.inr has) valid plain.2 settled
  · exact fun _ _ => .inl
  · rintro _ ⟨⟩
    exact (Frames.has_define (Frames.size_of_has has)).2 (.inl ⟨rfl, rfl⟩)

/-- Parameters are bound in a frame of their own. -/
theorem defineEach_gives {frame : FrameId} {params : List Token} {arguments : List Value}
    (sound : m.heap.Sound W P) (inside : frame < m.heap.frames.size)
    (plain : ∀ param ∈ params, param.IsPlain) (valid : ∀ v ∈ arguments, m.heap.Valid W P v)
    (settled : ∀ x, (frame, x) ∉ P) (enough : params.length = arguments.length) :
    ∃ m', (defineEach frame params arguments).Gives m () m' ∧ m'.current = m.current ∧
      m'.heap.Sound W P ∧ m.heap.Carries (Inside frame) P P m'.heap ∧
      ∀ param ∈ params, m'.heap.frames.Has frame param.lexeme := by
  induction params generalizing m arguments with
  | nil =>
      cases arguments with
      | nil => exact ⟨m, rfl, rfl, sound, .refl, nofun⟩
      | cons => cases enough
  | cons param params ih =>
      cases arguments with
      | nil => cases enough
      | cons v arguments =>
          let m₁ := m.mapFrames (·.define frame param.lexeme v)
          have isPlain := plain param (by simp)
          have carries₁ : m.heap.Carries (Inside frame) P P m₁.heap :=
            .ofFrames (.define inside (.inl ⟨isPlain, rfl⟩) fun _ _ => .inl)
          have sound₁ : m₁.heap.Sound W P := sound.define_settled inside (.inl isPlain)
            (valid v (by simp)) isPlain.2 fun _ => settled _
          have inside₁ := Nat.lt_of_lt_of_le inside carries₁.frames.size
          obtain ⟨m', run, still, sound', carries', has⟩ := ih sound₁ inside₁
            (fun other among => plain other (by simp [among]))
            (fun w among => (valid w (by simp [among])).carry carries₁)
            (Nat.succ.inj enough)
          refine ⟨m', ?_, still, sound', carries₁.trans carries', ?_⟩
          · simp only [defineEach, bind_gives]
            exact ⟨_, _, define_gives _ _ _, run⟩
          · intro other among
            obtain rfl | among := List.mem_cons.1 among
            · apply carries'.frames.has
              exact (Frames.has_define inside).2 (.inl ⟨rfl, rfl⟩)
            · exact has other among

end TreeWalk
