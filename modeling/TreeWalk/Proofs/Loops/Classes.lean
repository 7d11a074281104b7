import TreeWalk.Proofs.Loops.Operating

/-!
# Closures and classes agree but for the frames of passes

Methods are found, bound and declared in the same way without the frames of passes. The method
that `super` looks for is bound to what the frame just inside the one of `super` binds to `this`.
If that frame were the frame of a pass the run would end in a fault.
-/

namespace TreeWalk

namespace Erasure

open Eval

variable {α β : Type} {E E' : Erasure} {m m' d : Machine} {h g : Heap} {shape : Shape}
  {i j : FrameId} {v : Value} {Q : Knowing α β}

theorem closureOf_agrees {id : ClosureId} {isMethod : Bool} (inside : id < m.heap.closures.size)
    (known : E.isMethod id = isMethod) :
    E.Agrees m (Stripped isMethod) (closureOf id) (closureOf id) := by
  apply Agrees.inspect
  intro E' m' d' onward strips
  rw [strips.heap.closures id]
  cases found : m'.heap.closures[id]? with
  | none => exact .fault
  | some closure =>
      refine .ok ⟨strips.heap.inside found, ?_⟩
      rw [onward.heap.isMethod id inside, known]

/-- A closure whose frame is another one is stripped if its body is thinned for that one. -/
theorem Stands.stripped (stands : Stands shape E h i j) (isMethod : Bool) (c : Closure) :
    Stripped isMethod E h { c with frame := i }
      { c with
        body := Stmt.thinEach (shape.around isMethod).inRoutine c.body
        frame := j } := by
  refine ⟨stands.inside, ?_⟩
  rw [strip, stands.shape, stands.place]

/-- A method that is bound is a value. -/
theorem bind_agrees {method : ClosureId} (inside : method < m.heap.closures.size)
    (isMethod : E.isMethod method = true) (ready : E.Ready m.heap v) :
    E.Agrees m (fun E' h id id' => Same E' h (.closure id) (.closure id')) (bind method v)
      (bind method v) := by
  refine (closureOf_agrees inside isMethod).bind fun {E₁ m₁ c _} onward₁ closure => ?_
  obtain ⟨inside₁, rfl⟩ := closure
  refine (newFrame_agrees inside₁).bind fun {E₂ m₂ i j} onward₂ stands => ?_
  have kept := isPass_of_shape stands.shape
  have ready₂ := (onward₁.heap.trans onward₂.heap).ready ready
  rw [stands.place]
  refine (define_agrees stands.inside kept ready₂).bind fun {E₃ m₃ _ _} onward₃ _ => ?_
  rw [← stands.place]
  have stripped := (stands.later onward₃.heap).stripped false c
  refine (newClosure_agrees stripped).imp fun _ made => ?_
  obtain ⟨same, within, isBound⟩ := made
  exact ⟨congrArg Value.closure same, within, isBound⟩

theorem closeOver_agrees (name : Option String) (params : List Token) (body : List Stmt) :
    E.Agrees m Same (closeOver name params body)
      (closeOver name params
        (Stmt.thinEach (E.shape m.heap.frames m.current).inRoutine body)) := by
  refine .here fun inside => ?_
  have stands : Stands (E.shape m.heap.frames m.current) E m.heap m.current (E.place m.current) :=
    ⟨inside, rfl, rfl⟩
  have stripped := stands.stripped false ⟨name, params, body, m.current, false⟩
  apply Agrees.current
    (f := fun i => do return Value.closure (← newClosure ⟨name, params, body, i, false⟩))
    (g := fun i => do return Value.closure (← newClosure ⟨name, params, _, i, false⟩))
  refine (newClosure_agrees stripped).bind fun {_ _ id id'} _ known => .pure fun later => ?_
  exact ⟨congrArg Value.closure known.1, later.heap.ready (v := .closure id) known.2⟩

theorem findMethod_agrees (c : ClassId) (name : String) :
    E.Agrees m (SameMethods Option.toList) (findMethod c name) (findMethod c name) := by
  apply Agrees.inspect
  intro E' m' d' _ strips
  refine .ok ⟨strips.heap.method? c name, fun id among => ?_⟩
  exact strips.heap.isMethod_of_method? (Option.mem_toList.1 among)

/-- A method is bound if it was found. -/
theorem boundMethod_agrees (found found' : Option ClosureId) (ready : E.Ready m.heap v)
    (name : Token) :
    SameMethods Option.toList E m.heap found found' → E.Agrees m Same
      (match found with
        | some method => return .closure (← bind method v)
        | none => raise .undefinedProperty name : Eval Value)
      (match found' with
        | some method => return .closure (← bind method v)
        | none => raise .undefinedProperty name) := by
  rintro ⟨rfl, methods⟩
  cases found' with
  | none => exact .throw _
  | some method =>
      obtain ⟨inside, isMethod⟩ := methods method (Option.mem_toList.2 rfl)
      refine (bind_agrees inside isMethod ready).bind fun _ same => .pure fun later => ?_
      exact ⟨same.1, later.heap.ready same.2⟩

theorem objectOf_agrees (o : ObjectId) :
    E.Agrees m (fun E' h r r' => r' = r ∧ ∀ x v, r.fields.get? x = some v → E'.Ready h v)
      (objectOf o) (objectOf o) := by
  apply Agrees.inspect
  intro E' m' d' _ strips
  rw [strips.heap.objects]
  cases found : m'.heap.objects[o]? with
  | none => exact .fault
  | some record => exact .ok ⟨rfl, fun x v => strips.heap.fields found⟩

theorem readProperty_agrees (o : ObjectId) (name : Token) :
    E.Agrees m Same (readProperty o name) (readProperty o name) := by
  refine (objectOf_agrees o).bind fun {E₁ m₁ _ record} _ known => ?_
  obtain ⟨rfl, fields⟩ := known
  cases held : record.fields.get? name.lexeme with
  | some v => exact .pure fun later => ⟨rfl, later.heap.ready (fields _ v held)⟩
  | none =>
      exact (findMethod_agrees _ _).bind fun _ known =>
        boundMethod_agrees (v := .object o) _ _ trivial name known

theorem getElem?_shape {fs : Frames Value} {k : Nat} {p : FrameId}
    (link : fs.ancestor? i k = some p) : (E.shape fs i)[k]? = some (E.isPass p) := by
  rw [shape, List.getElem?_map, show (fs.chain i)[k]? = some p from link, Option.map_some]

/-- If the frame just inside the one at a distance is not that of a pass its place is just inside
the place of that one. -/
theorem Strips.inner_sees (strips : E.Strips h g) (inside : i < h.frames.size) (distance : Nat)
    (kept : (E.shape h.frames i)[distance - 1]? ≠ some true) :
    Sees (fun p q => p < h.frames.size ∧ q = E.place p) (h.frames.ancestor i (distance - 1))
      (g.frames.ancestor (E.place i) ((E.shape h.frames i).thin distance - 1)) := by
  cases link : h.frames.ancestor? i (distance - 1) with
  | none =>
      rw [Frames.ancestor, link]
      exact .fault
  | some p =>
      have isPass := getElem?_shape (E := E) link
      have thinned : (E.shape h.frames i).thin (distance - 1) =
          (E.shape h.frames i).thin distance - 1 := by
        cases distance with
        | zero => rw [Shape.thin_zero]
        | succ distance =>
            rw [Nat.add_sub_cancel] at isPass kept ⊢
            rw [isPass] at kept
            have outward : (E.shape h.frames i)[distance]? = some false := by
              rw [isPass]
              simpa using kept
            rw [Shape.thin_succ outward, Nat.add_sub_cancel]
      rw [← thinned]
      exact strips.ancestor_sees inside (distance - 1)

/-- The receiver of a method is in the frame just inside the one at the distance of `super`. -/
theorem receiver_agrees (distance : Nat) {f : Value → Eval α} {g : Value → Eval β}
    (next : ∀ {E' m' v}, E.Onward m E' m' → E'.Ready m'.heap v → E'.Agrees m' Q (f v) (g v)) :
    E.Agrees m Q
      (do
        let frame ← inspect fun m' => m'.frames.ancestor m'.current (distance - 1)
        f (← thisOf frame))
      (do
        let frame ← inspect fun d' => d'.frames.ancestor d'.current
          ((E.shape m.heap.frames m.current).thin distance - 1)
        g (← thisOf frame)) := by
  by_cases pass : (E.shape m.heap.frames m.current)[distance - 1]? = some true
  · intro E' m' d' onward strips
    obtain ⟨p, link, isPass⟩ : ∃ p, m'.frames.ancestor? m'.current (distance - 1) = some p ∧
        E'.isPass p = true := by
      rw [← onward.shape_eq, shape, List.getElem?_map] at pass
      exact Option.map_eq_some_iff.1 pass
    have looked :
        (inspect fun m' => m'.frames.ancestor m'.current (distance - 1)).Gives m' p m' := by
      rw [inspect_gives, Frames.ancestor, link]
      exact ⟨rfl, rfl⟩
    have within := (strips.heap.frames.ancestor? strips.inside link).1
    have missing : thisOf p m' = .error (.fault .missingThis) m' := by
      have unbound : m'.frames.local? p "this" = none := strips.heap.frames.empty within isPass _
      rw [thisOf, inspect, unbound]
    rw [bind_of_gives looked, bind_of_error missing]
    exact .fault
  · have found : E.Agrees m (fun E' h i j => i < h.frames.size ∧ j = E'.place i)
        (inspect fun m' => m'.frames.ancestor m'.current (distance - 1))
        (inspect fun d' => d'.frames.ancestor d'.current
          ((E.shape m.heap.frames m.current).thin distance - 1)) := by
      apply Agrees.inspect
      intro E' m' d' onward strips
      rw [← onward.shape_eq] at pass ⊢
      rw [strips.current]
      exact strips.heap.inner_sees strips.inside distance pass
    refine found.bind fun {E₁ m₁ i j} onward known => ?_
    obtain ⟨inside, rfl⟩ := known
    refine (thisOf_agrees inside).value fun v onward₂ ready => ?_
    exact next (onward.trans onward₂) ready

theorem readSuper_agrees (reference : Reference) (method : Token) :
    E.Agrees m Same (readSuper reference method)
      (readSuper (reference.thin (E.shape m.heap.frames m.current)) method) := by
  have read := readReference_agrees (E := E) (m := m) reference
  rw [readSuper, readSuper]
  revert read
  cases located : reference.distance with
  | none =>
      intro _
      rw [Reference.thin, located]
      exact .fault _
  | some distance =>
      intro read
      rw [show (reference.thin (E.shape m.heap.frames m.current)).distance =
        some ((E.shape m.heap.frames m.current).thin distance) by rw [Reference.thin, located]; rfl]
      refine read.value fun parent onward _ => ?_
      rw [← onward.shape_eq]
      refine receiver_agrees distance fun {E₂ m₂ receiver} _ ready => ?_
      cases parent with
      | classRef c =>
          exact (findMethod_agrees c method.lexeme).bind fun later known =>
            boundMethod_agrees _ _ (later.heap.ready ready) method known
      | scalar | closure | object | clock => exact .fault _

/-- The superclass of a class is the same one. -/
theorem superclassOf_agrees (parent : Option Reference) :
    E.Agrees m (fun _ _ c c' => c' = c ∧ c.isSome = parent.isSome) (superclassOf parent)
      (superclassOf (parent.map (Reference.thin (E.shape m.heap.frames m.current)))) := by
  cases parent with
  | none => exact .pure fun _ => ⟨rfl, rfl⟩
  | some reference =>
      have named : E.Agrees m Equal (readClass reference)
          (readClass (reference.thin (E.shape m.heap.frames m.current))) := by
        refine (readReference_agrees reference).value fun v _ _ => ?_
        cases v with
        | classRef c => exact .pure fun _ => rfl
        | scalar | closure | object | clock => exact .throw _
      rw [Option.map_some, superclassOf, superclassOf, map_eq_pure_bind, map_eq_pure_bind]
      exact named.bind fun _ same => .pure fun _ => ⟨congrArg some same, rfl⟩

/-- The frame in which methods are made. -/
theorem methodFrame_agrees (superclass : Option ClassId) :
    E.Agrees m
      (Stands (if superclass.isSome then false :: E.shape m.heap.frames m.current
        else E.shape m.heap.frames m.current))
      (methodFrame superclass) (methodFrame superclass) := by
  refine .here fun inside => ?_
  cases superclass with
  | none =>
      apply Agrees.current (f := fun i => pure i) (g := fun i => pure i)
      exact .pure fun onward => Stands.later ⟨inside, rfl, rfl⟩ onward.heap
  | some c =>
      let make : FrameId → Eval FrameId := fun i => do
        let frame ← newFrame i
        define frame "super" (.classRef c)
        return frame
      apply Agrees.current (f := make) (g := make)
      refine (newFrame_agrees inside).bind fun {E₁ m₁ i j} _ stands => ?_
      have kept := isPass_of_shape stands.shape
      obtain rfl := stands.place
      refine (define_agrees (v := .classRef c) stands.inside kept trivial).bind fun later _ =>
        .pure fun onward => ?_
      exact stands.later (later.heap.trans onward.heap)

/-- The methods of a class are made with bodies that will be seen from inside of one more frame. -/
theorem newMethods_agrees (stands : Stands shape E m.heap i j) (methods : List FunctionDecl) :
    E.Agrees m (SameMethods (List.map Prod.snd)) (newMethods i methods)
      (newMethods j (FunctionDecl.thinEach (false :: shape) methods)) := by
  induction methods generalizing E m with
  | nil => exact .pure fun _ => ⟨rfl, nofun⟩
  | cons method rest ih =>
      obtain ⟨name, params, body⟩ := method
      have stripped := stands.stripped true
        ⟨some name.lexeme, params, body, i, name.lexeme = "init"⟩
      refine (newClosure_agrees stripped).bind fun {E₁ m₁ id _} onward known => ?_
      obtain ⟨rfl, made⟩ := known
      refine (ih (stands.later onward.heap)).bind fun {E₂ m₂ _ row} onward₂ known => ?_
      obtain ⟨rfl, methods⟩ := known
      refine .pure fun {E₃ m₃} onward₃ => ⟨rfl, fun other among => ?_⟩
      obtain rfl | among := List.mem_cons.1 among
      · exact onward₃.heap.knows (onward₂.heap.knows made)
      · exact onward₃.heap.knows (methods other among)

theorem finishClass_agrees (name : Token) (methods : List FunctionDecl)
    (superclass : Option ClassId) :
    E.Agrees m Equal (finishClass name methods superclass)
      (finishClass name (FunctionDecl.thinEach
        ((E.shape m.heap.frames m.current).inClass superclass.isSome) methods) superclass) := by
  refine (methodFrame_agrees superclass).bind fun {E₁ m₁ i j} _ stands => ?_
  refine (newMethods_agrees stands methods).bind fun {E₂ m₂ _ made} _ known => ?_
  obtain ⟨rfl, each⟩ := known
  have table : ∀ {x method}, (Bindings.ofList made).get? x = some method →
      method < m₂.heap.closures.size ∧ E₂.isMethod method = true := by
    intro x method declared
    exact each method (List.mem_map_of_mem (Bindings.mem_of_get?_ofList declared))
  refine (newClass_agrees ⟨name.lexeme, superclass, .ofList made⟩ table).bind
    fun {E₃ m₃ _ id} _ same => ?_
  obtain rfl := same
  have found : E₃.Agrees m₃
      (fun E' h i j => i < h.frames.size ∧ j = E'.place i ∧ E'.isPass i = false)
      (inspect fun m' => m'.frames.target m'.current name)
      (inspect fun d' => d'.frames.target d'.current name) := by
    apply Agrees.inspect
    intro E' m' d' _ strips
    rw [strips.current]
    exact strips.heap.target_sees strips.inside name
  refine found.bind fun {E₄ m₄ i j} _ known => ?_
  obtain ⟨within, rfl, kept⟩ := known
  exact define_agrees (v := .classRef _) within kept trivial

theorem declareClass_agrees (name : Token) (parent : Option Reference)
    (methods : List FunctionDecl) (kept : E.isPass m.current = false) :
    E.Agrees m Equal (declareClass name parent methods)
      (declareClass name (parent.map (Reference.thin (E.shape m.heap.frames m.current)))
        (FunctionDecl.thinEach
          ((E.shape m.heap.frames m.current).inClass parent.isSome) methods)) := by
  rw [declareClass_finish, declareClass_finish]
  refine (defineHere_agrees (v := .nil) kept trivial name.lexeme).bind
    fun {E₁ m₁ _ _} onward _ => ?_
  rw [← onward.shape_eq]
  refine (superclassOf_agrees parent).bind fun {E₂ m₂ _ superclass} onward₂ known => ?_
  obtain ⟨rfl, same⟩ := known
  rw [← onward₂.shape_eq, ← same]
  exact finishClass_agrees name methods superclass

end Erasure

end TreeWalk
