import TreeWalk.Proofs.Run.Mirroring

/-!
# Methods in the book and on the heap

The book finds the method that the heap finds: that of the first class that declares the
name, and of two methods of one name the one written last. What is bound of it is at home
at the receiver and in the class that declares it, so closures and properties come out of
the book as they come off the machine.
-/

namespace TreeWalk

open Frames

variable {α : Type} {s : Scene}

/-- Of two pairs with one name the later one counts. -/
theorem Bindings.get?_ofList (pairs : List (String × α)) (name : String) :
    (Bindings.ofList pairs).get? name = pairs.reverse.lookup name := by
  have general : ∀ b : Bindings α,
      (pairs.foldl (fun b pair => b.put pair.1 pair.2) b).get? name =
        (pairs.reverse.lookup name).or (b.get? name) := by
    induction pairs with
    | nil => exact fun b => rfl
    | cons pair rest ih =>
        intro b
        rw [List.foldl_cons, ih, Bindings.get?_put, List.reverse_cons, List.lookup_append,
          Option.or_assoc]
        congr 1
        rw [lookup_entry]
        split <;> rfl
  rw [Bindings.ofList, general, get?_empty, Option.or_none]

namespace Scene.Faithful

/-- A class that is not on the heap is not in the book. -/
theorem classes_none (h : s.Faithful) {c : ClassId} (absent : s.machine.heap.classes[c]? = none) :
    s.classes[c]? = none := by
  rw [Array.getElem?_eq_none_iff] at absent ⊢
  rwa [h.classes]

/-- The book finds the method that the heap finds. -/
theorem methodOf_eq (h : s.Faithful) (c : ClassId) (name : String) :
    (methodOf s.classes c name).map Prod.fst = s.machine.heap.method? c name := by
  induction c using Nat.strongRecOn with
  | ind c ih =>
      rw [methodOf, Heap.method?, Heap.lineage, Heap.superclass?]
      cases found : s.machine.heap.classes[c]? with
      | none => simp [h.classes_none found, Heap.ownMethod?, found]
      | some record =>
          obtain ⟨declared, noted, records⟩ := h.records found
          have own : s.machine.heap.ownMethod? c name = declared.methods.reverse.lookup name := by
            rw [Heap.ownMethod?, found, Option.bind_some, records.methods, Bindings.get?_ofList]
          simp only [noted, Option.bind_some, records.superclass]
          cases looked : declared.methods.reverse.lookup name with
          | some method =>
              rw [looked] at own
              cases declared.superclass with
              | none => simp [own]
              | some parent =>
                  dsimp only
                  split <;> simp [own]
          | none =>
              rw [looked] at own
              cases declared.superclass with
              | none => simp [own]
              | some parent =>
                  dsimp only
                  split
                  next smaller => simp [own, ih parent smaller, Heap.method?]
                  next => simp [own]

/-- A method in the book is made in a frame that binds `super` to the superclass of the
class that declares it. -/
theorem methodOf_frame (h : s.Faithful) {c : ClassId} {name : String} {method : ClosureId}
    {superclass : Option ClassId} (found : methodOf s.classes c name = some (method, superclass)) :
    ∃ closure, s.machine.heap.closures[method]? = some closure ∧
      s.machine.frames.local? closure.frame "super" = superclass.map .classRef := by
  induction c using Nat.strongRecOn with
  | ind c ih =>
      rw [methodOf] at found
      cases onHeap : s.machine.heap.classes[c]? with
      | none => simp [h.classes_none onHeap] at found
      | some record =>
          obtain ⟨declared, noted, records⟩ := h.records onHeap
          simp only [noted] at found
          split at found
          next looked =>
            cases found
            rw [← Bindings.get?_ofList] at looked
            exact records.frames (Bindings.mem_of_get?_ofList looked)
          next =>
            split at found
            next => cases found
            next parent _ =>
              split at found
              next smaller => exact ih parent smaller found
              next => cases found

variable {m : Machine} {closure : Closure} {home : Home}

/-- A new closure is put into the book. -/
theorem pushClosure (h : s.Faithful) (inside : closure.frame < s.machine.frames.size)
    (knows : s.machine.frames.Knows closure.frame home) :
    Scene.Faithful { s with
      machine := s.machine.mapHeap fun heap => { heap with closures := heap.closures.push closure }
      homes := s.homes.push home } where
  agreed := h.agreed
  homes := by simp [Machine.mapHeap, h.homes]
  classes := h.classes
  closures {id made} found := by
    rw [Machine.mapHeap, Array.getElem?_push] at found
    rw [Array.getElem?_push, h.homes]
    split at found
    next same =>
      obtain rfl := Option.some.inj found
      exact ⟨inside, home, if_pos same, knows⟩
    next other =>
      obtain ⟨inside, home, noted, knows⟩ := h.closures found
      exact ⟨inside, home, (if_neg other).trans noted, knows⟩
  records {id record} found := by
    obtain ⟨declared, noted, records⟩ := h.records found
    refine ⟨declared, noted, records.keep .refl (fun found => (h.closures found).1) ?_⟩
    intro id old found
    have before := (Array.getElem?_eq_some_iff.1 found).1
    simp [Machine.mapHeap, Array.getElem?_push, Nat.ne_of_lt before, found]
  ordered := h.ordered
  inside := h.inside
  here := h.here
  plain := h.plain

/-- A new class is put into the book as it is declared. -/
theorem pushClass (h : s.Faithful) {record : ClassRecord} {declared : Declared}
    (records : Records s.machine.heap record declared)
    (earlier : ∀ parent ∈ declared.superclass, parent < s.machine.heap.classes.size) :
    Scene.Faithful { s with
      machine := s.machine.mapHeap fun heap => { heap with classes := heap.classes.push record }
      classes := s.classes.push declared } where
  agreed := h.agreed
  homes := h.homes
  classes := by simp [Machine.mapHeap, h.classes]
  closures := h.closures
  records {id other} found := by
    have keep {old : ClassRecord} {noted : Declared} (same : Records s.machine.heap old noted) :
        Records { s.machine.heap with classes := s.machine.heap.classes.push record } old noted :=
      same.keep .refl (fun found => (h.closures found).1) fun found => found
    rw [Machine.mapHeap, Array.getElem?_push] at found
    rw [Array.getElem?_push, h.classes]
    split at found
    next same =>
      obtain rfl := Option.some.inj found
      exact ⟨declared, if_pos same, keep records⟩
    next another =>
      obtain ⟨declared, noted, records⟩ := h.records found
      exact ⟨declared, (if_neg another).trans noted, keep records⟩
  ordered {id other} found := by
    rw [Array.getElem?_push, h.classes] at found
    split at found
    next same =>
      obtain rfl := Option.some.inj found
      rw [same]
      exact earlier
    next => exact h.ordered found
  inside := h.inside
  here := h.here
  plain := h.plain

end Scene.Faithful

open Eval

theorem newClosure_mirrors {closure : Closure} (h : s.Faithful)
    (inside : closure.frame < s.machine.frames.size)
    (knows : s.machine.frames.Knows closure.frame s.home) :
    Mirrors (newClosure closure) (Told.newClosure closure) s :=
  ⟨rfl, ⟨.refl, rfl, rfl⟩, h.pushClosure inside knows⟩

/-- A function keeps the home of the code around it. -/
theorem closeOver_mirrors (h : s.Faithful) (name : Option String) (params : List Token)
    (body : List Stmt) :
    Mirrors (closeOver name params body) (Told.closeOver name params body) s :=
  ⟨rfl, ⟨.refl, rfl, rfl⟩, h.pushClosure h.inside h.here⟩

/-- A method that is bound is at home at the receiver and in the class that declares it. -/
theorem bind_mirrors {method : ClosureId} {closure : Closure} {superclass : Option ClassId}
    (h : s.Faithful) (found : s.machine.heap.closures[method]? = some closure)
    (around : s.machine.frames.local? closure.frame "super" = superclass.map .classRef)
    (receiver : Value) :
    Mirrors (Eval.bind method receiver) (Told.bind method superclass receiver) s := by
  let m := s.machine.mapFrames fun fs =>
    (fs.push (some closure.frame)).define s.machine.frames.size "this" receiver
  let bound : Closure := { closure with frame := s.machine.frames.size }
  let after := m.mapHeap fun heap => { heap with closures := heap.closures.push bound }
  have calm : Calm s.machine m := ⟨rfl, rfl, .pushWith _ _, rfl⟩
  have gives : (Eval.bind method receiver).Gives s.machine s.machine.heap.closures.size after := by
    simp only [Eval.bind, bind_gives]
    exact ⟨_, _, closureOf_gives found, _, _, newFrame_gives _, _, _, define_gives _ _ _, rfl⟩
  have own : Eval.bind method receiver s.machine = .ok s.machine.heap.closures.size after := gives
  have told : Told.bind method superclass receiver s = .ok s.machine.heap.closures.size
      { s with machine := after, homes := s.homes.push ⟨some receiver, superclass⟩ } := by
    simp only [Told.bind, Told.lift, Bind.bind, EStateM.bind, own]
    rfl
  have inside : bound.frame < m.frames.size := lt_size_pushWith _ _ _ _
  have knows : m.frames.Knows bound.frame ⟨some receiver, superclass⟩ :=
    .pushThis (h.closures found).1 receiver around
  refine ⟨?_, ?_, ?_⟩
  · rw [Told.onMachine, told, own]
  · rw [Told.leaves, told]
    exact ⟨calm.keeps, rfl, rfl⟩
  · rw [Told.leaves, told]
    exact (h.calm calm).pushClosure inside knows

/-- What comes out of the book for a method of a class: nothing if no class on the way
declares it, and otherwise a method that can be bound. -/
theorem boundMethod_cases (h : s.Faithful) (c : ClassId) (name : String) (receiver : Value) :
    s.machine.heap.method? c name = none ∧ (Told.boundMethod c name receiver).Gives s none s ∨
      ∃ method superclass, s.machine.heap.method? c name = some method ∧
        Mirrors (Eval.bind method receiver) (Told.bind method superclass receiver) s ∧
        Told.boundMethod c name receiver s = (some <$> Told.bind method superclass receiver) s := by
  have same := h.methodOf_eq c name
  cases found : methodOf s.classes c name with
  | none =>
      rw [found] at same
      refine .inl ⟨same.symm, ?_⟩
      simp only [Told.boundMethod, get_bind_gives, found, pure_gives, and_self]
  | some pair =>
      obtain ⟨method, superclass⟩ := pair
      rw [found] at same
      obtain ⟨closure, made, around⟩ := h.methodOf_frame found
      refine .inr ⟨method, superclass, same.symm, bind_mirrors h made around receiver, ?_⟩
      simp only [Told.boundMethod, get_bind_apply, found, map_eq_pure_bind]

/-- A method of a class as a value. -/
theorem method_mirrors (h : s.Faithful) (c : ClassId) (name : Token) (receiver : Value) :
    Mirrors (do
      match ← findMethod c name.lexeme with
      | some method => return .closure (← Eval.bind method receiver)
      | none => raise .undefinedProperty name) (Told.method c name receiver) s := by
  have own : (findMethod c name.lexeme).Gives s.machine _ s.machine := findMethod_gives _ _
  obtain ⟨none, told⟩ | ⟨method, superclass, found, bound, told⟩ :=
    boundMethod_cases h c name.lexeme receiver
  · rw [none] at own
    exact (Mirrors.lift h (raise_calm .undefinedProperty name)).congr (bind_of_gives own)
      (bind_of_gives told)
  · rw [found] at own
    have value := bound.bind fun id _ _ _ _ h' => Mirrors.pure h' (Value.closure id)
    exact value.congr (bind_of_gives own) (bind_of_map told)

/-- A property of an object is its own field or a method bound to it. -/
theorem property_mirrors (h : s.Faithful) (id : ObjectId) (name : Token) :
    Mirrors (readProperty id name) (Told.property id name) s := by
  refine (Mirrors.lift h (.inspect _)).bind fun record s' _ _ _ h' => ?_
  cases record.fields.get? name.lexeme with
  | some v => exact .pure h' v
  | none => exact method_mirrors h' _ _ _

/-- A comparison of all properties comes out right. -/
theorem Scene.Faithful.checked (h : s.Faithful) :
    Scene.Faithful { s with agreed := s.agreed ∧ Told.propertiesAgree s } :=
  { h with agreed := ⟨h.agreed, fun id name => (property_mirrors h id name).same⟩ }

theorem Mirrors.check {own : Eval α} {told : Told α}
    (next : Mirrors own told { s with agreed := s.agreed ∧ Told.propertiesAgree s }) :
    Mirrors own (Told.checkProperties >>= fun _ => told) s :=
  ⟨next.same, ⟨next.grows.keeps, next.grows.current, next.grows.home⟩, next.faithful⟩

theorem newMethods_mirrors {frame : FrameId} {methods : List FunctionDecl} (h : s.Faithful)
    (inside : frame < s.machine.frames.size) (knows : s.machine.frames.Knows frame s.home) :
    Mirrors (newMethods frame methods) (Told.newMethods frame methods) s := by
  induction methods generalizing s with
  | nil => exact .pure h _
  | cons method rest ih =>
      refine (newClosure_mirrors h inside knows).bind fun id s₁ _ _ grows h₁ => ?_
      have knows₁ : s₁.machine.frames.Knows frame s₁.home := by
        rw [grows.home]
        exact knows.keep grows.keeps inside
      have others := ih h₁ (Nat.lt_of_lt_of_le inside grows.keeps.size) knows₁
      exact others.bind fun made s₂ _ _ _ h₂ => .pure h₂ _

/-- The methods of a class are made in the given frame. No closure is lost on the way, and
no class is made. -/
theorem newMethods_gives {frame : FrameId} {methods : List FunctionDecl}
    {made : List (String × ClosureId)} {m m' : Machine}
    (run : (newMethods frame methods).Gives m made m') :
    m'.heap.classes = m.heap.classes ∧
    (∀ {id : ClosureId} {closure}, m.heap.closures[id]? = some closure →
      m'.heap.closures[id]? = some closure) ∧
    ∀ {name : String} {method : ClosureId}, (name, method) ∈ made →
      ∃ closure, m'.heap.closures[method]? = some closure ∧ closure.frame = frame := by
  induction methods generalizing m made with
  | nil =>
      obtain ⟨rfl, rfl⟩ := pure_gives.1 run
      exact ⟨rfl, id, nofun⟩
  | cons method rest ih =>
      simp only [newMethods, bind_gives, pure_gives] at run
      obtain ⟨_, m₁, first, others, m₂, run', rfl, rfl⟩ := run
      cases first.symm.trans (newClosure_gives _)
      obtain ⟨classes, keeps, frames⟩ := ih run'
      refine ⟨classes, ?_, ?_⟩
      · intro id closure found
        have before := (Array.getElem?_eq_some_iff.1 found).1
        apply keeps
        simp [Machine.mapHeap, Array.getElem?_push, Nat.ne_of_lt before, found]
      · intro name id among
        obtain same | among := List.mem_cons.1 among
        · cases same
          exact ⟨_, keeps (Array.getElem?_push_size ..), rfl⟩
        · exact frames among

/-- The frame in which the methods of a class are made knows the home of the code around
the class, and binds `super` if there is a superclass. -/
theorem methodFrame_knows {superclass : Option ClassId} {frame : FrameId} {m : Machine}
    (h : s.Faithful) (run : (methodFrame superclass).Gives s.machine frame m) :
    frame < m.frames.size ∧ m.frames.Knows frame s.home ∧
      m.frames.local? frame "super" = superclass.map .classRef := by
  cases superclass with
  | none =>
      cases run
      exact ⟨h.inside, h.here, h.plain⟩
  | some parent =>
      cases run
      exact ⟨lt_size_pushWith _ _ _ _, h.here.pushWith h.inside _ (by decide),
        local?_pushWith _ _ _ _⟩

theorem newClass_mirrors (name : String) (declared : Declared) (h : s.Faithful)
    (records : Records s.machine.heap ⟨name, declared.superclass, .ofList declared.methods⟩
      declared)
    (earlier : ∀ parent ∈ declared.superclass, parent < s.machine.heap.classes.size) :
    Mirrors (newClass ⟨name, declared.superclass, .ofList declared.methods⟩)
      (Told.newClass name declared) s :=
  ⟨rfl, ⟨.refl, rfl, rfl⟩, h.pushClass records earlier⟩

/-- The superclass of a class that is being declared was declared before. -/
theorem superclass_earlier {name : String} {parent : Option Reference} {id : ClassId}
    {m m₁ m₂ : Machine} (inside : m.current < m.frames.size)
    (bound : ∀ {j x} {id : ClassId}, m.frames.local? j x = some (.classRef id) →
      id < m.heap.classes.size)
    (run : (defineHere name .nil).Gives m () m₁)
    (run' : (superclassOf parent).Gives m₁ (some id) m₂) : id < m.heap.classes.size := by
  obtain ⟨j, x, isClass⟩ := local?_of_superclassOf run'
  cases run.symm.trans (defineHere_gives _ _)
  change (m.frames.define _ _ _).local? _ _ = _ at isClass
  rw [local?_define _ _ _ _ _ _ inside] at isClass
  split at isClass
  · cases isClass
  · exact bound isClass

/-- A class is put into the book as it is declared. -/
theorem declareClass_mirrors {name : Token} {parent : Option Reference}
    {methods : List FunctionDecl} (h : s.Faithful) (plain : name.IsPlain)
    (bound : ∀ {j x} {id : ClassId}, s.machine.frames.local? j x = some (.classRef id) →
      id < s.machine.heap.classes.size) :
    Mirrors (declareClass name parent methods) (Told.declareClass name parent methods) s := by
  rw [declareClass_eq]
  refine (Mirrors.lift h (defineHere_calm plain _)).bind fun _ s₁ _ run₁ _ h₁ => ?_
  refine (Mirrors.lift h₁ (superclassOf_calm parent)).bind fun superclass s₂ _ run₂ _ h₂ => ?_
  refine (Mirrors.lift h₂ (methodFrame_calm superclass)).bind fun frame s₃ _ run₃ grows h₃ => ?_
  obtain ⟨inside, knows, around⟩ := methodFrame_knows h₂ run₃
  rw [← grows.home] at knows
  refine (newMethods_mirrors h₃ inside knows).bind fun made s₄ _ run₄ grows h₄ => ?_
  obtain ⟨classes, -, frames⟩ := newMethods_gives run₄
  have records : Records s₄.machine.heap ⟨name.lexeme, superclass, .ofList made⟩
      ⟨superclass, made⟩ := by
    refine ⟨rfl, rfl, fun among => ?_⟩
    obtain ⟨closure, found, same⟩ := frames among
    refine ⟨closure, found, ?_⟩
    rw [same, ← around]
    exact grows.keeps.implicit _ inside _ not_isPlainName_super
  have earlier : ∀ id ∈ superclass, id < s₄.machine.heap.classes.size := by
    rintro id rfl
    rw [classes, ((methodFrame_calm _).gives run₃).classes,
      ((superclassOf_calm _).gives run₂).classes, ((defineHere_calm plain _).gives run₁).classes]
    exact superclass_earlier h.inside bound run₁ run₂
  refine (newClass_mirrors _ ⟨superclass, made⟩ h₄ records earlier).bind fun id s₅ _ _ _ h₅ => ?_
  refine (Mirrors.lift h₅ (.inspect _)).bind fun frame s₆ _ _ _ h₆ => ?_
  exact Mirrors.lift h₆ (define_calm plain _ _)

end TreeWalk
