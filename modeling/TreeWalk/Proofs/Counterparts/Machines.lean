import TreeWalk.Proofs.Counterparts.Scopes
import TreeWalk.Proofs.Run.Declarations

/-!
# Machines that differ in their lines

Two machines are alike if everything on them is the same but the lines in the trees of
their closures, and what was printed before. Their elementary steps do the same, or stop
for the same reason at tokens that are counterparts.

## Implementation notes

Closures, classes, objects and frames are numbered in the order in which they are made,
so the values on both sides are not only alike but equal. What was printed before the two
runs may be any text, so that runs can be compared that begin after different ones.
-/

namespace TreeWalk

variable {α α' : Type} {R : Correspondence} {before before' : String}

/-- Two closures are alike. -/
structure Closure.Like (R : Correspondence) (c c' : Closure) : Prop where
  name : c.name = c'.name
  params : List.Forall₂ R.relates c.params c'.params
  body : List.Forall₂ (Stmt.Like R) c.body c'.body
  frame : c.frame = c'.frame
  isInitializer : c.isInitializer = c'.isInitializer

/-- Two runs stop for the same reason, at tokens that are counterparts. -/
inductive Stop.Like (R : Correspondence) : Stop → Stop → Prop
  | error {cause : RuntimeCause} {t u : Token} : R.relates t u →
      Stop.Like R (.error ⟨cause, t⟩) (.error ⟨cause, u⟩)
  | fault {f : Fault} : Stop.Like R (.fault f) (.fault f)
  | outOfFuel : Stop.Like R .outOfFuel .outOfFuel

/-- Two machines are alike, and behind what was printed before, the same was printed. -/
structure Machine.Like (R : Correspondence) (before before' : String) (m m' : Machine) : Prop where
  frames : m.heap.frames = m'.heap.frames
  closures : List.Forall₂ (Closure.Like R) m.heap.closures.toList m'.heap.closures.toList
  classes : m.heap.classes = m'.heap.classes
  objects : m.heap.objects = m'.heap.objects
  current : m.current = m'.current
  output : ∃ printed, m.output = before ++ printed ∧ m'.output = before' ++ printed
  readings : m.readings = m'.readings
  taken : m.taken = m'.taken

theorem getElem?_rel {Q : α → α' → Prop} {row : List α} {row' : List α'}
    (rows : List.Forall₂ Q row row') (i : Nat) : Option.Rel Q row[i]? row'[i]? := by
  induction rows generalizing i with
  | nil => exact .none
  | cons same _ ih =>
    cases i with
    | zero => exact .some same
    | succ i => exact ih i

/-- The lineage of a class is a matter of the classes alone. -/
theorem Heap.lineage_eq {h h' : Heap} (same : h.classes = h'.classes) {c : ClassId} :
    h.lineage c = h'.lineage c := by
  induction c using Nat.strongRecOn with
  | _ c ih =>
    rw [lineage, lineage, superclass?, superclass?, same]
    split
    · rfl
    · split
      next smaller => rw [ih _ smaller]
      next => rfl

namespace Machine.Like

variable {m m' : Machine}

theorem closure (h : Machine.Like R before before' m m') (id : ClosureId) :
    Option.Rel (Closure.Like R) m.heap.closures[id]? m'.heap.closures[id]? := by
  rw [← Array.getElem?_toList, ← Array.getElem?_toList]
  exact getElem?_rel h.closures id

theorem closuresSize (h : Machine.Like R before before' m m') :
    m.heap.closures.size = m'.heap.closures.size :=
  h.closures.length_eq

theorem closureArity (h : Machine.Like R before before' m m') (id : ClosureId) :
    m.heap.closureArity id = m'.heap.closureArity id := by
  have found := h.closure id
  unfold Heap.closureArity
  generalize m.heap.closures[id]? = c, m'.heap.closures[id]? = c' at found
  cases found with
  | none => rfl
  | some same => exact same.params.length_eq

theorem method? (h : Machine.Like R before before' m m') (c : ClassId) (name : String) :
    m.heap.method? c name = m'.heap.method? c name := by
  unfold Heap.method? Heap.ownMethod?
  rw [Heap.lineage_eq h.classes, h.classes]

theorem arity? (h : Machine.Like R before before' m m') (v : Value) :
    m.heap.arity? v = m'.heap.arity? v := by
  cases v with
  | closure id => exact congrArg some (h.closureArity id)
  | classRef id =>
    rw [Heap.arity?, Heap.arity?, h.method? id "init"]
    split
    · exact congrArg some (h.closureArity _)
    · rfl
  | scalar | object | clock => rfl

/-- Values have the same text. -/
theorem text (h : Machine.Like R before before' m m') (v : Value) :
    m.heap.text v = m'.heap.text v := by
  cases v with
  | closure id =>
    have found := h.closure id
    rw [Heap.text, Heap.text]
    generalize m.heap.closures[id]? = c, m'.heap.closures[id]? = c' at found
    cases found with
    | none => rfl
    | some same =>
      rw [Option.bind_some, Option.bind_some, same.name]
  | classRef id => rw [Heap.text, Heap.text, Heap.className, Heap.className, h.classes]
  | object id =>
    rw [Heap.text, Heap.text, h.objects]
    unfold Heap.className
    rw [h.classes]
  | scalar | clock => rfl

/-- Objects have the same fields. -/
theorem fields (h : Machine.Like R before before' m m') (v : Value) :
    m.heap.fields v = m'.heap.fields v := by
  cases v with
  | object id => rw [Heap.fields, Heap.fields, h.objects]
  | scalar | closure | classRef | clock => rfl

theorem mapFrames (h : Machine.Like R before before' m m') (f : Frames Value → Frames Value) :
    Machine.Like R before before' (m.mapFrames f) (m'.mapFrames f) :=
  { h with frames := congrArg f h.frames }

end Machine.Like

namespace Frames

variable {fs : Frames α} {i : FrameId} {t u : Token}

theorem read_rel (h : R.relates t u) :
    Except.Rel (Stop.Like R) Eq (fs.read i t) (fs.read i u) := by
  unfold read
  rw [(R.sameWord h).lexeme]
  split
  · exact .ok rfl
  · exact .error (.error h)

theorem target_rel (h : R.relates t u) :
    Except.Rel (Stop.Like R) Eq (fs.target i t) (fs.target i u) := by
  unfold target
  rw [(R.sameWord h).lexeme]
  split
  · exact .ok rfl
  · exact .error (.error h)

theorem ancestor_rel (fs : Frames α) (i : FrameId) (distance : Nat) :
    Except.Rel (Stop.Like R) Eq (fs.ancestor i distance) (fs.ancestor i distance) := by
  unfold ancestor
  split
  · exact .ok rfl
  · exact .error .fault

theorem readAt_rel (distance : Nat) (h : R.relates t u) :
    Except.Rel (Stop.Like R) Eq (fs.readAt i distance t) (fs.readAt i distance u) :=
  (ancestor_rel fs i distance).bind fun _ _ same => same ▸ read_rel h

theorem targetAt_rel (distance : Nat) (h : R.relates t u) :
    Except.Rel (Stop.Like R) Eq (fs.targetAt i distance t) (fs.targetAt i distance u) :=
  (ancestor_rel fs i distance).bind fun _ _ same => same ▸ target_rel h

end Frames

namespace Eval

/-- Runs are compared on machines that are alike. -/
def likeness (R : Correspondence) (before before' : String) : Likeness Stop Machine :=
  ⟨Machine.Like R before before', Stop.Like R⟩

variable {Q : α → α' → Prop} {x : Eval α} {y : Eval α'} {t u : Token}

theorem raise_paired {cause : RuntimeCause} (h : R.relates t u) :
    Paired (likeness R before before') Q (raise cause t) (raise cause u) :=
  .throw (.error h)

theorem inspect_paired {f : Machine → Except Stop α} {g : Machine → Except Stop α'}
    (h : ∀ m m', Machine.Like R before before' m m' → Except.Rel (Stop.Like R) Q (f m) (g m')) :
    Paired (likeness R before before') Q (inspect f) (inspect g) := by
  intro m m' alike
  have both := h m m' alike
  unfold inspect
  generalize f m = one, g m' = other at both
  cases both with
  | ok same => exact .ok same alike
  | error same => exact .error same alike

theorem operate_paired {one other : Except Stop Value}
    (h : Except.Rel (Stop.Like R) Eq one other) :
    Paired (likeness R before before') Eq (operate one) (operate other) := by
  cases h with
  | ok same => exact .pure same
  | error same => exact .throw same

theorem inFrame_paired (frame : FrameId) (act : Paired (likeness R before before') Q x y) :
    Paired (likeness R before before') Q (inFrame frame x) (inFrame frame y) := by
  intro m m' alike
  have inner : Machine.Like R before before' { m with current := frame }
      { m' with current := frame } :=
    { alike with current := rfl }
  have both := act inner
  unfold inFrame
  generalize x _ = one, y _ = other at both
  cases both with
  | ok same mid => exact .ok same { mid with current := alike.current }
  | error same mid => exact .error same { mid with current := alike.current }

theorem print_paired (line : String) :
    Paired (likeness R before before') Eq (print line) (print line) := by
  refine .modify fun m m' alike => { alike with output := ?_ }
  obtain ⟨printed, cut, cut'⟩ := Machine.Like.output alike
  refine ⟨printed ++ line ++ "\n", ?_, ?_⟩
  · simp only [cut, String.append_assoc]
  · simp only [cut', String.append_assoc]

/-- Both clocks show the same, as they were read equally often. -/
theorem readClock_paired : Paired (likeness R before before') Eq readClock readClock := by
  intro m m' alike
  refine .ok ?_ { alike with taken := congrArg (· + 1) (Machine.Like.taken alike) }
  rw [Machine.Like.readings alike, Machine.Like.taken alike]

theorem newFrame_paired (parent : FrameId) :
    Paired (likeness R before before') Eq (newFrame parent) (newFrame parent) := by
  intro m m' alike
  refine .ok ?_ (Machine.Like.mapFrames alike _)
  exact congrArg Frames.size (Machine.Like.frames alike)

theorem define_paired (frame : FrameId) (name : String) (value : Value) :
    Paired (likeness R before before') Eq (define frame name value) (define frame name value) :=
  .modify fun _ _ alike => Machine.Like.mapFrames alike _

/-- The current frame is the same on both sides. -/
theorem current_paired {f : FrameId → Eval α} {g : FrameId → Eval α'}
    (h : ∀ frame, Paired (likeness R before before') Q (f frame) (g frame)) :
    Paired (likeness R before before') Q (do f (← get).current) (do g (← get).current) := by
  refine Paired.get.bind fun m m' alike => ?_
  rw [Machine.Like.current alike]
  exact h _

theorem defineHere_paired (name : String) (value : Value) :
    Paired (likeness R before before') Eq (defineHere name value) (defineHere name value) :=
  current_paired fun frame => define_paired frame name value

theorem defineEach_paired (frame : FrameId) {params params' : List Token}
    (rows : List.Forall₂ R.relates params params') (arguments : List Value) :
    Paired (likeness R before before') Eq (defineEach frame params arguments)
      (defineEach frame params' arguments) := by
  induction rows generalizing arguments with
  | nil => exact .pure rfl
  | cons same _ ih =>
    cases arguments with
    | nil => exact .pure rfl
    | cons argument arguments =>
      rw [defineEach, defineEach, (R.sameWord same).lexeme]
      exact (define_paired _ _ _).bind_same fun _ => ih arguments

variable {r r' : Reference}

theorem readReference_paired (h : r.Like R r') :
    Paired (likeness R before before') Eq (readReference r) (readReference r') := by
  refine inspect_paired fun m m' alike => ?_
  rw [h.distance, show m.frames = m'.frames from alike.frames, alike.current]
  split
  · exact Frames.readAt_rel _ h.name
  · exact Frames.read_rel h.name

theorem writeReference_paired (h : r.Like R r') (value : Value) :
    Paired (likeness R before before') Eq (writeReference r value) (writeReference r' value) := by
  refine Paired.bind_same (inspect_paired fun m m' alike => ?_) fun frame => ?_
  · rw [h.distance, show m.frames = m'.frames from alike.frames, alike.current]
    split
    · exact Frames.targetAt_rel _ h.name
    · exact Frames.target_rel h.name
  · rw [(R.sameWord h.name).lexeme]
    exact define_paired _ _ _

theorem thisOf_paired (frame : FrameId) :
    Paired (likeness R before before') Eq (thisOf frame) (thisOf frame) := by
  refine inspect_paired fun m m' alike => ?_
  rw [show m.frames = m'.frames from alike.frames]
  split
  · exact .ok rfl
  · exact .error .fault

theorem closureOf_paired (id : ClosureId) :
    Paired (likeness R before before') (Closure.Like R) (closureOf id) (closureOf id) := by
  refine inspect_paired fun m m' alike => ?_
  have found := alike.closure id
  generalize m.heap.closures[id]? = c, m'.heap.closures[id]? = c' at found
  cases found with
  | none => exact .error .fault
  | some same => exact .ok same

theorem newClosure_paired {c c' : Closure} (h : c.Like R c') :
    Paired (likeness R before before') Eq (newClosure c) (newClosure c') := by
  intro m m' alike
  refine .ok (Machine.Like.closuresSize alike) { alike with closures := ?_ }
  show List.Forall₂ _ (m.heap.closures.push c).toList (m'.heap.closures.push c').toList
  rw [Array.toList_push, Array.toList_push]
  exact List.rel_append (Machine.Like.closures alike) (.cons h .nil)

theorem newClass_paired (record : ClassRecord) :
    Paired (likeness R before before') Eq (newClass record) (newClass record) := by
  intro m m' alike
  have classes := Machine.Like.classes alike
  exact .ok (congrArg Array.size classes)
    { alike with classes := congrArg (Array.push · record) classes }

theorem newObject_paired (classId : ClassId) :
    Paired (likeness R before before') Eq (newObject classId) (newObject classId) := by
  intro m m' alike
  have objects := Machine.Like.objects alike
  exact .ok (congrArg Array.size objects)
    { alike with objects := congrArg (Array.push · _) objects }

theorem bind_paired (method : ClosureId) (receiver : Value) :
    Paired (likeness R before before') Eq (bind method receiver) (bind method receiver) := by
  refine (closureOf_paired method).bind fun c c' closure => ?_
  rw [closure.frame]
  exact (newFrame_paired _).bind_same fun frame => (define_paired frame _ _).bind_same fun _ =>
    newClosure_paired { closure with frame := rfl }

theorem findMethod_paired (classId : ClassId) (name : String) :
    Paired (likeness R before before') Eq (findMethod classId name) (findMethod classId name) :=
  inspect_paired fun _ _ alike => .ok (alike.method? classId name)

theorem objectOf_paired (id : ObjectId) :
    Paired (likeness R before before') Eq (objectOf id) (objectOf id) := by
  refine inspect_paired fun m m' alike => ?_
  rw [alike.objects]
  split
  · exact .ok rfl
  · exact .error .fault

/-- A method is bound if it was found, and a missing one is an error at the token. -/
theorem boundMethod_paired (h : R.relates t u) (method : Option ClosureId) (receiver : Value) :
    Paired (likeness R before before') Eq
      (match method with
        | some method => return .closure (← bind method receiver)
        | none => raise .undefinedProperty t : Eval Value)
      (match method with
        | some method => return .closure (← bind method receiver)
        | none => raise .undefinedProperty u) := by
  cases method with
  | some method => exact (bind_paired method receiver).bind_same fun _ => .pure rfl
  | none => exact raise_paired h

theorem readProperty_paired (id : ObjectId) (h : R.relates t u) :
    Paired (likeness R before before') Eq (readProperty id t) (readProperty id u) := by
  refine (objectOf_paired id).bind_same fun record => ?_
  rw [(R.sameWord h).lexeme]
  split
  · exact .pure rfl
  · exact (findMethod_paired _ _).bind_same fun method => boundMethod_paired h method _

theorem writeField_paired (id : ObjectId) (name : String) (value : Value) :
    Paired (likeness R before before') Eq (writeField id name value)
      (writeField id name value) := by
  refine .modify fun m m' alike => { alike with objects := ?_ }
  unfold Machine.mapHeap
  dsimp only
  rw [Machine.Like.objects alike]

theorem readSuper_paired (h : r.Like R r') (method : R.relates t u) :
    Paired (likeness R before before') Eq (readSuper r t) (readSuper r' u) := by
  unfold readSuper
  rw [h.distance]
  split
  · exact .throw .fault
  · refine (readReference_paired h).bind_same fun parent =>
      Paired.bind_same (inspect_paired fun m m' alike => ?_) fun frame =>
      (thisOf_paired frame).bind_same fun receiver => ?_
    · rw [show m.frames = m'.frames from alike.frames, alike.current]
      exact Frames.ancestor_rel _ _ _
    · split
      · rw [(R.sameWord method).lexeme]
        exact (findMethod_paired _ _).bind_same fun found => boundMethod_paired method found _
      · exact .throw .fault

theorem readClass_paired (h : r.Like R r') :
    Paired (likeness R before before') Eq (readClass r) (readClass r') := by
  refine (readReference_paired h).bind_same fun parent => ?_
  split
  · exact .pure rfl
  · exact raise_paired h.name

theorem methodFrame_paired (parent : Option ClassId) :
    Paired (likeness R before before') Eq (methodFrame parent) (methodFrame parent) := by
  cases parent with
  | none => exact current_paired (f := pure) (g := pure) fun _ => .pure rfl
  | some parent =>
    refine Paired.get.bind fun m m' alike => ?_
    rw [Machine.Like.current alike]
    exact (newFrame_paired _).bind_same fun frame => (define_paired frame _ _).bind_same fun _ =>
      .pure rfl

theorem newMethods_paired (frame : FrameId) {methods methods' : List FunctionDecl}
    (rows : List.Forall₂ (FunctionDecl.Like R) methods methods') :
    Paired (likeness R before before') Eq (newMethods frame methods)
      (newMethods frame methods') := by
  induction rows with
  | nil => exact .pure rfl
  | cons same _ ih =>
    cases same with
    | mk name params body =>
      simp only [newMethods, FunctionDecl.name, FunctionDecl.params, FunctionDecl.body,
        (R.sameWord name).lexeme]
      refine (newClosure_paired ?_).bind_same fun id => ih.bind_same fun _ => .pure rfl
      exact ⟨rfl, params, body, rfl, rfl⟩

theorem superclassOf_paired {parent parent' : Option Reference}
    (h : Option.Rel (Reference.Like R) parent parent') :
    Paired (likeness R before before') Eq (superclassOf parent) (superclassOf parent') := by
  cases h with
  | none => exact .pure rfl
  | some same => exact (readClass_paired same).map fun _ _ => congrArg some

theorem declareClass_paired (h : R.relates t u) {parent parent' : Option Reference}
    (same : Option.Rel (Reference.Like R) parent parent') {methods methods' : List FunctionDecl}
    (rows : List.Forall₂ (FunctionDecl.Like R) methods methods') :
    Paired (likeness R before before') Eq (declareClass t parent methods)
      (declareClass u parent' methods') := by
  rw [declareClass_eq, declareClass_eq, (R.sameWord h).lexeme]
  refine (defineHere_paired _ _).bind_same fun _ => (superclassOf_paired same).bind_same
    fun superclass => (methodFrame_paired superclass).bind_same fun frame =>
    (newMethods_paired frame rows).bind_same fun methods => (newClass_paired _).bind_same
    fun id => Paired.bind_same (inspect_paired fun m m' alike => ?_) fun frame =>
    define_paired _ _ _
  rw [show m.frames = m'.frames from alike.frames, alike.current]
  exact Frames.target_rel h

end Eval

end TreeWalk
