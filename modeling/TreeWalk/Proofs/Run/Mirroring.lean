import TreeWalk.Proofs.Run.Keeping
import TreeWalk.Proofs.Run.Staying

/-!
# The book is right

A scene is faithful if what its book says is what the heap and the frames of its machine
hold. A step from the book mirrors one of the machine if both do the same to the machine
and the scene stays faithful.

## Implementation notes

The closures of methods are never called; only what is bound of them is. Their frame is
the one that binds `super`, or the frame of the declaration if there is no superclass,
and so it knows the home of the code around the class and not that of its methods.
-/

namespace TreeWalk

open Frames

variable {α β : Type} {s s' s'' : Scene} {m m' m'' : Machine}

/-- A class on the heap is the one in the book, and its methods are made in a frame that
binds `super` as the book says. -/
structure Records (h : Heap) (record : ClassRecord) (declared : Declared) : Prop where
  superclass : record.superclass = declared.superclass
  methods : record.methods = .ofList declared.methods
  frames : ∀ {name : String} {method : ClosureId}, (name, method) ∈ declared.methods →
    ∃ closure, h.closures[method]? = some closure ∧
      h.frames.local? closure.frame "super" = declared.superclass.map .classRef

/-- The book of a scene is right, and the current frame knows the home of the code. -/
structure Scene.Faithful (s : Scene) : Prop where
  agreed : s.agreed
  homes : s.homes.size = s.machine.heap.closures.size
  classes : s.classes.size = s.machine.heap.classes.size
  closures : ∀ {id : ClosureId} {closure}, s.machine.heap.closures[id]? = some closure →
    closure.frame < s.machine.frames.size ∧
      ∃ home, s.homes[id]? = some home ∧ s.machine.frames.Knows closure.frame home
  records : ∀ {id : ClassId} {record}, s.machine.heap.classes[id]? = some record →
    ∃ declared, s.classes[id]? = some declared ∧ Records s.machine.heap record declared
  ordered : ∀ {id : ClassId} {declared}, s.classes[id]? = some declared →
    ∀ parent ∈ declared.superclass, parent < id
  inside : s.machine.current < s.machine.frames.size
  here : s.machine.frames.Knows s.machine.current s.home
  plain : s.machine.frames.local? s.machine.current "super" = none

/-- What a step leaves as it is. -/
structure Scene.Grows (s s' : Scene) : Prop where
  keeps : s.machine.frames.Keeps s'.machine.frames
  current : s'.machine.current = s.machine.current
  home : s'.home = s.home

theorem Scene.Grows.refl : s.Grows s := ⟨.refl, rfl, rfl⟩

theorem Scene.Grows.trans (h : s.Grows s') (h' : s'.Grows s'') : s.Grows s'' :=
  ⟨h.keeps.trans h'.keeps, h'.current.trans h.current, h'.home.trans h.home⟩

theorem Records.keep {h h' : Heap} {record : ClassRecord} {declared : Declared}
    (records : Records h record declared) (keeps : h.frames.Keeps h'.frames)
    (inside : ∀ {id : ClosureId} {closure}, h.closures[id]? = some closure →
      closure.frame < h.frames.size)
    (closures : ∀ {id : ClosureId} {closure}, h.closures[id]? = some closure →
      h'.closures[id]? = some closure) : Records h' record declared where
  superclass := records.superclass
  methods := records.methods
  frames among := by
    obtain ⟨closure, found, around⟩ := records.frames among
    refine ⟨closure, closures found, ?_⟩
    rw [keeps.implicit _ (inside found) _ not_isPlainName_super, around]

/-- Two machines differ in no closure and no class, and frames are kept. -/
structure Calm (m m' : Machine) : Prop where
  closures : m'.heap.closures = m.heap.closures
  classes : m'.heap.classes = m.heap.classes
  keeps : m.frames.Keeps m'.frames
  current : m'.current = m.current

instance : IsPreorder Machine Calm where
  refl _ := ⟨rfl, rfl, .refl, rfl⟩
  trans _ _ _ h h' :=
    ⟨h'.closures.trans h.closures, h'.classes.trans h.classes, h.keeps.trans h'.keeps,
      h'.current.trans h.current⟩

/-- A faithful scene stays faithful when its machine changes calmly. -/
theorem Scene.Faithful.calm (h : s.Faithful) (calm : Calm s.machine m) :
    Scene.Faithful { s with machine := m } where
  agreed := h.agreed
  homes := h.homes.trans (congrArg Array.size calm.closures).symm
  classes := h.classes.trans (congrArg Array.size calm.classes).symm
  closures {id closure} found := by
    rw [show m.heap.closures = s.machine.heap.closures from calm.closures] at found
    obtain ⟨inside, home, noted, knows⟩ := h.closures found
    exact ⟨Nat.lt_of_lt_of_le inside calm.keeps.size, home, noted, knows.keep calm.keeps inside⟩
  records {id record} found := by
    rw [show m.heap.classes = s.machine.heap.classes from calm.classes] at found
    obtain ⟨declared, noted, records⟩ := h.records found
    refine ⟨declared, noted, records.keep calm.keeps (fun found => (h.closures found).1) ?_⟩
    intro id closure found
    rwa [calm.closures]
  ordered := h.ordered
  inside := by
    rw [show m.current = s.machine.current from calm.current]
    exact Nat.lt_of_lt_of_le h.inside calm.keeps.size
  here := by
    rw [show m.current = s.machine.current from calm.current]
    exact h.here.keep calm.keeps h.inside
  plain := by
    rw [show m.current = s.machine.current from calm.current]
    exact (calm.keeps.implicit _ h.inside _ not_isPlainName_super).trans h.plain

/-- A step of the machine that makes no closure and no class and binds neither `this` nor
`super` in a frame that is there already. -/
abbrev Eval.IsCalm (act : Eval α) : Prop := act.Leaves Calm

section Steps

open Eval

theorem raise_calm (cause : RuntimeCause) (token : Token) : (raise cause token : Eval α).IsCalm :=
  .throw _

theorem operate_calm (result : Except Stop Value) : (operate result).IsCalm := by
  cases result with
  | ok => exact .pure _
  | error => exact .throw _

theorem print_calm (line : String) : (print line).IsCalm := fun _ => ⟨rfl, rfl, .refl, rfl⟩

theorem readClock_calm : readClock.IsCalm := fun _ => ⟨rfl, rfl, .refl, rfl⟩

theorem newFrame_calm (parent : FrameId) : (newFrame parent).IsCalm :=
  fun _ => ⟨rfl, rfl, .push _, rfl⟩

theorem define_calm {name : String} (plain : IsPlainName name) (frame : FrameId) (value : Value) :
    (define frame name value).IsCalm :=
  fun _ => ⟨rfl, rfl, .define _ plain, rfl⟩

theorem defineHere_calm {name : String} (plain : IsPlainName name) (value : Value) :
    (defineHere name value).IsCalm :=
  .bind .get fun _ => define_calm plain _ _

theorem defineEach_calm {params : List Token} (plain : ∀ param ∈ params, param.IsPlain)
    (frame : FrameId) (arguments : List Value) : (defineEach frame params arguments).IsCalm := by
  induction params generalizing arguments with
  | nil => exact .pure _
  | cons param params ih =>
      cases arguments with
      | nil => exact .pure _
      | cons argument arguments =>
          exact .bind (define_calm (plain param List.mem_cons_self) _ _)
            fun _ => ih (fun other among => plain other (List.mem_cons_of_mem _ among)) arguments

theorem readReference_calm (reference : Reference) : (readReference reference).IsCalm :=
  .inspect _

theorem writeReference_calm {reference : Reference} (plain : reference.name.IsPlain)
    (value : Value) : (writeReference reference value).IsCalm :=
  .bind (.inspect _) fun _ => define_calm plain _ _

theorem newObject_calm (classId : ClassId) : (newObject classId).IsCalm :=
  fun _ => ⟨rfl, rfl, .refl, rfl⟩

theorem writeField_calm (id : ObjectId) (name : String) (value : Value) :
    (writeField id name value).IsCalm :=
  fun _ => ⟨rfl, rfl, .refl, rfl⟩

theorem calleeArity_calm (callee : Value) (paren : Token) : (calleeArity callee paren).IsCalm :=
  .inspect _

theorem superclassOf_calm (parent : Option Reference) : (superclassOf parent).IsCalm := by
  cases parent with
  | none => exact .pure _
  | some reference =>
      refine .map (.bind (readReference_calm _) fun value => ?_)
      split
      · exact .pure _
      · exact raise_calm _ _

/-- The frame of the methods of a class is new or the current one. -/
theorem methodFrame_calm (parent : Option ClassId) : (methodFrame parent).IsCalm := by
  cases parent with
  | none => exact .bind .get fun _ => .pure _
  | some parent => exact fun _ => ⟨rfl, rfl, .pushWith _ _, rfl⟩

end Steps

theorem Told.lift_gives {own : Eval α} {a : α} (run : own.Gives s.machine a m) :
    (Told.lift own).Gives s a { s with machine := m } := by
  simp only [EStateM.Gives, EStateM.run, Told.lift, show own s.machine = .ok a m from run]

theorem Told.homeOf_gives {id : ClosureId} {home : Home} (noted : s.homes[id]? = some home) :
    (Told.homeOf id).Gives s home s := by
  simp only [Told.homeOf, get_bind_gives, noted, pure_gives, and_self]

theorem Told.receiverOf_gives {home : Home} {receiver : Value}
    (known : home.receiver = some receiver) : (Told.receiverOf home).Gives s receiver s := by
  simp only [Told.receiverOf, known, pure_gives, and_self]

/-- The scene with its code in another frame, at another home. -/
def Scene.at (s : Scene) (frame : FrameId) (home : Home) : Scene :=
  { s with machine := { s.machine with current := frame }, home := home }

/-- Faithful scenes differ in the frame of the code if the frame knows the home. -/
theorem Scene.Faithful.at {frame : FrameId} {home : Home} (h : s.Faithful)
    (inside : frame < s.machine.frames.size) (here : s.machine.frames.Knows frame home)
    (plain : s.machine.frames.local? frame "super" = none) : (s.at frame home).Faithful :=
  ⟨h.agreed, h.homes, h.classes, h.closures, h.records, h.ordered, inside, here, plain⟩

/-- The scene that a step leaves, whether it ends or stops. -/
def Told.leaves (told : Told α) (s : Scene) : Scene :=
  match told s with
  | .ok _ s' | .error _ s' => s'

namespace Told

theorem lift_onMachine (own : Eval α) (s : Scene) : (lift own).onMachine s = own s.machine := by
  simp only [onMachine, lift]
  cases own s.machine <;> rfl

theorem lift_leaves (own : Eval α) (s : Scene) :
    (lift own).leaves s = { s with machine := own.after s.machine } := by
  simp only [leaves, lift, Eval.after]
  cases own s.machine <;> rfl

theorem compared_onMachine (own : Eval α) (told : Told α) (s : Scene) :
    (compared own told).onMachine s = told.onMachine s := by
  simp only [onMachine, compared]
  cases told s <;> rfl

theorem compared_leaves (own : Eval α) (told : Told α) (s : Scene) :
    (compared own told).leaves s =
      { told.leaves s with
        agreed := (told.leaves s).agreed ∧ own s.machine = told.onMachine s } := by
  simp only [leaves, compared]
  cases told s <;> rfl

theorem inside_onMachine (frame : FrameId) (home : Home) (own : Eval α) (told : Told α) (s : Scene)
    (same : own (s.at frame home).machine = told.onMachine (s.at frame home)) :
    (inside frame home told).onMachine s = Eval.inFrame frame own s.machine := by
  have inner : own { s.machine with current := frame } = told.onMachine (s.at frame home) := same
  simp only [Eval.inFrame, inner, onMachine, inside, Scene.at]
  cases told { s with machine := { s.machine with current := frame }, home := home } <;> rfl

theorem inside_leaves (frame : FrameId) (home : Home) (told : Told α) (s : Scene) :
    (inside frame home told).leaves s =
      (told.leaves (s.at frame home)).at s.machine.current s.home := by
  simp only [leaves, inside, Scene.at]
  cases told { s with machine := { s.machine with current := frame }, home := home } <;> rfl

end Told

/-- A step from the book does to the machine what another step does, and the scene stays
faithful. -/
structure Mirrors (own : Eval α) (told : Told α) (s : Scene) : Prop where
  same : own s.machine = told.onMachine s
  grows : s.Grows (told.leaves s)
  faithful : (told.leaves s).Faithful

namespace Mirrors

variable {own : Eval α} {told : Told α} {next : α → Eval β} {next' : α → Told β}

theorem congr {own' : Eval α} {told' : Told α} (h : Mirrors own told s)
    (same : own' s.machine = own s.machine) (same' : told' s = told s) : Mirrors own' told' s := by
  obtain ⟨equal, grows, faithful⟩ := h
  simp only [Told.onMachine, Told.leaves, ← same'] at equal grows faithful
  exact ⟨same.trans equal, grows, faithful⟩

protected theorem pure (h : s.Faithful) (a : α) : Mirrors (Pure.pure a) (Pure.pure a) s :=
  ⟨rfl, .refl, h⟩

protected theorem throw (h : s.Faithful) (stop : Stop) :
    Mirrors (throw stop : Eval α) (throw stop) s :=
  ⟨rfl, .refl, h⟩

/-- A calm step mirrors itself. -/
protected theorem lift (h : s.Faithful) (calm : own.IsCalm) : Mirrors own (.lift own) s := by
  refine ⟨(Told.lift_onMachine own s).symm, ?_, ?_⟩
  · rw [Told.lift_leaves]
    exact ⟨(calm s.machine).keeps, (calm s.machine).current, rfl⟩
  · rw [Told.lift_leaves]
    exact h.calm (calm s.machine)

/-- Steps that mirror each other one after the other. -/
protected theorem bind (first : Mirrors own told s)
    (rest : ∀ a s', told.Gives s a s' → own.Gives s.machine a s'.machine → s.Grows s' →
      s'.Faithful → Mirrors (next a) (next' a) s') :
    Mirrors (own >>= next) (told >>= next') s := by
  obtain ⟨same, grows, faithful⟩ := first
  simp only [Told.onMachine, Told.leaves] at same grows faithful
  cases run : told s with
  | error stop s' =>
      rw [run] at same grows faithful
      have left : (told >>= next') s = .error stop s' := by
        simp only [Bind.bind, EStateM.bind, run]
      refine ⟨?_, ?_, ?_⟩
      · rw [Told.onMachine, left]
        simp only [Bind.bind, EStateM.bind, same]
      · rwa [Told.leaves, left]
      · rwa [Told.leaves, left]
  | ok a s' =>
      rw [run] at same grows faithful
      obtain ⟨same', grows', faithful'⟩ := rest a s' run same grows faithful
      have left : (told >>= next') s = next' a s' := bind_of_gives run
      refine ⟨?_, ?_, ?_⟩
      · rw [Told.onMachine, left]
        exact (bind_of_gives same).trans same'
      · rw [Told.leaves, left]
        exact grows.trans grows'
      · rwa [Told.leaves, left]

protected theorem map {f : α → β} (h : Mirrors own told s) :
    Mirrors (f <$> own) (f <$> told) s := by
  rw [map_eq_pure_bind, map_eq_pure_bind]
  exact h.bind fun a _ _ _ _ faithful => .pure faithful (f a)

/-- A comparison that comes out right changes nothing. -/
protected theorem compared (h : Mirrors own told s) : Mirrors own (.compared own told) s := by
  refine ⟨h.same.trans (Told.compared_onMachine own told s).symm, ?_, ?_⟩
  · rw [Told.compared_leaves]
    exact ⟨h.grows.keeps, h.grows.current, h.grows.home⟩
  · rw [Told.compared_leaves]
    exact { h.faithful with agreed := ⟨h.faithful.agreed, h.same⟩ }

/-- What is run in another frame comes back to where the code was at home. -/
protected theorem inside {frame : FrameId} {home : Home} (h : s.Faithful)
    (inner : Mirrors own told (s.at frame home)) :
    Mirrors (Eval.inFrame frame own) (.inside frame home told) s := by
  have keeps : s.machine.frames.Keeps (told.leaves (s.at frame home)).machine.frames :=
    inner.grows.keeps
  refine ⟨(Told.inside_onMachine frame home own told s inner.same).symm, ?_, ?_⟩
  · rw [Told.inside_leaves]
    exact ⟨keeps, rfl, rfl⟩
  · rw [Told.inside_leaves]
    apply inner.faithful.at
    · exact Nat.lt_of_lt_of_le h.inside keeps.size
    · exact h.here.keep keeps h.inside
    · exact (keeps.implicit _ h.inside _ not_isPlainName_super).trans h.plain

end Mirrors

end TreeWalk
