import TreeWalk.Proofs.Loops.Agreeing
import TreeWalk.Proofs.Run.Extending

/-!
# Operations agree but for the frames of passes

The operations of a machine do the same without the frames of passes. References are followed
along thinned distances, and new frames, closures, classes and objects are the same on both sides
but for their places.
-/

namespace TreeWalk

theorem Shape.thin_zero (shape : Shape) : shape.thin 0 = 0 := by
  cases shape with
  | nil => rfl
  | cons isPass outer => cases isPass <;> rfl

/-- A scope that is not that of a pass counts for what is further out. -/
theorem Shape.thin_succ {shape : Shape} {distance : Nat} (kept : shape[distance]? = some false) :
    shape.thin (distance + 1) = shape.thin distance + 1 := by
  induction distance generalizing shape with
  | zero =>
      obtain _ | ⟨isPass, outer⟩ := shape
      · cases kept
      · cases kept
        exact congrArg (· + 1) ((thin_zero outer).trans (thin_zero _).symm)
  | succ distance ih =>
      obtain _ | ⟨isPass, outer⟩ := shape
      · cases kept
      · cases isPass with
        | true => exact ih kept
        | false => exact congrArg (· + 1) (ih kept)

namespace Erasure

open Eval

variable {α β : Type} {E E' : Erasure} {m m' d : Machine} {h g : Heap} {shape : Shape}
  {i j : FrameId} {x : String} {v : Value} {Q : Knowing α β}

/-- The results are the same. -/
def Equal : Knowing α α := fun _ _ a b => b = a

/-- The results are the same value. -/
def Same : Knowing Value Value := fun E h v w => w = v ∧ E.Ready h v

/-- The values of two runs are one value. -/
theorem Agrees.value {a b : Eval Value} {f : Value → Eval α} {g : Value → Eval β}
    (first : E.Agrees m Same a b)
    (next : ∀ {E' m'} v, E.Onward m E' m' → E'.Ready m'.heap v → E'.Agrees m' Q (f v) (g v)) :
    E.Agrees m Q (a >>= f) (b >>= g) := by
  refine first.bind fun onward known => ?_
  obtain ⟨rfl, ready⟩ := known
  exact next _ onward ready

/-- The results are the same values. -/
def SameEach : Knowing (List Value) (List Value) := fun E h vs ws => ws = vs ∧ ∀ v ∈ vs, E.Ready h v

/-- The one frame is the place of the other. -/
structure Stands (shape : Shape) (E : Erasure) (h : Heap) (i j : FrameId) : Prop where
  inside : i < h.frames.size
  place : j = E.place i
  shape : E.shape h.frames i = shape

theorem Stands.later (stands : Stands shape E h i j) {h' : Heap} (later : E.Later h E' h') :
    Stands shape E' h' i j where
  inside := Nat.lt_of_lt_of_le stands.inside later.size
  place := stands.place.trans (later.place i stands.inside).symm
  shape := (later.shape_eq stands.inside).trans stands.shape

theorem isPass_of_shape {isPass : Bool} (shape : E.shape h.frames i = isPass :: shape) :
    E.isPass i = isPass := by
  obtain ⟨rest, cut⟩ := Frames.chain_head h.frames i
  rw [Erasure.shape, cut, List.map_cons] at shape
  exact (List.cons.inj shape).1

/-- The one closure is the other one without the frames of passes. -/
structure Stripped (isMethod : Bool) (E : Erasure) (h : Heap) (c c' : Closure) : Prop where
  inside : c.frame < h.frames.size
  strip : c' = E.strip h.frames isMethod c

/-- The results are the same row of methods. -/
def SameMethods (methods : α → List ClosureId) : Knowing α α := fun E h a b =>
  b = a ∧ ∀ id ∈ methods a, id < h.closures.size ∧ E.isMethod id = true

/-- A step that changes the heap. -/
theorem Outcome.ofHeap {a : α} {b : β} (strips : E.StripsMachine m d) (later : E.Later m.heap E' h)
    (heap : E'.Strips h g) (known : Q E' h a b) :
    E.Outcome m Q (.ok a { m with heap := h }) (.ok b { d with heap := g }) :=
  .ok ⟨later, rfl, strips.inside⟩
    { strips with
      heap := heap
      inside := Nat.lt_of_lt_of_le strips.inside later.size
      current := strips.current.trans (later.place _ strips.inside).symm }
    known

theorem newFrame_agrees (inside : i < m.heap.frames.size) :
    E.Agrees m (Stands (false :: E.shape m.heap.frames i)) (newFrame i) (newFrame (E.place i)) := by
  intro E' m' d' onward strips
  have inside' := onward.within inside
  have later : E'.Later m'.heap (E'.withFrame m'.heap.frames.size d'.heap.frames.size false)
      { m'.heap with frames := m'.heap.frames.push (some i) } := by
    apply Later.ofFrames
    · simp
    · intro k old
      rw [Frames.parent?_push, if_neg (Nat.ne_of_lt old)]
  rw [← onward.heap.place i inside]
  apply Outcome.ofHeap strips later
  · apply strips.heap.ofFrames later (strips.heap.frames.push inside')
    intro k y w found
    rw [Frames.local?_push] at found
    split at found
    · cases found
    · exact .inl found
  · constructor
    · simp [Machine.frames]
    · exact (place_new E').symm
    · have link : (m'.heap.frames.push (some i)).parent? m'.heap.frames.size = some i := by
        rw [Frames.parent?_push, if_pos rfl]
      show shape _ (m'.heap.frames.push (some i)) m'.heap.frames.size = _
      rw [Erases.shape_of_some link inside', isPass_new, later.shape_eq inside',
        onward.heap.shape_eq inside]

theorem define_agrees (inside : i < m.heap.frames.size) (kept : E.isPass i = false)
    (ready : E.Ready m.heap v) :
    E.Agrees m Equal (define i x v) (define (E.place i) x v) := by
  intro E' m' d' onward strips
  have inside' := onward.within inside
  have kept' := (onward.heap.isPass i inside).trans kept
  have later : E'.Later m'.heap E'
      { m'.heap with frames := m'.heap.frames.define i x v } :=
    { Later.refl E' m'.heap with
      size := by simp
      parent := fun k _ => Frames.parent?_define .. }
  rw [← onward.heap.place i inside]
  show E'.Outcome m' Equal (.ok () (m'.mapFrames _)) (.ok () (d'.mapFrames _))
  apply Outcome.ofHeap strips later
  · apply strips.heap.ofFrames later (strips.heap.frames.define inside' kept')
    intro k y w found
    rw [Frames.local?_define _ _ _ _ _ _ inside'] at found
    split at found
    · cases found
      exact .inr (onward.heap.ready ready)
    · exact .inl found
  · rfl

theorem newClosure_agrees {c c' : Closure} {isMethod : Bool}
    (stripped : Stripped isMethod E m.heap c c') :
    E.Agrees m (fun E' h id id' => id' = id ∧ id < h.closures.size ∧ E'.isMethod id = isMethod)
      (newClosure c) (newClosure c') := by
  intro E' m' d' onward strips
  have same : c' = E'.strip m'.heap.frames isMethod c :=
    stripped.strip.trans (onward.heap.strip_eq stripped.inside).symm
  rw [same]
  apply Outcome.ofHeap strips (Later.ofClosure E' m'.heap c isMethod)
  · exact strips.heap.pushClosure (onward.within stripped.inside)
  · exact ⟨strips.heap.size, by simp, isMethod_new E'⟩

theorem newClass_agrees (record : ClassRecord)
    (methods : ∀ {name method}, record.methods.get? name = some method →
      method < m.heap.closures.size ∧ E.isMethod method = true) :
    E.Agrees m Equal (newClass record) (newClass record) := by
  intro E' m' d' onward strips
  have later : E'.Later m'.heap E'
      { m'.heap with classes := m'.heap.classes.push record } :=
    { Later.refl E' m'.heap with }
  apply Outcome.ofHeap strips later
  · apply strips.heap.pushClass
    intro name method declared
    exact onward.heap.knows (methods declared)
  · exact congrArg Array.size strips.heap.classes

theorem newObject_agrees (c : ClassId) : E.Agrees m Equal (newObject c) (newObject c) := by
  intro E' m' d' onward strips
  have later : E'.Later m'.heap E'
      { m'.heap with objects := m'.heap.objects.push ⟨c, .empty⟩ } :=
    { Later.refl E' m'.heap with }
  apply Outcome.ofHeap strips later (strips.heap.pushObject c)
  exact congrArg Array.size strips.heap.objects

theorem writeField_agrees (ready : E.Ready m.heap v) (o : ObjectId) (x : String) :
    E.Agrees m Equal (writeField o x v) (writeField o x v) := by
  intro E' m' d' onward strips
  have later : E'.Later m'.heap E' (m'.heap.setField o x v) := { Later.refl E' m'.heap with }
  show E'.Outcome m' Equal (.ok () (m'.mapHeap _)) (.ok () (d'.mapHeap _))
  exact .ofHeap strips later (strips.heap.setField (onward.heap.ready ready) o x) rfl

theorem print_agrees (line : String) : E.Agrees m Equal (print line) (print line) := by
  intro E' m' d' _ strips
  refine .ok ⟨.refl E' m'.heap, rfl, strips.inside⟩ { strips with output := ?_ } rfl
  exact congrArg (· ++ line ++ "\n") strips.output

theorem readClock_agrees : E.Agrees m Same readClock readClock := by
  intro E' m' d' _ strips
  refine .ok ⟨.refl E' m'.heap, rfl, strips.inside⟩
    { strips with taken := congrArg (· + 1) strips.taken } ⟨?_, trivial⟩
  rw [strips.readings, strips.taken]

namespace Strips

/-- The frame at a thinned distance is the place of the one at the distance. -/
theorem ancestor_sees (strips : E.Strips h g) (inside : i < h.frames.size) (distance : Nat) :
    Sees (fun p q => p < h.frames.size ∧ q = E.place p) (h.frames.ancestor i distance)
      (g.frames.ancestor (E.place i) ((E.shape h.frames i).thin distance)) := by
  rw [Frames.ancestor, Frames.ancestor]
  cases link : h.frames.ancestor? i distance with
  | none => exact .fault
  | some p =>
      obtain ⟨within, link'⟩ := strips.frames.ancestor? inside link
      rw [link']
      exact .ok ⟨within, rfl⟩

theorem read_sees (strips : E.Strips h g) (inside : i < h.frames.size) (name : Token) :
    Sees (Same E h) (h.frames.read i name) (g.frames.read (E.place i) name) := by
  rw [Frames.read, Frames.read, strips.frames.get? inside]
  cases found : h.frames.get? i name.lexeme with
  | none => exact .error
  | some v =>
      obtain ⟨j, -, bound⟩ := List.exists_of_findSome?_eq_some found
      exact .ok ⟨rfl, strips.locals bound⟩

theorem target_sees (strips : E.Strips h g) (inside : i < h.frames.size) (name : Token) :
    Sees (fun p q => p < h.frames.size ∧ q = E.place p ∧ E.isPass p = false)
      (h.frames.target i name) (g.frames.target (E.place i) name) := by
  obtain ⟨same, kept⟩ := strips.frames.owner? inside name.lexeme
  rw [Frames.target, Frames.target, same]
  cases found : h.frames.owner? i name.lexeme with
  | none => exact .error
  | some p =>
      obtain ⟨within, kept⟩ := kept p found
      exact .ok ⟨within, rfl, kept⟩

theorem this_sees (strips : E.Strips h g) (inside : i < h.frames.size) :
    Sees (Same E h)
      (match h.frames.local? i "this" with
        | some value => .ok value
        | none => .error (.fault .missingThis))
      (match g.frames.local? (E.place i) "this" with
        | some value => .ok value
        | none => .error (.fault .missingThis)) := by
  cases pass : E.isPass i with
  | true =>
      rw [strips.frames.empty inside pass]
      exact .fault
  | false =>
      rw [strips.frames.same inside pass]
      cases found : h.frames.local? i "this" with
      | none => exact .fault
      | some v => exact .ok ⟨rfl, strips.locals found⟩

end Strips

theorem readReference_agrees (reference : Reference) :
    E.Agrees m Same (readReference reference)
      (readReference (reference.thin (E.shape m.heap.frames m.current))) := by
  apply Agrees.inspect
  intro E' m' d' onward strips
  rw [Reference.thin, ← onward.shape_eq]
  cases reference.distance with
  | none =>
      have global := strips.heap.read_sees strips.heap.rooted reference.name
      rwa [strips.heap.globals] at global
  | some distance =>
      rw [Option.map_some, strips.current]
      apply (strips.heap.ancestor_sees strips.inside distance).bind
      rintro p _ ⟨within, rfl⟩
      exact strips.heap.read_sees within reference.name

theorem writeReference_agrees (reference : Reference) (ready : E.Ready m.heap v) :
    E.Agrees m Equal (writeReference reference v)
      (writeReference (reference.thin (E.shape m.heap.frames m.current)) v) := by
  apply Agrees.bind
    (Q := fun E' h i j => i < h.frames.size ∧ j = E'.place i ∧ E'.isPass i = false)
  · apply Agrees.inspect
    intro E' m' d' onward strips
    rw [Reference.thin, ← onward.shape_eq]
    cases reference.distance with
    | none =>
        have global := strips.heap.target_sees strips.heap.rooted reference.name
        rwa [strips.heap.globals] at global
    | some distance =>
        rw [Option.map_some, strips.current]
        apply (strips.heap.ancestor_sees strips.inside distance).bind
        rintro p _ ⟨within, rfl⟩
        exact strips.heap.target_sees within reference.name
  · intro E' m' i j onward known
    obtain ⟨inside, rfl, kept⟩ := known
    exact define_agrees inside kept (onward.heap.ready ready)

theorem thisOf_agrees (inside : i < m.heap.frames.size) :
    E.Agrees m Same (thisOf i) (thisOf (E.place i)) := by
  apply Agrees.inspect
  intro E' m' d' onward strips
  rw [← onward.heap.place i inside]
  exact strips.heap.this_sees (onward.within inside)

theorem defineHere_agrees (kept : E.isPass m.current = false) (ready : E.Ready m.heap v)
    (x : String) : E.Agrees m Equal (defineHere x v) (defineHere x v) :=
  .here fun inside =>
    .current (f := fun i => define i x v) (g := fun i => define i x v)
      (define_agrees inside kept ready)

theorem defineEach_agrees (stands : Stands (false :: shape) E m.heap i j) (params : List Token)
    {arguments : List Value} (ready : ∀ v ∈ arguments, E.Ready m.heap v) :
    E.Agrees m Equal (defineEach i params arguments) (defineEach j params arguments) := by
  induction params generalizing arguments with
  | nil => exact .pure fun _ => rfl
  | cons param params ih =>
      cases arguments with
      | nil => exact .pure fun _ => rfl
      | cons argument arguments =>
          have kept := isPass_of_shape stands.shape
          have first := define_agrees (x := param.lexeme) stands.inside kept
            (ready _ List.mem_cons_self)
          rw [← stands.place] at first
          have rest := ih fun v among => ready v (List.mem_cons_of_mem _ among)
          exact first.bind fun onward _ => rest.later onward

end Erasure

end TreeWalk
