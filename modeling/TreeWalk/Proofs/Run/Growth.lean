import TreeWalk.Proofs.Run.Chains

/-!
# Heaps that only grow

A heap goes on from another one if everything that was there is there as before: frames
keep their links and their names, and closures and classes are the same under the same
numbers. So what a search for a method finds stays the same too.

## Implementation notes

Which of the older frames may have new names is a parameter. Names in younger frames do not
matter, so what is allowed of frames that did not exist is left open.
-/

namespace TreeWalk

variable {α : Type} {New New' : FrameId → Prop}

namespace Frames

variable {fs : Frames α} {i j : FrameId} {x y : String}

/-- Where there is no frame nothing is bound. -/
theorem define_outside (outside : ¬i < fs.size) (value : α) : fs.define i x value = fs := by
  have none : fs.all.modify i
      (fun frame => { frame with bindings := frame.bindings.put x value }) = fs.all := by
    apply Array.ext_getElem?
    intro j
    rw [Array.getElem?_modify]
    split
    next same =>
      rw [← same, Array.getElem?_eq_none (Nat.le_of_not_lt outside)]
      rfl
    next => rfl
  rw [define, none]

theorem Has.define (has : fs.Has j y) (i : FrameId) (x : String) (value : α) :
    (fs.define i x value).Has j y := by
  by_cases inside : i < fs.size
  · exact (has_define inside).2 (.inr has)
  · rwa [define_outside inside]

theorem has_of_define {value : α} (has : (fs.define i x value).Has j y) :
    j = i ∧ y = x ∨ fs.Has j y := by
  by_cases inside : i < fs.size
  · exact (has_define inside).1 has
  · rw [define_outside inside] at has
    exact .inr has

end Frames

namespace Heap

/-- All that was on a heap is there as before, and of the frames that were there only some
have new names. -/
structure Extends (New : FrameId → Prop) (h h' : Heap) : Prop where
  size : h.frames.size ≤ h'.frames.size
  parent : ∀ i < h.frames.size, h'.frames.parent? i = h.frames.parent? i
  has : ∀ i x, h.frames.Has i x → h'.frames.Has i x
  fresh : ∀ i < h.frames.size, ¬New i → ∀ x, h'.frames.Has i x → h.frames.Has i x
  closures : ∀ {id : ClosureId} {closure}, h.closures[id]? = some closure →
    h'.closures[id]? = some closure
  classes : ∀ {id : ClassId} {record}, h.classes[id]? = some record →
    h'.classes[id]? = some record
  objects : h.objects.size ≤ h'.objects.size

/-- All that was on a heap is there as before, and any frames have new names. -/
abbrev Grows (h h' : Heap) : Prop := h.Extends (fun _ => True) h'

namespace Extends

variable {h h' h'' : Heap}

theorem refl (New : FrameId → Prop) (h : Heap) : h.Extends New h :=
  ⟨Nat.le_refl _, fun _ _ => rfl, fun _ _ => id, fun _ _ _ _ => id, id, id, Nat.le_refl _⟩

/-- What a later change names in younger frames does not matter. -/
theorem trans_of (one : h.Extends New h') (other : h'.Extends New' h'')
    (old : ∀ i < h.frames.size, New' i → New i) : h.Extends New h'' where
  size := Nat.le_trans one.size other.size
  parent i inside :=
    (other.parent i (Nat.lt_of_lt_of_le inside one.size)).trans (one.parent i inside)
  has i x has := other.has i x (one.has i x has)
  fresh i inside apart x has := by
    have before := other.fresh i (Nat.lt_of_lt_of_le inside one.size)
      (fun new => apart (old i inside new)) x has
    exact one.fresh i inside apart x before
  closures := other.closures ∘ one.closures
  classes := other.classes ∘ one.classes
  objects := Nat.le_trans one.objects other.objects

theorem trans (one : h.Extends New h') (other : h'.Extends New h'') : h.Extends New h'' :=
  one.trans_of other fun _ _ => id

theorem mono (one : h.Extends New h') (more : ∀ i, New i → New' i) : h.Extends New' h' :=
  { one with fresh := fun i inside apart => one.fresh i inside fun new => apart (more i new) }

theorem define {i : FrameId} {x : String} (h : Heap) (value : Value)
    (new : New i ∨ h.frames.Has i x) :
    h.Extends New { h with frames := h.frames.define i x value } :=
  { refl New h with
    size := by simp
    parent := fun _ _ => by simp
    has := fun j y has => has.define i x value
    fresh := fun j _ old y has => by
      obtain ⟨rfl, rfl⟩ | has := Frames.has_of_define has
      · exact new.resolve_left old
      · exact has }

theorem push (h : Heap) (parent : Option FrameId) :
    h.Extends New { h with frames := h.frames.push parent } :=
  { refl New h with
    size := by simp
    parent := fun i inside => by
      rw [Frames.parent?_push, if_neg (Nat.ne_of_lt inside)]
    has := fun i x has => Frames.has_push.2 ⟨Nat.ne_of_lt (Frames.size_of_has has), has⟩
    fresh := fun i _ _ x has => (Frames.has_push.1 has).2 }

theorem pushClosure (h : Heap) (closure : Closure) :
    h.Extends New { h with closures := h.closures.push closure } :=
  { refl New h with
    closures := fun found => by
      have inside := (Array.getElem?_eq_some_iff.1 found).1
      simp [Array.getElem?_push, Nat.ne_of_lt inside, found] }

theorem pushClass (h : Heap) (record : ClassRecord) :
    h.Extends New { h with classes := h.classes.push record } :=
  { refl New h with
    classes := fun found => by
      have inside := (Array.getElem?_eq_some_iff.1 found).1
      simp [Array.getElem?_push, Nat.ne_of_lt inside, found] }

theorem pushObject (h : Heap) (record : ObjectRecord) :
    h.Extends New { h with objects := h.objects.push record } :=
  { refl New h with objects := by simp }

theorem modifyObject (h : Heap) (id : ObjectId) (f : ObjectRecord → ObjectRecord) :
    h.Extends New { h with objects := h.objects.modify id f } :=
  { refl New h with objects := by simp }

theorem size_le_of_some {xs ys : Array α}
    (same : ∀ {i : Nat} {a}, xs[i]? = some a → ys[i]? = some a) : xs.size ≤ ys.size := by
  by_contra smaller
  have found := same (Array.getElem?_eq_getElem (Nat.lt_of_not_le smaller))
  simp at found

theorem closures_size (grown : h.Extends New h') : h.closures.size ≤ h'.closures.size :=
  size_le_of_some grown.closures

theorem classes_size (grown : h.Extends New h') : h.classes.size ≤ h'.classes.size :=
  size_le_of_some grown.classes

theorem class_eq (grown : h.Extends New h') {id : ClassId} (inside : id < h.classes.size) :
    h'.classes[id]? = h.classes[id]? := by
  rw [Array.getElem?_eq_getElem inside]
  exact grown.classes (Array.getElem?_eq_getElem inside)

theorem lineage_eq (grown : h.Extends New h') {id : ClassId} (inside : id < h.classes.size) :
    h'.lineage id = h.lineage id := by
  induction id using Nat.strongRecOn with
  | ind id ih =>
      have same : h'.superclass? id = h.superclass? id := by
        rw [superclass?, superclass?, grown.class_eq inside]
      rw [lineage, lineage, same]
      split
      · rfl
      next parent found =>
        split
        next smaller => rw [ih parent smaller (Nat.lt_trans smaller inside)]
        · rfl

end Extends

theorem mem_lineage {h : Heap} {id d : ClassId} (inside : id < h.classes.size)
    (among : d ∈ h.lineage id) : d < h.classes.size := by
  induction id using Nat.strongRecOn with
  | ind id ih =>
      rw [lineage] at among
      split at among
      · rwa [List.mem_singleton.1 among]
      next parent found =>
        split at among
        next smaller =>
          obtain rfl | among := List.mem_cons.1 among
          · exact inside
          · exact ih parent smaller (Nat.lt_trans smaller inside) among
        next => rwa [List.mem_singleton.1 among]

theorem Extends.closureArity_eq {h h' : Heap} (grown : h.Extends New h') {id : ClosureId}
    (inside : id < h.closures.size) : h'.closureArity id = h.closureArity id := by
  have found := Array.getElem?_eq_getElem inside
  rw [closureArity, closureArity, found, grown.closures found]

/-- The methods of a class stay the same. -/
theorem Extends.method?_eq {h h' : Heap} (grown : h.Extends New h') {id : ClassId}
    {name : String} (inside : id < h.classes.size) : h'.method? id name = h.method? id name := by
  have same : (h.lineage id).map (h'.ownMethod? · name) =
      (h.lineage id).map (h.ownMethod? · name) := by
    apply List.map_congr_left
    intro d among
    rw [ownMethod?, ownMethod?, grown.class_eq (mem_lineage inside among)]
  rw [method?, method?, grown.lineage_eq inside]
  simpa [List.findSome?_map, Function.comp_def] using congrArg (List.findSome? (·)) same

/-- What a value refers to is on the heap. -/
def Refers (h : Heap) : Value → Prop
  | .closure id => id < h.closures.size
  | .classRef id => id < h.classes.size
  | .object id => id < h.objects.size
  | .scalar _ | .clock => True

theorem Refers.later {h h' : Heap} {v : Value} (refers : h.Refers v) (grown : h.Extends New h') :
    h'.Refers v := by
  cases v with
  | closure => exact Nat.lt_of_lt_of_le refers grown.closures_size
  | classRef => exact Nat.lt_of_lt_of_le refers grown.classes_size
  | object => exact Nat.lt_of_lt_of_le refers grown.objects
  | scalar | clock => trivial

/-- The number of arguments that a value takes stays the same. -/
theorem Extends.arity?_eq {h h' : Heap} (grown : h.Extends New h') {f : Value}
    (refers : h.Refers f) (methods : ∀ {c name method}, h.method? c name = some method →
      method < h.closures.size) : h'.arity? f = h.arity? f := by
  cases f with
  | scalar | object | clock => rfl
  | closure id => simp only [arity?, grown.closureArity_eq refers]
  | classRef c =>
      simp only [arity?, grown.method?_eq refers]
      split
      next method found => rw [grown.closureArity_eq (methods found)]
      next => rfl

end Heap

end TreeWalk
