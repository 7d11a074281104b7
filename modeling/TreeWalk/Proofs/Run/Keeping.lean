import TreeWalk.Proofs.Run.Homes
import Mathlib.Data.List.Find

/-!
# What frames know of a home

The receiver of a home is what `this` is bound to in the nearest frame outward, and its
superclass is what the next frame binds to `super`. Neither is changed in a frame that is
there already, so what a frame knows it knows for good.
-/

namespace TreeWalk

theorem not_isPlainName_this : ¬IsPlainName "this" := fun plain => plain.1 rfl

theorem not_isPlainName_super : ¬IsPlainName "super" := fun plain => plain.2 rfl

namespace Frames

variable {fs fs' fs'' : Frames Value} {i j p : FrameId} {x : String} {home : Home}

/-- Frames stay where they are and keep what they bind to `this` and `super`. -/
structure Keeps (fs fs' : Frames Value) : Prop where
  size : fs.size ≤ fs'.size
  parent : ∀ i < fs.size, fs'.parent? i = fs.parent? i
  implicit : ∀ i < fs.size, ∀ x, ¬IsPlainName x → fs'.local? i x = fs.local? i x

namespace Keeps

theorem refl : Keeps fs fs := ⟨Nat.le_refl _, fun _ _ => rfl, fun _ _ _ _ => rfl⟩

theorem trans (h : Keeps fs fs') (h' : Keeps fs' fs'') : Keeps fs fs'' where
  size := Nat.le_trans h.size h'.size
  parent i inside := (h'.parent i (Nat.lt_of_lt_of_le inside h.size)).trans (h.parent i inside)
  implicit i inside x implicit :=
    (h'.implicit i (Nat.lt_of_lt_of_le inside h.size) x implicit).trans
      (h.implicit i inside x implicit)

theorem push (parent : Option FrameId) : Keeps fs (fs.push parent) where
  size := by simp
  parent i inside := by rw [parent?_push, if_neg (Nat.ne_of_lt inside)]
  implicit i inside x _ := by rw [local?_push, if_neg (Nat.ne_of_lt inside)]

/-- A frame may get any name that is neither `this` nor `super`. -/
theorem define (value : Value) (plain : IsPlainName x) : Keeps fs (fs.define i x value) where
  size := by simp
  parent i _ := parent?_define ..
  implicit j _ y implicit := by
    by_cases inside : i < fs.size
    · rw [local?_define _ _ _ _ _ _ inside, if_neg]
      rintro ⟨-, rfl⟩
      exact implicit plain
    · have outside : fs.all.size ≤ i := Nat.le_of_not_lt inside
      have same : fs.all.modify i (fun frame =>
          { frame with bindings := frame.bindings.put x value }) = fs.all := by
        apply Array.ext_getElem?
        intro k
        rw [Array.getElem?_modify]
        split
        next same =>
          subst same
          rw [Array.getElem?_eq_none outside, Option.map_none]
        next => rfl
      rw [Frames.define, same]

/-- A new frame may bind any name. -/
theorem pushWith (parent : Option FrameId) (value : Value) :
    Keeps fs ((fs.push parent).define fs.size x value) where
  size := by simp
  parent i inside := by rw [parent?_define, parent?_push, if_neg (Nat.ne_of_lt inside)]
  implicit j old y _ := by
    have other : j ≠ fs.size := Nat.ne_of_lt old
    rw [local?_define _ _ _ _ _ _ (by simp), if_neg fun same => other same.1, local?_push,
      if_neg other]

end Keeps

/-- The frame that is made with a name binds it. -/
theorem local?_pushWith (fs : Frames Value) (parent : Option FrameId) (x : String) (value : Value) :
    ((fs.push parent).define fs.size x value).local? fs.size x = some value := by
  rw [local?_define _ _ _ _ _ _ (by simp), if_pos ⟨rfl, rfl⟩]

theorem lt_size_pushWith (fs : Frames Value) (parent : Option FrameId) (x : String)
    (value : Value) : fs.size < ((fs.push parent).define fs.size x value).size := by
  simp

theorem le_of_mem_chain (among : j ∈ fs.chain i) : j ≤ i := by
  induction i using Nat.strongRecOn with
  | ind i ih =>
      rw [chain] at among
      split at among
      next => exact Nat.le_of_eq (List.mem_singleton.1 among)
      next p _ =>
        split at among
        next smaller =>
          obtain rfl | among := List.mem_cons.1 among
          · exact Nat.le_refl _
          · exact Nat.le_trans (ih p smaller among) (Nat.le_of_lt smaller)
        next => exact Nat.le_of_eq (List.mem_singleton.1 among)

/-- What the frame next to the nearest one that binds `this` binds to `super`. -/
def superAround? (fs : Frames Value) (i : FrameId) : Option Value :=
  (fs.owner? i "this").bind fun j => (fs.ancestor? j 1).bind fun p => fs.local? p "super"

/-- Code that runs in a frame has a home. -/
structure Knows (fs : Frames Value) (i : FrameId) (home : Home) : Prop where
  receiver : fs.get? i "this" = home.receiver
  superclass : fs.superAround? i = home.superclass.map .classRef

theorem Keeps.chain_eq (h : Keeps fs fs') (inside : i < fs.size) : fs'.chain i = fs.chain i :=
  Frames.chain_eq h.parent inside

theorem Keeps.local?_eq_of_mem (h : Keeps fs fs') (inside : i < fs.size) (implicit : ¬IsPlainName x)
    (among : j ∈ fs.chain i) : fs'.local? j x = fs.local? j x :=
  h.implicit j (Nat.lt_of_le_of_lt (le_of_mem_chain among) inside) x implicit

theorem Keeps.get?_eq (h : Keeps fs fs') (inside : i < fs.size) (implicit : ¬IsPlainName x) :
    fs'.get? i x = fs.get? i x := by
  have same : (fs.chain i).map (fs'.local? · x) = (fs.chain i).map (fs.local? · x) :=
    List.map_congr_left fun j among => h.local?_eq_of_mem inside implicit among
  rw [get?, get?, h.chain_eq inside]
  simpa [List.findSome?_map, Function.comp_def] using congrArg (List.findSome? id) same

theorem Keeps.owner?_eq (h : Keeps fs fs') (inside : i < fs.size) (implicit : ¬IsPlainName x) :
    fs'.owner? i x = fs.owner? i x := by
  rw [owner?, owner?, h.chain_eq inside]
  exact List.find?_congr fun j among => by rw [h.local?_eq_of_mem inside implicit among]

theorem Keeps.superAround?_eq (h : Keeps fs fs') (inside : i < fs.size) :
    fs'.superAround? i = fs.superAround? i := by
  rw [superAround?, superAround?, h.owner?_eq inside not_isPlainName_this]
  cases owned : fs.owner? i "this" with
  | none => rfl
  | some j =>
      have inside' : j < fs.size := size_of_has (has_of_owner? owned)
      rw [Option.bind_some, Option.bind_some, ancestor?, ancestor?, h.chain_eq inside']
      cases next : (fs.chain j)[1]? with
      | none => rfl
      | some p =>
          exact h.local?_eq_of_mem inside' not_isPlainName_super (List.mem_of_getElem? next)

/-- What a frame knows it knows for good. -/
theorem Knows.keep (h : Knows fs i home) (keeps : Keeps fs fs') (inside : i < fs.size) :
    Knows fs' i home :=
  ⟨(keeps.get?_eq inside not_isPlainName_this).trans h.receiver,
    (keeps.superAround?_eq inside).trans h.superclass⟩

/-- A frame that does not bind `this` knows what the one around it knows. -/
theorem Knows.inner (h : Knows fs p home) (link : fs.parent? i = some p) (smaller : p < i)
    (unbound : fs.local? i "this" = none) : Knows fs i home := by
  have cut := chain_of_some link smaller
  have around : fs.superAround? i = fs.superAround? p := by
    rw [superAround?, superAround?, owner?, cut, List.find?_cons_of_neg (by simp [unbound])]
    rfl
  refine ⟨?_, around.trans h.superclass⟩
  rw [← h.receiver, get?, get?, cut]
  exact List.findSome?_cons_of_isNone (by simp [unbound])

/-- A frame that binds `this` knows what it is bound to. -/
theorem Knows.bound {value : Value} {superclass : Option ClassId} (link : fs.parent? i = some p)
    (smaller : p < i) (bound : fs.local? i "this" = some value)
    (around : fs.local? p "super" = superclass.map .classRef) :
    Knows fs i ⟨some value, superclass⟩ := by
  have has : fs.Has i "this" := by rw [Has, bound]; rfl
  have next : fs.ancestor? i 1 = some p := by
    obtain ⟨rest, cut⟩ := chain_head fs p
    rw [ancestor?, chain_of_some link smaller, cut]
    rfl
  refine ⟨(get?_of_has has).trans bound, ?_⟩
  rw [superAround?, owner?_of_has has, Option.bind_some, next, Option.bind_some, around]

/-- A new frame knows what the one around it knows. -/
theorem Knows.push (h : Knows fs p home) (inside : p < fs.size) :
    Knows (fs.push (some p)) fs.size home := by
  refine (h.keep (.push _) inside).inner ?_ inside ?_
  · rw [parent?_push, if_pos rfl]
  · rw [local?_push, if_pos rfl]

/-- So does a new frame that binds another name than `this`. -/
theorem Knows.pushWith (h : Knows fs p home) (inside : p < fs.size) (value : Value)
    (other : x ≠ "this") : Knows ((fs.push (some p)).define fs.size x value) fs.size home := by
  refine (h.keep (.pushWith _ _) inside).inner ?_ inside ?_
  · rw [parent?_define, parent?_push, if_pos rfl]
  · rw [local?_define _ _ _ _ _ _ (by simp), if_neg fun same => other same.2.symm, local?_push,
      if_pos rfl]

/-- A new frame that binds `this` knows its value. -/
theorem Knows.pushThis {superclass : Option ClassId} (inside : p < fs.size) (value : Value)
    (around : fs.local? p "super" = superclass.map .classRef) :
    Knows ((fs.push (some p)).define fs.size "this" value) fs.size ⟨some value, superclass⟩ := by
  have keeps : Keeps fs ((fs.push (some p)).define fs.size "this" value) := .pushWith _ _
  refine .bound ?_ inside (local?_pushWith _ _ _ _)
    ((keeps.implicit p inside _ not_isPlainName_super).trans around)
  rw [parent?_define, parent?_push, if_pos rfl]

end Frames

end TreeWalk
