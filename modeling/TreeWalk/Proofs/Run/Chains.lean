import TreeWalk.Machine
import TreeWalk.Proofs.Scope.Spots

/-!
# Chains of frames and views of scopes

A chain of frames fits a row of views if every frame on the way to the global one stands
for one scope and binds what the view of that scope binds. While the initial value of a
name is computed, its scope has it and its frame does not; such names are pending, and
they are kept in a list with the frames in which they are going to be bound.

## Implementation notes

`Carries` collects what may happen to frames without a chain ceasing to fit: frames
get names, but never `this` or `super`, and a pending name may become bound. It also
says which names the frames that were there before may get.
-/

namespace TreeWalk

/-- Names whose initial values are being computed, and their frames. -/
abbrev Pending : Type := List (FrameId × String)

namespace Frames

variable {α : Type} {fs : Frames α} {i j : FrameId} {x : String}

/-- A frame itself binds a name. -/
def Has (fs : Frames α) (i : FrameId) (x : String) : Prop := (fs.local? i x).isSome = true

theorem has_push {parent : Option FrameId} :
    (fs.push parent).Has i x ↔ i ≠ fs.size ∧ fs.Has i x := by
  unfold Has
  rw [local?_push]
  split <;> simp_all

theorem has_define {y : String} {value : α} (inside : i < fs.size) :
    (fs.define i y value).Has j x ↔ j = i ∧ x = y ∨ fs.Has j x := by
  unfold Has
  rw [local?_define _ _ _ _ _ _ inside]
  split <;> simp_all

theorem size_of_has (h : fs.Has i x) : i < fs.size := by
  by_contra outside
  have none : fs.all[i]? = none := Array.getElem?_eq_none (Nat.le_of_not_lt outside)
  simp [Has, local?, none] at h

theorem size_of_parent {p : FrameId} (h : fs.parent? i = some p) : i < fs.size := by
  by_contra outside
  have none : fs.all[i]? = none := Array.getElem?_eq_none (Nat.le_of_not_lt outside)
  simp [parent?, none] at h

theorem chain_of_none (h : fs.parent? i = none) : fs.chain i = [i] := by
  rw [chain, h]

theorem chain_of_some {p : FrameId} (h : fs.parent? i = some p) (smaller : p < i) :
    fs.chain i = i :: fs.chain p := by
  rw [chain, h]
  simp [smaller]

theorem chain_head (fs : Frames α) (i : FrameId) : ∃ rest, fs.chain i = i :: rest := by
  rw [chain]
  split
  · exact ⟨[], rfl⟩
  · split
    · exact ⟨_, rfl⟩
    · exact ⟨[], rfl⟩

/-- Where links stay, chains stay. -/
theorem chain_eq {fs' : Frames α} (same : ∀ j < fs.size, fs'.parent? j = fs.parent? j)
    (inside : i < fs.size) : fs'.chain i = fs.chain i := by
  induction i using Nat.strongRecOn with
  | ind i ih =>
      rw [chain, chain, same i inside]
      split
      next => rfl
      next p _ =>
        split
        next smaller => rw [ih p smaller (Nat.lt_trans smaller inside)]
        next => rfl

/-- The chain of a frame on a chain is the rest of it. -/
theorem chain_ancestor {distance : Nat} (h : fs.ancestor? i distance = some j) :
    fs.chain j = (fs.chain i).drop distance := by
  induction distance generalizing i with
  | zero =>
      obtain ⟨rest, cut⟩ := chain_head fs i
      simp only [ancestor?, cut, List.getElem?_cons_zero, Option.some.injEq] at h
      rw [List.drop_zero, h]
  | succ distance ih =>
      cases link : fs.parent? i with
      | none => simp [ancestor?, chain_of_none link] at h
      | some p =>
          by_cases smaller : p < i
          · rw [ancestor?, chain_of_some link smaller, List.getElem?_cons_succ] at h
            rw [chain_of_some link smaller, List.drop_succ_cons]
            exact ih h
          · rw [ancestor?, chain, link] at h
            simp [smaller] at h

/-- A frame that binds a name itself is where the name is found from it. -/
theorem get?_of_has (h : fs.Has i x) : fs.get? i x = fs.local? i x := by
  obtain ⟨rest, cut⟩ := chain_head fs i
  obtain ⟨value, bound⟩ := Option.isSome_iff_exists.1 h
  simp [get?, cut, bound]

theorem owner?_of_has (h : fs.Has i x) : fs.owner? i x = some i := by
  obtain ⟨rest, cut⟩ := chain_head fs i
  rw [owner?, cut, List.find?_cons_of_pos]
  exact h

theorem has_of_owner? (h : fs.owner? i x = some j) : fs.Has j x := by
  rw [owner?] at h
  have found := List.find?_some h
  exact found

theorem exists_of_get? {value : α} (h : fs.get? i x = some value) :
    ∃ j, fs.local? j x = some value := by
  obtain ⟨j, -, bound⟩ := List.exists_of_findSome?_eq_some h
  exact ⟨j, bound⟩

end Frames

/-- A frame binds what a view binds, apart from pending names, and `this` and `super` only
if the view does. -/
structure Holds (P : Pending) (fs : Frames Value) (i : FrameId) (v : View) : Prop where
  bound : ∀ x b, v x = some b → fs.Has i x ∨ b.isReady = false ∧ (i, x) ∈ P
  implicit : ∀ x, ¬IsPlainName x → fs.Has i x → (v x).isSome

/-- A chain of frames up to the global one fits a row of views. -/
def Fits (P : Pending) (fs : Frames Value) : List View → FrameId → Prop
  | [], i => i = Machine.globals
  | v :: outer, i => Holds P fs i v ∧ ∃ p, fs.parent? i = some p ∧ p < i ∧ Fits P fs outer p

/-- Frames change in such a way that chains keep fitting and only some names are new. -/
structure Carries (New : FrameId → String → Prop) (P : Pending) (fs : Frames Value) (P' : Pending)
    (fs' : Frames Value) : Prop where
  size : fs.size ≤ fs'.size
  parent : ∀ i < fs.size, fs'.parent? i = fs.parent? i
  has : ∀ i x, fs.Has i x → fs'.Has i x
  implicit : ∀ i < fs.size, ∀ x, ¬IsPlainName x → fs'.Has i x → fs.Has i x
  fresh : ∀ i < fs.size, ∀ x, fs'.Has i x → fs.Has i x ∨ New i x
  pending : ∀ i x, (i, x) ∈ P → (i, x) ∈ P' ∨ fs'.Has i x

/-- No names at all. -/
def Nowhere : FrameId → String → Prop := fun _ _ => False

/-- Any names of one frame. -/
def Inside (frame : FrameId) : FrameId → String → Prop := fun i _ => i = frame

variable {New New' : FrameId → String → Prop} {P P' P'' : Pending} {fs fs' fs'' : Frames Value} 
  {views : List View} {v : View} {i : FrameId} {x : String}

theorem Carries.refl : Carries New P fs P fs :=
  ⟨Nat.le_refl _, fun _ _ => rfl, fun _ _ => id, fun _ _ _ _ => id, fun _ _ _ => .inl,
    fun _ _ => .inl⟩

theorem Carries.mono (h : Carries New P fs P' fs') (more : ∀ i x, New i x → New' i x) :
    Carries New' P fs P' fs' :=
  { h with fresh := fun i inside x has => (h.fresh i inside x has).imp_right (more i x) }

/-- What a later change makes new may be left out where it was not there before. -/
theorem Carries.trans_of (h : Carries New P fs P' fs') (h' : Carries New' P' fs' P'' fs'')
    (old : ∀ i < fs.size, ∀ x, New' i x → New i x) : Carries New P fs P'' fs'' where
  size := Nat.le_trans h.size h'.size
  parent i inside := (h'.parent i (Nat.lt_of_lt_of_le inside h.size)).trans (h.parent i inside)
  has i x has := h'.has i x (h.has i x has)
  implicit i inside x implicit has :=
    h.implicit i inside x implicit (h'.implicit i (Nat.lt_of_lt_of_le inside h.size) x implicit has)
  fresh i inside x has := by
    obtain has | new := h'.fresh i (Nat.lt_of_lt_of_le inside h.size) x has
    · exact h.fresh i inside x has
    · exact .inr (old i inside x new)
  pending i x inside := by
    obtain inside | has := h.pending i x inside
    · exact h'.pending i x inside
    · exact .inr (h'.has i x has)

theorem Holds.carry (h : Holds P fs i v) (carries : Carries New P fs P' fs')
    (inside : i < fs.size) : Holds P' fs' i v where
  bound x b bound := by
    obtain has | ⟨ready, pending⟩ := h.bound x b bound
    · exact .inl (carries.has i x has)
    · obtain pending | has := carries.pending i x pending
      · exact .inr ⟨ready, pending⟩
      · exact .inl has
  implicit x implicit has := h.implicit x implicit (carries.implicit i inside x implicit has)

theorem Fits.inside (h : Fits P fs views i) (nonempty : 0 < fs.size) : i < fs.size := by
  cases views with
  | nil => rwa [show i = 0 from h]
  | cons v outer =>
      obtain ⟨-, p, link, -⟩ := h
      exact Frames.size_of_parent link

/-- A chain that fits keeps fitting. -/
theorem Fits.carry (h : Fits P fs views i) (carries : Carries New P fs P' fs') :
    Fits P' fs' views i := by
  induction views generalizing i with
  | nil => exact h
  | cons v outer ih =>
      obtain ⟨holds, p, link, smaller, outside⟩ := h
      have inside := Frames.size_of_parent link
      exact ⟨holds.carry carries inside, p, (carries.parent i inside).trans link, smaller,
        ih outside⟩

/-- There is one frame for each view, and then the global one. -/
theorem Fits.chain (h : Fits P fs views i) (rooted : fs.parent? Machine.globals = none) :
    ∃ frames, fs.chain i = frames ++ [Machine.globals] ∧ Machine.globals ∉ frames ∧
      List.Forall₂ (Holds P fs) frames views := by
  induction views generalizing i with
  | nil =>
      rw [show i = Machine.globals from h, Frames.chain_of_none rooted]
      exact ⟨[], rfl, List.not_mem_nil, .nil⟩
  | cons v outer ih =>
      obtain ⟨holds, p, link, smaller, outside⟩ := h
      obtain ⟨frames, rest, others, fits⟩ := ih outside
      refine ⟨i :: frames, ?_, ?_, .cons holds fits⟩
      · rw [Frames.chain_of_some link smaller, rest]
        rfl
      · intro among
        obtain rfl | among := List.mem_cons.1 among
        · rw [rooted] at link
          cases link
        · exact others among

/-- The frame at the distance of a view stands for the scope of that view. -/
theorem Fits.ancestor {distance : Nat} (h : Fits P fs views i)
    (rooted : fs.parent? Machine.globals = none) (near : views[distance]? = some v) :
    ∃ j, fs.ancestor? i distance = some j ∧ Holds P fs j v ∧ j ≠ Machine.globals := by
  induction views generalizing i distance with
  | nil => simp at near
  | cons w outer ih =>
      obtain ⟨holds, p, link, smaller, outside⟩ := h
      rw [Frames.ancestor?, Frames.chain_of_some link smaller]
      cases distance with
      | zero =>
          obtain rfl := Option.some.inj near
          refine ⟨i, rfl, holds, ?_⟩
          rintro rfl
          rw [rooted] at link
          cases link
      | succ distance => exact ih outside near

theorem Carries.push (parent : Option FrameId) : Carries New P fs P (fs.push parent) := by
  constructor
  · simp
  · intro j inside
    rw [Frames.parent?_push, if_neg (Nat.ne_of_lt inside)]
  · intro j x has
    exact Frames.has_push.2 ⟨Nat.ne_of_lt (Frames.size_of_has has), has⟩
  · intro j _ x _ has
    exact (Frames.has_push.1 has).2
  · intro j _ x has
    exact .inl (Frames.has_push.1 has).2
  · intro j x
    exact .inl

/-- Binding a name settles it. Neither `this` nor `super` is bound anew in a frame that is
there already. -/
theorem Carries.define {value : Value} (inside : i < fs.size)
    (new : IsPlainName x ∧ New i x ∨ fs.Has i x)
    (settles : ∀ j y, (j, y) ∈ P → (j, y) ∈ P' ∨ j = i ∧ y = x) :
    Carries New P fs P' (fs.define i x value) := by
  constructor
  · simp
  · intro j _
    simp
  · intro j y has
    exact (Frames.has_define inside).2 (.inr has)
  · intro j _ y implicit has
    obtain ⟨rfl, rfl⟩ | has := (Frames.has_define inside).1 has
    · obtain ⟨plain, -⟩ | has := new
      · exact absurd plain implicit
      · exact has
    · exact has
  · intro j _ y has
    obtain ⟨rfl, rfl⟩ | has := (Frames.has_define inside).1 has
    · obtain ⟨-, new⟩ | has := new
      · exact .inr new
      · exact .inl has
    · exact .inl has
  · intro j y pending
    obtain pending | same := settles j y pending
    · exact .inl pending
    · exact .inr ((Frames.has_define inside).2 (.inl same))

/-- A new frame may start with any name. -/
theorem Carries.pushWith (parent : Option FrameId) (value : Value) :
    Carries New P fs P ((fs.push parent).define fs.size x value) := by
  have inside : fs.size < (fs.push parent).size := by simp
  have same : ∀ j < fs.size, ∀ y, ((fs.push parent).define fs.size x value).Has j y →
      fs.Has j y := by
    intro j old y has
    obtain ⟨rfl, -⟩ | has := (Frames.has_define inside).1 has
    · exact absurd old (Nat.lt_irrefl _)
    · exact (Frames.has_push.1 has).2
  constructor
  · simp
  · intro j inside
    rw [Frames.parent?_define, Frames.parent?_push, if_neg (Nat.ne_of_lt inside)]
  · intro j y has
    have other := Nat.ne_of_lt (Frames.size_of_has has)
    exact (Frames.has_define inside).2 (.inr (Frames.has_push.2 ⟨other, has⟩))
  · intro j old y _
    exact same j old y
  · intro j old y has
    exact .inl (same j old y has)
  · intro j y
    exact .inl

/-- A new frame inside a chain that fits, for a scope without names. -/
theorem Fits.push (h : Fits P fs views i) (nonempty : 0 < fs.size) :
    Fits P (fs.push (some i)) (View.empty :: views) fs.size := by
  have holds : Holds P (fs.push (some i)) fs.size View.empty := by
    constructor
    · intro x b bound
      cases bound
    · intro x _ has
      obtain ⟨other, -⟩ := Frames.has_push.1 has
      exact absurd rfl other
  have carries : Carries Nowhere P fs P (fs.push (some i)) := .push _
  refine ⟨holds, i, ?_, h.inside nonempty, h.carry carries⟩
  rw [Frames.parent?_push, if_pos rfl]

/-- A new frame inside a chain that fits, for a scope that binds one implicit name. -/
theorem Fits.pushWith (h : Fits P fs views i) (nonempty : 0 < fs.size) (value : Value) :
    Fits P ((fs.push (some i)).define fs.size x value)
      ((Scope.ofImplicit x).view :: views) fs.size := by
  have inside : fs.size < (fs.push (some i)).size := by simp
  have sees : ∀ y b, (Scope.ofImplicit x).view y = some b → y = x := by
    intro y b bound
    by_contra other
    simp [Scope.view, Scope.ofImplicit, other] at bound
  have holds : Holds P ((fs.push (some i)).define fs.size x value) fs.size
      (Scope.ofImplicit x).view := by
    constructor
    · intro y b bound
      exact .inl ((Frames.has_define inside).2 (.inl ⟨rfl, sees y b bound⟩))
    · intro y _ has
      obtain ⟨-, rfl⟩ | has := (Frames.has_define inside).1 has
      · simp [Scope.view, Scope.ofImplicit]
      · exact absurd rfl (Frames.has_push.1 has).1
  have carries : Carries Nowhere P fs P ((fs.push (some i)).define fs.size x value) :=
    .pushWith _ _
  refine ⟨holds, i, ?_, h.inside nonempty, h.carry carries⟩
  rw [Frames.parent?_define, Frames.parent?_push, if_pos rfl]

/-- The frame of the innermost view binds no other names than the view, and none of its
names is pending. The global frame is not looked at. -/
def Exact (P : Pending) (fs : Frames Value) (views : List View) (i : FrameId) : Prop :=
  ∀ v ∈ views.head?, (∀ x, fs.Has i x → (v x).isSome) ∧ ∀ x, (i, x) ∉ P

/-- The name of one frame that a statement declares. -/
def Named (frame : FrameId) (declared : Option Token) : FrameId → String → Prop :=
  fun i x => i = frame ∧ ∃ name ∈ declared, x = name.lexeme

theorem Carries.weaken (h : Carries New P fs P' fs') (fewer : ∀ i x, (i, x) ∈ P'' → (i, x) ∈ P) :
    Carries New P'' fs P' fs' :=
  { h with pending := fun i x inside => h.pending i x (fewer i x inside) }

/-- With one more name in the innermost view a chain fits if the frame binds the name or
the name is pending. -/
theorem Fits.binds {name : Token} {ready : Bool} {views' : List View} (h : Fits P fs views i)
    (binds : Binds name ready views views') (plain : name.IsPlain)
    (carries : Carries New P fs P' fs')
    (bound : fs'.Has i name.lexeme ∨ ready = false ∧ (i, name.lexeme) ∈ P') :
    Fits P' fs' views' i := by
  have kept := h.carry carries
  cases views with
  | nil => rwa [show views' = [] from binds]
  | cons v outer =>
      obtain ⟨-, rfl⟩ := binds
      obtain ⟨holds, outside⟩ := kept
      refine ⟨⟨?_, ?_⟩, outside⟩
      · intro x b sees
        by_cases same : x = name.lexeme
        · subst same
          simp only [View.bind, Function.update_self, Option.some.injEq] at sees
          rw [← sees]
          exact bound
        · rw [View.bind, Function.update_of_ne same] at sees
          exact holds.bound x b sees
      · intro x implicit has
        have other : x ≠ name.lexeme := by
          rintro rfl
          exact implicit plain
        rw [View.bind, Function.update_of_ne other]
        exact holds.implicit x implicit has

theorem Exact.carry (h : Exact P fs views i) (carries : Carries Nowhere P fs P fs')
    (inside : i < fs.size) : Exact P fs' views i := by
  intro v first
  obtain ⟨names, fresh⟩ := h v first
  refine ⟨fun x has => ?_, fresh⟩
  obtain has | nowhere := carries.fresh i inside x has
  · exact names x has
  · cases nowhere

theorem Exact.binds {name : Token} {ready : Bool} {views' : List View} (h : Exact P fs views i)
    (binds : Binds name ready views views') (carries : Carries (Named i (some name)) P fs P fs')
    (inside : i < fs.size) : Exact P fs' views' i := by
  cases views with
  | nil =>
      rw [show views' = [] from binds]
      exact nofun
  | cons v outer =>
      obtain ⟨-, rfl⟩ := binds
      obtain ⟨names, fresh⟩ := h v rfl
      intro w first
      obtain rfl := Option.some.inj first
      refine ⟨fun x has => ?_, fresh⟩
      by_cases same : x = name.lexeme
      · rw [View.bind, same, Function.update_self]
        rfl
      · rw [View.bind, Function.update_of_ne same]
        obtain has | ⟨-, _, ⟨⟩, same'⟩ := carries.fresh i inside x has
        · exact names x has
        · exact absurd same' same

/-- A name that is about to be declared in a local scope is not bound in its frame. -/
theorem Exact.absent {name : Token} {ready : Bool} {views' : List View} (h : Exact P fs views i)
    (fits : Fits P fs views i) (binds : Binds name ready views views')
    (local' : i ≠ Machine.globals) : ¬fs.Has i name.lexeme := by
  cases views with
  | nil => exact absurd fits local'
  | cons v outer =>
      intro has
      have seen := (h v rfl).1 name.lexeme has
      rw [binds.1] at seen
      cases seen

theorem Exact.not_pending (h : Exact P fs views i) (fits : Fits P fs views i)
    (local' : i ≠ Machine.globals) : (i, x) ∉ P := by
  cases views with
  | nil => exact absurd fits local'
  | cons v outer => exact (h v rfl).2 x

theorem Carries.opens (entry : FrameId × String) : Carries New P fs (entry :: P) fs :=
  Carries.refl.weaken fun _ _ inside => List.mem_cons_of_mem entry inside

/-- While its initial value is computed, a name is in its scope and pending in its frame. -/
theorem Fits.opens {name : Token} {views' : List View} (h : Fits P fs views i)
    (binds : Binds name false views views') (plain : name.IsPlain) :
    Fits ((i, name.lexeme) :: P) fs views' i := by
  have carries : Carries Nowhere P fs ((i, name.lexeme) :: P) fs := .opens _
  exact h.binds binds plain carries (.inr ⟨rfl, List.mem_cons_self⟩)

end TreeWalk
