import TreeWalk.Proofs.Loops.Stripping

/-!
# Runs that agree but for the frames of passes

Two runs agree if they come to the same on a machine and on the same machine without the frames
of passes: both end with the same, or both stop for the same reason, and afterwards the one
machine is again the other one without the frames of passes.

## Implementation notes

What is known of frames and values is handed on from step to step, so agreement is stated from a
machine onward: it is about all machines that go on from it. Nothing is said of runs that end in
a fault, which trees with distances do not run into.
-/

namespace TreeWalk

namespace Erasure

open Eval

variable {α β γ δ : Type} {E E' E'' : Erasure} {m m' m'' d d' : Machine}

/-- A machine goes on from another one, and what runs on it runs in the same frame. -/
structure Onward (E : Erasure) (m : Machine) (E' : Erasure) (m' : Machine) : Prop where
  heap : E.Later m.heap E' m'.heap
  current : m'.current = m.current
  inside : m.current < m.heap.frames.size

namespace Onward

theorem refl (E : Erasure) (inside : m.current < m.heap.frames.size) : E.Onward m E m :=
  ⟨.refl E m.heap, rfl, inside⟩

theorem trans (one : E.Onward m E' m') (other : E'.Onward m' E'' m'') : E.Onward m E'' m'' :=
  ⟨one.heap.trans other.heap, other.current.trans one.current, one.inside⟩

/-- The shape around the current frame stays. -/
theorem shape_eq (onward : E.Onward m E' m') :
    E'.shape m'.heap.frames m'.current = E.shape m.heap.frames m.current := by
  rw [onward.current]
  exact onward.heap.shape_eq onward.inside

/-- The current frame stays what it is. -/
theorem kept (onward : E.Onward m E' m') (kept : E.isPass m.current = false) :
    E'.isPass m'.current = false := by
  rw [onward.current, onward.heap.isPass _ onward.inside, kept]

theorem within (onward : E.Onward m E' m') {i : FrameId} (inside : i < m.heap.frames.size) :
    i < m'.heap.frames.size :=
  Nat.lt_of_lt_of_le inside onward.heap.size

end Onward

/-- What is left of a machine is found in the place of its current frame. -/
theorem StripsMachine.current_of (strips : E'.StripsMachine m' d') (onward : E.Onward m E' m') :
    d'.current = E.place m.current := by
  rw [strips.current, onward.current, onward.heap.place _ onward.inside]

/-- What is known of the results of two runs. -/
abbrev Knowing (α β : Type) : Type := Erasure → Heap → α → β → Prop

/-- What two runs come to that agree. -/
inductive Outcome (E : Erasure) (m : Machine) (Q : Knowing α β) :
    EStateM.Result Stop Machine α → EStateM.Result Stop Machine β → Prop
  | ok {E' : Erasure} {a : α} {b : β} {m' d' : Machine} : E.Onward m E' m' →
      E'.StripsMachine m' d' → Q E' m'.heap a b → Outcome E m Q (.ok a m') (.ok b d')
  | error {E' : Erasure} {stop : Stop} {m' d' : Machine} : E.Onward m E' m' →
      E'.StripsMachine m' d' → Outcome E m Q (.error stop m') (.error stop d')
  | fault {f : Fault} {m' : Machine} {result : EStateM.Result Stop Machine β} :
      Outcome E m Q (.error (.fault f) m') result

/-- What two computations that look at a machine come to. -/
inductive Sees (Q : α → β → Prop) : Except Stop α → Except Stop β → Prop
  | ok {a : α} {b : β} : Q a b → Sees Q (.ok a) (.ok b)
  | error {stop : Stop} : Sees Q (.error stop) (.error stop)
  | fault {f : Fault} {result : Except Stop β} : Sees Q (.error (.fault f)) result

/-- From a machine onward, two runs agree. -/
def Agrees (E : Erasure) (m : Machine) (Q : Knowing α β) (x : Eval α) (y : Eval β) : Prop :=
  ∀ ⦃E' : Erasure⦄ ⦃m' d' : Machine⦄, E.Onward m E' m' → E'.StripsMachine m' d' →
    E'.Outcome m' Q (x m') (y d')

variable {Q : Knowing α β} {P : Knowing γ δ}

theorem Outcome.onward {x : EStateM.Result Stop Machine α} {y : EStateM.Result Stop Machine β}
    (h : E'.Outcome m' Q x y) (onward : E.Onward m E' m') : E.Outcome m Q x y := by
  cases h with
  | ok further strips known => exact .ok (onward.trans further) strips known
  | error further strips => exact .error (onward.trans further) strips
  | fault => exact .fault

theorem Sees.bind {Q : α → β → Prop} {P : γ → δ → Prop} {x : Except Stop α} {y : Except Stop β}
    {f : α → Except Stop γ} {g : β → Except Stop δ} (h : Sees Q x y)
    (next : ∀ a b, Q a b → Sees P (f a) (g b)) : Sees P (x >>= f) (y >>= g) := by
  cases h with
  | ok known => exact next _ _ known
  | error => exact .error
  | fault => exact .fault

namespace Agrees

variable {x : Eval α} {y : Eval β}

/-- Runs that agree from a machine onward agree from any later one onward. -/
theorem later (h : E.Agrees m Q x y) (onward : E.Onward m E' m') : E'.Agrees m' Q x y :=
  fun _ _ _ further strips => h (onward.trans further) strips

/-- There is a current frame. -/
theorem here (h : m.current < m.heap.frames.size → E.Agrees m Q x y) : E.Agrees m Q x y :=
  fun _ _ _ onward strips => h onward.inside onward strips

protected theorem imp {Q' : Knowing α β} (h : E.Agrees m Q x y)
    (more : ∀ {E' m' a b}, E.Onward m E' m' → Q E' m'.heap a b → Q' E' m'.heap a b) :
    E.Agrees m Q' x y := by
  intro E' m' d' onward strips
  have both := h onward strips
  generalize x m' = one, y d' = other at both
  cases both with
  | ok further strips known => exact .ok further strips (more (onward.trans further) known)
  | error further strips => exact .error further strips
  | fault => exact .fault

protected theorem pure {a : α} {b : β}
    (known : ∀ {E' m'}, E.Onward m E' m' → Q E' m'.heap a b) :
    E.Agrees m Q (pure a) (pure b) :=
  fun E' _ _ onward strips => .ok (.refl E' strips.inside) strips (known onward)

protected theorem throw (stop : Stop) : E.Agrees m Q (throw stop) (throw stop) :=
  fun E' _ _ _ strips => .error (.refl E' strips.inside) strips

protected theorem fault (f : Fault) : E.Agrees m Q (throw (.fault f)) y :=
  fun _ _ _ _ _ => .fault

protected theorem bind {f : α → Eval γ} {g : β → Eval δ} (first : E.Agrees m Q x y)
    (next : ∀ {E' m' a b}, E.Onward m E' m' → Q E' m'.heap a b → E'.Agrees m' P (f a) (g b)) :
    E.Agrees m P (x >>= f) (y >>= g) := by
  intro E' m' d' onward strips
  have both := first onward strips
  simp only [Bind.bind, EStateM.bind]
  generalize x m' = one, y d' = other at both
  cases both with
  | @ok E'' _ _ _ _ further strips known =>
      have after := next (onward.trans further) known (.refl E'' strips.inside) strips
      exact after.onward further
  | error further strips => exact .error further strips
  | fault => exact .fault

protected theorem ite {p : Prop} [Decidable p] {x' : Eval α} {y' : Eval β}
    (yes : E.Agrees m Q x y) (no : E.Agrees m Q x' y') :
    E.Agrees m Q (if p then x else x') (if p then y else y') := by
  split
  · exact yes
  · exact no

protected theorem inspect {f : Machine → Except Stop α} {g : Machine → Except Stop β}
    (h : ∀ {E' m' d'}, E.Onward m E' m' → E'.StripsMachine m' d' →
      Sees (Q E' m'.heap) (f m') (g d')) : E.Agrees m Q (inspect f) (inspect g) := by
  intro E' m' d' onward strips
  have both := h onward strips
  unfold Eval.inspect
  generalize f m' = one, g d' = other at both
  cases both with
  | ok known => exact .ok (.refl E' strips.inside) strips known
  | error => exact .error (.refl E' strips.inside) strips
  | fault => exact .fault

/-- What is seen of a machine is the same. -/
theorem look {see : Machine → γ} {f : γ → Eval α} {g : γ → Eval β}
    (same : ∀ {E' : Erasure} {m' d'}, E'.StripsMachine m' d' → see d' = see m')
    (next : ∀ c, E.Agrees m Q (f c) (g c)) :
    E.Agrees m Q (do f (see (← get))) (do g (see (← get))) := by
  intro E' m' d' onward strips
  rw [get_bind_apply, get_bind_apply, same strips]
  exact next _ onward strips

/-- The current frame of the one machine is the place of that of the other. -/
theorem current {f : FrameId → Eval α} {g : FrameId → Eval β}
    (h : E.Agrees m Q (f m.current) (g (E.place m.current))) :
    E.Agrees m Q (do f (← get).current) (do g (← get).current) := by
  intro E' m' d' onward strips
  rw [get_bind_apply, get_bind_apply, onward.current, strips.current_of onward]
  exact h onward strips

/-- What runs in another frame runs in its place. -/
theorem inFrame {i : FrameId} (inside : i < m.heap.frames.size)
    (act : E.Agrees { m with current := i } Q x y) :
    E.Agrees m Q (Eval.inFrame i x) (Eval.inFrame (E.place i) y) := by
  intro E' m' d' onward strips
  have moved : E'.StripsMachine { m' with current := i } { d' with current := E.place i } :=
    { strips with
      inside := onward.within inside
      current := (onward.heap.place i inside).symm }
  have start : E.Onward { m with current := i } E' { m' with current := i } :=
    ⟨onward.heap, rfl, inside⟩
  have both := act start moved
  unfold Eval.inFrame
  generalize x { m' with current := i } = one, y { d' with current := E.place i } = other at both
  have back {E'' : Erasure} {after after' : Machine}
      (further : E'.Onward { m' with current := i } E'' after)
      (strips' : E''.StripsMachine after after') :
      E'.Onward m' E'' { after with current := m'.current } ∧
        E''.StripsMachine { after with current := m'.current }
          { after' with current := d'.current } := by
    refine ⟨⟨further.heap, rfl, strips.inside⟩, { strips' with inside := ?_, current := ?_ }⟩
    · exact Nat.lt_of_lt_of_le strips.inside further.heap.size
    · exact strips.current.trans (further.heap.place _ strips.inside).symm
  cases both with
  | ok further strips' known =>
      obtain ⟨further, strips'⟩ := back further strips'
      exact .ok further strips' known
  | error further strips' =>
      obtain ⟨further, strips'⟩ := back further strips'
      exact .error further strips'
  | fault => exact .fault

end Agrees

end Erasure

end TreeWalk
