import TreeWalk.Proofs.Gives
import TreeWalk.Proofs.Run.Heaps

/-!
# Safe steps

A step of a run is safe for a postcondition if it ends in a state with the postcondition
or stops for another reason than a fault and leaves a sound heap. In both cases the run
is in the frame in which it was before.

## Implementation notes

A step that always ends well is described by `Gives` and taken off the front of a
computation with `Safe.step`; any other one has a postcondition and is taken off with
`Safe.bind`.
-/

namespace TreeWalk

variable {α β : Type} {W : Spot → Prop} {P : Pending} {m m' : Machine}

/-- A step ends with a postcondition or stops without a fault. -/
def Safe (W : Spot → Prop) (act : Eval α) (m : Machine) (Q : α → Machine → Prop) : Prop :=
  match act.run m with
  | .ok a m' => m'.current = m.current ∧ Q a m'
  | .error stop m' =>
    m'.current = m.current ∧ (∀ fault, stop ≠ .fault fault) ∧ ∃ P, m'.heap.Sound W P

namespace Safe

variable {act : Eval α} {f : α → Eval β} {Q Q' : α → Machine → Prop} {R : β → Machine → Prop}

theorem of_gives {a : α} (h : act.Gives m a m') (still : m'.current = m.current) (post : Q a m') :
    Safe W act m Q := by
  unfold Safe
  rw [h]
  exact ⟨still, post⟩

theorem gives {a : α} (h : Safe W act m Q) (run : act.Gives m a m') :
    m'.current = m.current ∧ Q a m' := by
  unfold Safe at h
  rw [run] at h
  exact h

theorem pure {a : α} (post : Q a m) : Safe W (pure a) m Q :=
  of_gives (show (Pure.pure a : Eval α).Gives m a m from rfl) rfl post

theorem mono (h : Safe W act m Q) (weaker : ∀ a m', m'.current = m.current → Q a m' → Q' a m') :
    Safe W act m Q' := by
  unfold Safe at *
  split
  next a m' run =>
    rw [run] at h
    exact ⟨h.1, weaker a m' h.1 h.2⟩
  next stop m' run =>
    rw [run] at h
    exact h

theorem bind (h : Safe W act m Q)
    (next : ∀ a m', act.Gives m a m' → m'.current = m.current → Q a m' → Safe W (f a) m' R) :
    Safe W (act >>= f) m R := by
  unfold Safe at h ⊢
  simp only [EStateM.run, Bind.bind, EStateM.bind] at h ⊢
  cases run : act m with
  | error stop m' =>
      rw [run] at h
      exact h
  | ok a m' =>
      rw [run] at h
      have rest := next a m' run h.1 h.2
      unfold Safe at rest
      rw [← h.1]
      exact rest

/-- A step that ends well is followed by the next one. -/
theorem step {a : α} (h : act.Gives m a m') (still : m'.current = m.current)
    (next : Safe W (f a) m' R) : Safe W (act >>= f) m R := by
  apply bind (of_gives (Q := fun b after => b = a ∧ after = m') h still ⟨rfl, rfl⟩)
  rintro _ _ - - ⟨rfl, rfl⟩
  exact next

theorem get_bind {f : Machine → Eval β} (next : Safe W (f m) m R) : Safe W (get >>= f) m R :=
  step (show (get : Eval Machine).Gives m m m from rfl) rfl next

theorem map {g : α → β} (h : Safe W act m fun a m' => R (g a) m') : Safe W (g <$> act) m R := by
  unfold Safe at h ⊢
  simp only [EStateM.run, Functor.map, EStateM.map] at h ⊢
  cases run : act m <;> (rw [run] at h; exact h)

/-- A broken rule leaves everything as it is. -/
theorem raise (sound : m.heap.Sound W P) (cause : RuntimeCause) (token : Token) :
    Safe W (Eval.raise cause token) m Q :=
  ⟨rfl, nofun, P, sound⟩

theorem outOfFuel (sound : m.heap.Sound W P) : Safe W (throw .outOfFuel) m Q :=
  ⟨rfl, nofun, P, sound⟩

theorem inspect {look : Machine → Except Stop α} (sound : m.heap.Sound W P)
    (ok : ∀ a, look m = .ok a → Q a m)
    (noFault : ∀ stop, look m = .error stop → ∀ fault, stop ≠ .fault fault) :
    Safe W (Eval.inspect look) m Q := by
  simp only [Safe, Eval.inspect, EStateM.run]
  cases found : look m with
  | ok a => exact ⟨rfl, ok a found⟩
  | error stop => exact ⟨rfl, noFault stop found, P, sound⟩

/-- In another frame the rest of the machine is the same. -/
theorem inFrame {frame : FrameId}
    (h : Safe W act { m with current := frame } fun a m' => Q a { m' with current := m.current }) :
    Safe W (Eval.inFrame frame act) m Q := by
  simp only [Safe, Eval.inFrame, EStateM.run] at h ⊢
  cases run : act { m with current := frame } with
  | ok a m' =>
      rw [run] at h
      exact ⟨rfl, h.2⟩
  | error stop m' =>
      rw [run] at h
      exact ⟨rfl, h.2⟩

end Safe

end TreeWalk
