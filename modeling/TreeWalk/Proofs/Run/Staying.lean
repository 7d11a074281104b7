import TreeWalk.Proofs.Run.Stepwise

/-!
# Coming back to the frame of the start

Whatever the evaluator does, it ends in the frame in which it began, also if it stops for
a broken rule or a fault. Only blocks and calls move to another frame, and they come back.

## Implementation notes

Nothing is assumed of the machine: the links of its frames and the distances of the
program may be as they like.
-/

namespace TreeWalk

variable {α β : Type} {n : Nat}

namespace Eval

/-- The machine that a step leaves, whether it ends or stops. -/
def after (act : Eval α) (m : Machine) : Machine :=
  match act m with
  | .ok _ m' | .error _ m' => m'

theorem after_of_gives {act : Eval α} {m m' : Machine} {a : α} (run : act.Gives m a m') :
    act.after m = m' := by
  rw [after, show act m = .ok a m' from run]

theorem after_of_error {act : Eval α} {m m' : Machine} {stop : Stop}
    (run : act m = .error stop m') : act.after m = m' := by
  rw [after, run]

/-- What a step gives, if it ends well. -/
def answer? (act : Eval α) (m : Machine) : Option α :=
  match act m with
  | .ok a _ => some a
  | .error _ _ => none

theorem gives_after {act : Eval α} {m : Machine} {a : α} (given : act.answer? m = some a) :
    act.Gives m a (act.after m) := by
  rw [answer?] at given
  split at given
  next b m' run =>
    cases given
    rw [after_of_gives run]
    exact run
  next => cases given

/-- Behind a step that gives a result the next one goes on. -/
theorem after_bind_of_gives {x : Eval α} {f : α → Eval β} {m m' : Machine} {a : α}
    (run : x.Gives m a m') : (x >>= f).after m = (f a).after m' := by
  rw [after, bind_of_gives run, after]

theorem after_map (x : Eval α) (f : α → β) (m : Machine) : (f <$> x).after m = x.after m := by
  simp only [after, Functor.map, EStateM.map]
  cases x m <;> rfl

theorem after_bind_pure (x : Eval α) (b : β) (m : Machine) :
    (x >>= fun _ => pure b).after m = x.after m := by
  rw [← map_eq_pure_bind, after_map]

theorem bind_of_error {x : Eval α} {f : α → Eval β} {m m' : Machine} {stop : Stop}
    (run : x m = .error stop m') : (x >>= f) m = .error stop m' := by
  simp only [Bind.bind, EStateM.bind, run]

theorem map_of_error {x : Eval α} {f : α → β} {m m' : Machine} {stop : Stop}
    (run : x m = .error stop m') : (f <$> x) m = .error stop m' := by
  rw [map_eq_pure_bind, bind_of_error run]

theorem inFrame_of_error {act : Eval α} {frame : FrameId} {m m' : Machine} {stop : Stop}
    (run : act { m with current := frame } = .error stop m') :
    inFrame frame act m = .error stop { m' with current := m.current } := by
  rw [inFrame, run]

/-- Whether a step ends or stops, it leaves a machine that is related to the one on which
it began. -/
def Leaves (R : Machine → Machine → Prop) (act : Eval α) : Prop := ∀ m, R m (act.after m)

namespace Leaves

variable {R : Machine → Machine → Prop} {x y : Eval α} {f : α → Eval β}

theorem gives {m m' : Machine} {a : α} (h : x.Leaves R) (run : x.Gives m a m') : R m m' := by
  have leaves := h m
  rwa [after, show x m = .ok a m' from run] at leaves

protected theorem ite {p : Prop} [Decidable p] (yes : x.Leaves R) (no : y.Leaves R) :
    (if p then x else y).Leaves R := by
  split
  · exact yes
  · exact no

variable [IsPreorder Machine R]

protected theorem pure (a : α) : (Pure.pure a : Eval α).Leaves R := fun _ => refl _

protected theorem throw (stop : Stop) : (throw stop : Eval α).Leaves R := fun _ => refl _

protected theorem bind (first : x.Leaves R) (next : ∀ a, (f a).Leaves R) :
    (x >>= f).Leaves R := by
  intro m
  have leaves := first m
  simp only [after, Bind.bind, EStateM.bind] at leaves ⊢
  cases run : x m with
  | error stop m₁ =>
      rw [run] at leaves
      exact leaves
  | ok a m₁ =>
      rw [run] at leaves
      exact IsTrans.trans _ _ _ leaves (next a m₁)

protected theorem map {g : α → β} (h : x.Leaves R) : (g <$> x).Leaves R := by
  rw [map_eq_pure_bind]
  exact h.bind fun _ => .pure _

protected theorem get : (get : Eval Machine).Leaves R := fun _ => refl _

protected theorem inspect (look : Machine → Except Stop α) : (inspect look).Leaves R := by
  intro m
  simp only [after, Eval.inspect]
  cases look m <;> exact refl _

end Leaves

/-- Two machines are in the same frame. -/
def SameFrame (m m' : Machine) : Prop := m'.current = m.current

instance : IsPreorder Machine SameFrame where
  refl _ := rfl
  trans _ _ _ h h' := h'.trans h

/-- A step ends or stops in the frame in which it began. -/
abbrev Stays (act : Eval α) : Prop := act.Leaves SameFrame

/-- Whatever is done in another frame, the step comes back. -/
theorem inFrame_stays (frame : FrameId) (act : Eval α) : (inFrame frame act).Stays := by
  intro m
  simp only [after, Eval.inFrame]
  cases act { m with current := frame } <;> rfl

/-- No step moves to another frame for good. -/
theorem staying : Stepwise fun act _ => act.Stays where
  pure := .pure
  throw := .throw
  bind := .bind
  inFrame frame act _ _ := inFrame_stays frame act
  inspect _ := .inspect _
  change number f same := by
    intro m
    rw [after, same]
    rfl
  print _ _ := rfl
  readClock _ := rfl

/-- The frames of a call are made before the machine leaves the frame of the caller. -/
theorem call_frames_current {closure : Closure} {arguments : List Value} {outer inner : FrameId}
    {m m₁ m₂ m₃ : Machine} (first : (newFrame closure.frame).Gives m outer m₁)
    (second : (defineEach outer closure.params arguments).Gives m₁ () m₂)
    (third : (newFrame outer).Gives m₂ inner m₃) : m₃.current = m.current :=
  calc m₃.current = m₂.current := (staying.newFrame outer).gives third
    _ = m₁.current := (staying.defineEach _ _ _).gives second
    _ = m.current := (staying.newFrame _).gives first

end Eval

/-- Whatever the fuel is, the evaluator stays in its frame. -/
theorem staysAt (fuel : Nat) : HoldsAt (fun act _ => act.Stays) fuel fuel :=
  .same Eval.staying fuel

end TreeWalk
