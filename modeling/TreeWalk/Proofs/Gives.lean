/-!
# Steps that give a result

The grammar, the scope rules and the evaluator are computations of one kind: they have a
state and may stop for a reason. `Gives` says of one of them that it ends with a result,
and in which state.

## Implementation notes

The lemmas take a composed computation apart into its steps, so that a description of a
function follows by rewriting with them.
-/

namespace EStateM

variable {ε σ α β : Type} {s s' : σ}

/-- A computation ends with a result in a state. -/
def Gives (act : EStateM ε σ α) (s : σ) (a : α) (s' : σ) : Prop :=
  act.run s = .ok a s'

end EStateM

namespace TreeWalk

variable {ε σ α β : Type} {s s' : σ}

/-- There is one result of a computation that has none to give. -/
theorem exists_unit {p : PUnit → Prop} : (∃ u, p u) ↔ p ⟨⟩ :=
  ⟨fun ⟨_, h⟩ => h, fun h => ⟨⟨⟩, h⟩⟩

theorem bind_gives {x : EStateM ε σ α} {f : α → EStateM ε σ β} {b : β} :
    (x >>= f).Gives s b s' ↔ ∃ a mid, x.Gives s a mid ∧ (f a).Gives mid b s' := by
  simp only [EStateM.Gives, EStateM.run, bind, EStateM.bind]
  split
  next a mid h => grind
  next h => simp [h]

@[simp] theorem pure_gives {a b : α} :
    (pure a : EStateM ε σ α).Gives s b s' ↔ b = a ∧ s' = s := by
  simp [EStateM.Gives, EStateM.run, pure, EStateM.pure, eq_comm]

@[simp] theorem throw_gives {e : ε} {a : α} :
    (throw e : EStateM ε σ α).Gives s a s' ↔ False := by
  show (EStateM.Result.error e s : EStateM.Result ε σ α) = .ok a s' ↔ False
  simp

/-- A step that gives a result is followed by the next one. -/
theorem bind_of_gives {x : EStateM ε σ α} {f : α → EStateM ε σ β} {a : α} (run : x.Gives s a s') :
    (x >>= f) s = f a s' := by
  simp only [bind, EStateM.bind, show x s = .ok a s' from run]

theorem get_bind_apply {f : σ → EStateM ε σ β} : ((get : EStateM ε σ σ) >>= f) s = f s s := rfl

theorem bind_of_map {γ : Type} {x : EStateM ε σ γ} {y : EStateM ε σ α} {g : α → γ}
    {f : γ → EStateM ε σ β} (same : x s = (g <$> y) s) :
    (x >>= f) s = (y >>= fun a => f (g a)) s := by
  simp only [bind, EStateM.bind, same, Functor.map, EStateM.map]
  cases y s <;> rfl

theorem map_gives {x : EStateM ε σ α} {f : α → β} {b : β} :
    (f <$> x).Gives s b s' ↔ ∃ a, x.Gives s a s' ∧ b = f a := by
  simp only [EStateM.Gives, EStateM.run, Functor.map, EStateM.map]
  split
  next a mid h => grind
  next h => simp [h]

theorem seqRight_gives {x : EStateM ε σ α} {y : EStateM ε σ β} {b : β} :
    (x *> y).Gives s b s' ↔ ∃ a mid, x.Gives s a mid ∧ y.Gives mid b s' :=
  bind_gives (f := fun _ => y)

@[simp] theorem get_gives {a : σ} :
    (get : EStateM ε σ σ).Gives s a s' ↔ a = s ∧ s' = s := by
  show (EStateM.Result.ok s s : EStateM.Result ε σ σ) = .ok a s' ↔ a = s ∧ s' = s
  simp [eq_comm]

theorem get_bind_gives {f : σ → EStateM ε σ β} {b : β} :
    ((get : EStateM ε σ σ) >>= f).Gives s b s' ↔ (f s).Gives s b s' := by
  simp [bind_gives, and_assoc]

@[simp] theorem modify_gives {f : σ → σ} {u : PUnit} :
    (modify f : EStateM ε σ PUnit).Gives s u s' ↔ s' = f s := by
  show (EStateM.Result.ok PUnit.unit (f s) : EStateM.Result ε σ PUnit) = .ok u s' ↔ s' = f s
  simp [eq_comm]

end TreeWalk
