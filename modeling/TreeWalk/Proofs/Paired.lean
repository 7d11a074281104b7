import Mathlib.Data.List.Forall2

/-!
# Computations side by side

The grammar, the scope rules and the evaluator are computations of one kind: they have a
state and may stop for a reason. Two of them are paired if, begun in states that are
alike, both end with results that are alike or both stop for reasons that are alike,
again in states that are.

## Implementation notes

Which states and reasons are alike is fixed for a whole pairing, so it is bundled. Which
results are alike changes from step to step.
-/

namespace TreeWalk

variable {ε ε' σ α α' β β' : Type}

/-- Two outcomes are both results or both errors, and alike. -/
inductive Except.Rel (P : ε → ε' → Prop) (Q : α → α' → Prop) : Except ε α → Except ε' α' → Prop
  | ok {a : α} {a' : α'} : Q a a' → Except.Rel P Q (.ok a) (.ok a')
  | error {e : ε} {e' : ε'} : P e e' → Except.Rel P Q (.error e) (.error e')

theorem Except.Rel.bind {P : ε → ε → Prop} {Q : α → α' → Prop} {Q' : β → β' → Prop}
    {x : Except ε α} {y : Except ε α'} {f : α → Except ε β} {g : α' → Except ε β'}
    (h : Except.Rel P Q x y) (next : ∀ a a', Q a a' → Except.Rel P Q' (f a) (g a')) :
    Except.Rel P Q' (x >>= f) (y >>= g) := by
  cases h with
  | ok same => exact next _ _ same
  | error same => exact .error same

theorem Except.Rel.map {P : ε → ε' → Prop} {Q : α → α' → Prop} {Q' : β → β' → Prop}
    {x : Except ε α} {y : Except ε' α'} {f : α → β} {g : α' → β'} (h : Except.Rel P Q x y)
    (both : ∀ a a', Q a a' → Q' (f a) (g a')) : Except.Rel P Q' (x.map f) (y.map g) := by
  cases h with
  | ok same => exact .ok (both _ _ same)
  | error same => exact .error same

theorem Except.Rel.imp {P P' : ε → ε' → Prop} {Q Q' : α → α' → Prop} {x : Except ε α}
    {y : Except ε' α'} (h : Except.Rel P Q x y) (errors : ∀ e e', P e e' → P' e e')
    (results : ∀ a a', Q a a' → Q' a a') : Except.Rel P' Q' x y := by
  cases h with
  | ok same => exact .ok (results _ _ same)
  | error same => exact .error (errors _ _ same)

/-- Which states of two computations are alike, and which of their reasons to stop. -/
structure Likeness (ε σ : Type) where
  states : σ → σ → Prop
  reasons : ε → ε → Prop

/-- Two computations come to the same in results and states that are alike. -/
inductive Likeness.Results (L : Likeness ε σ) (Q : α → α' → Prop) :
    EStateM.Result ε σ α → EStateM.Result ε σ α' → Prop
  | ok {a : α} {a' : α'} {s s' : σ} : Q a a' → L.states s s' → L.Results Q (.ok a s) (.ok a' s')
  | error {e e' : ε} {s s' : σ} : L.reasons e e' → L.states s s' →
      L.Results Q (.error e s) (.error e' s')

/-- Begun in states that are alike, two computations come to the same. -/
def Paired (L : Likeness ε σ) (Q : α → α' → Prop) (x : EStateM ε σ α) (y : EStateM ε σ α') :
    Prop :=
  ∀ ⦃s s' : σ⦄, L.states s s' → L.Results Q (x s) (y s')

namespace Paired

variable {L : Likeness ε σ} {Q : α → α' → Prop} {P : β → β' → Prop}
  {x : EStateM ε σ α} {y : EStateM ε σ α'}

protected theorem pure {a : α} {a' : α'} (h : Q a a') : Paired L Q (pure a) (pure a') :=
  fun _ _ alike => .ok h alike

protected theorem throw {e e' : ε} (h : L.reasons e e') : Paired L Q (throw e) (throw e') :=
  fun _ _ alike => .error h alike

protected theorem bind {f : α → EStateM ε σ β} {g : α' → EStateM ε σ β'} (first : Paired L Q x y)
    (next : ∀ a a', Q a a' → Paired L P (f a) (g a')) : Paired L P (x >>= f) (y >>= g) := by
  intro s s' alike
  simp only [Bind.bind, EStateM.bind]
  have both := first alike
  generalize x s = one, y s' = other at both
  cases both with
  | ok same mid => exact next _ _ same mid
  | error same mid => exact .error same mid

/-- A first step that gives the same on both sides. -/
theorem bind_same {f : α → EStateM ε σ β} {g : α → EStateM ε σ β'} {x y : EStateM ε σ α}
    (first : Paired L Eq x y) (next : ∀ a, Paired L P (f a) (g a)) :
    Paired L P (x >>= f) (y >>= g) :=
  first.bind fun a _ same => same ▸ next a

protected theorem map {f : α → β} {g : α' → β'} (h : Paired L Q x y)
    (both : ∀ a a', Q a a' → P (f a) (g a')) : Paired L P (f <$> x) (g <$> y) := by
  rw [map_eq_pure_bind, map_eq_pure_bind]
  exact h.bind fun a a' same => .pure (both a a' same)

protected theorem get : Paired L L.states (get : EStateM ε σ σ) get :=
  fun _ _ alike => .ok alike alike

protected theorem modify {f g : σ → σ} (h : ∀ s s', L.states s s' → L.states (f s) (g s')) :
    Paired L Eq (modify f : EStateM ε σ PUnit) (modify g) :=
  fun s s' alike => .ok rfl (h s s' alike)

protected theorem ite {p q : Prop} [Decidable p] [Decidable q] {x' : EStateM ε σ α}
    {y' : EStateM ε σ α'} (same : p ↔ q) (yes : Paired L Q x y) (no : Paired L Q x' y') :
    Paired L Q (if p then x else x') (if q then y else y') := by
  by_cases h : p
  · rwa [if_pos h, if_pos (same.1 h)]
  · rwa [if_neg h, if_neg fun h' => h (same.2 h')]

/-- Rows are gone through side by side. -/
protected theorem forM {R : α → α' → Prop} {f : α → EStateM ε σ PUnit}
    {g : α' → EStateM ε σ PUnit} {row : List α} {row' : List α'} (rows : List.Forall₂ R row row')
    (body : ∀ a a', R a a' → Paired L Eq (f a) (g a')) :
    Paired L Eq (row.forM f) (row'.forM g) := by
  induction rows with
  | nil => exact .pure rfl
  | cons same _ ih => exact (body _ _ same).bind_same fun _ => ih

end Paired

end TreeWalk
