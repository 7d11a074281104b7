import TreeWalk.Proofs.Loops.Counting

/-!
# Distances without the scopes of passes

A shape tells of the scopes around a place which of them are those of passes of counting loops.
Thinning a tree leaves these out of all its distances.

## Implementation notes

Scopes that are further out than a shape says are no scopes of passes.
-/

namespace TreeWalk

/-- Whether each of the scopes around a place, innermost first, is that of a pass. -/
abbrev Shape : Type := List Bool

/-- A distance without the scopes of passes. -/
def Shape.thin : Shape → Nat → Nat
  | _, 0 => 0
  | [], distance + 1 => distance + 1
  | true :: outer, distance + 1 => Shape.thin outer distance
  | false :: outer, distance + 1 => Shape.thin outer distance + 1

/-- The shape inside of a function: the scopes of its parameters and of its body come with it. -/
def Shape.inRoutine (shape : Shape) : Shape := false :: false :: shape

/-- The shape around the methods of a class. -/
def Shape.inClass (hasSuperclass : Bool) (shape : Shape) : Shape :=
  false :: if hasSuperclass then false :: shape else shape

/-- A reference whose distance is thinned. -/
def Reference.thin (shape : Shape) (reference : Reference) : Reference :=
  { reference with distance := reference.distance.map shape.thin }

mutual

/-- An expression whose distances are thinned. -/
def Expr.thin (shape : Shape) : Expr → Expr
  | .literal value => .literal value
  | .variable reference => .variable (reference.thin shape)
  | .assign reference value => .assign (reference.thin shape) (value.thin shape)
  | .this reference => .this (reference.thin shape)
  | .super reference method => .super (reference.thin shape) method
  | .grouping inner => .grouping (inner.thin shape)
  | .unary operator operand => .unary operator (operand.thin shape)
  | .binary left operator right => .binary (left.thin shape) operator (right.thin shape)
  | .logical left operator right => .logical (left.thin shape) operator (right.thin shape)
  | .conditional condition consequent alternative =>
    .conditional (condition.thin shape) (consequent.thin shape) (alternative.thin shape)
  | .comma items => .comma (Expr.thinEach shape items)
  | .call callee paren arguments => .call (callee.thin shape) paren (Expr.thinEach shape arguments)
  | .get object name => .get (object.thin shape) name
  | .set object name value => .set (object.thin shape) name (value.thin shape)
  | .lambda keyword params body => .lambda keyword params (Stmt.thinEach shape.inRoutine body)

/-- Expressions whose distances are thinned. -/
def Expr.thinEach (shape : Shape) : List Expr → List Expr
  | [] => []
  | e :: rest => e.thin shape :: Expr.thinEach shape rest

/-- A statement whose distances are thinned. -/
def Stmt.thin (shape : Shape) : Stmt → Stmt
  | .expression value => .expression (value.thin shape)
  | .print value => .print (value.thin shape)
  | .varDecl name none => .varDecl name none
  | .varDecl name (some initial) => .varDecl name (some (initial.thin shape))
  | .block body => .block (Stmt.thinEach (false :: shape) body)
  | .branch condition consequent none => .branch (condition.thin shape) (consequent.thin shape) none
  | .branch condition consequent (some alternative) =>
    .branch (condition.thin shape) (consequent.thin shape) (some (alternative.thin shape))
  | .loop condition (.block items) =>
    .loop (condition.thin shape)
      (.block (Stmt.thinEach ((Stmt.pass? items).isSome :: shape) items))
  | .loop condition body => .loop (condition.thin shape) (body.thin shape)
  | .functionDecl function => .functionDecl (function.thin shape)
  | .classDecl name parent methods =>
    .classDecl name (parent.map (Reference.thin shape))
      (FunctionDecl.thinEach (shape.inClass parent.isSome) methods)
  | .returns keyword none => .returns keyword none
  | .returns keyword (some value) => .returns keyword (some (value.thin shape))

/-- Statements whose distances are thinned. -/
def Stmt.thinEach (shape : Shape) : List Stmt → List Stmt
  | [] => []
  | s :: rest => s.thin shape :: Stmt.thinEach shape rest

/-- A function whose distances are thinned. -/
def FunctionDecl.thin (shape : Shape) : FunctionDecl → FunctionDecl
  | .mk name params body => .mk name params (Stmt.thinEach shape.inRoutine body)

/-- Functions whose distances are thinned. -/
def FunctionDecl.thinEach (shape : Shape) : List FunctionDecl → List FunctionDecl
  | [] => []
  | f :: rest => f.thin shape :: FunctionDecl.thinEach shape rest

end

variable {shape : Shape}

theorem Expr.length_thinEach (items : List Expr) :
    (Expr.thinEach shape items).length = items.length := by
  induction items with
  | nil => rfl
  | cons e rest ih => simp [Expr.thinEach, ih]

theorem Stmt.length_thinEach (items : List Stmt) :
    (Stmt.thinEach shape items).length = items.length := by
  induction items with
  | nil => rfl
  | cons s rest ih => simp [Stmt.thinEach, ih]

/-- Thinning makes no declarations and takes none away. -/
theorem Stmt.isPlain_thin : ∀ {s : Stmt} {shape : Shape}, (s.thin shape).IsPlain ↔ s.IsPlain
  | .branch _ _ none, _ => by
    rw [Stmt.thin, Stmt.IsPlain, Stmt.IsPlain, isPlain_thin]
  | .branch _ _ (some _), _ => by
    rw [Stmt.thin, Stmt.IsPlain, Stmt.IsPlain, isPlain_thin, isPlain_thin]
  | .loop _ body, _ => by
    cases body with
    | block => exact Iff.rfl
    | _ =>
      rw [Stmt.thin, Stmt.IsPlain, Stmt.IsPlain, isPlain_thin]
      nofun
  | .expression _, _ | .print _, _ | .block _, _ | .functionDecl _, _ | .classDecl _ _ _, _ => by
    simp [Stmt.thin, Stmt.IsPlain]
  | .varDecl _ none, _ | .varDecl _ (some _), _ | .returns _ none, _ | .returns _ (some _), _ => by
    simp [Stmt.thin, Stmt.IsPlain]

/-- Thinned statements are a pass exactly if the statements are one. -/
theorem Stmt.pass?_thinEach (items : List Stmt) :
    Stmt.pass? (Stmt.thinEach shape items) =
      (Stmt.pass? items).map fun (body, step) => (body.thin shape, step.thin shape) := by
  match items with
  | [] | [_] | _ :: _ :: _ :: _ => simp [Stmt.thinEach, Stmt.pass?]
  | [body, second] =>
    rcases second with step | _ | ⟨_, _ | _⟩ | _ | ⟨_, _, _ | _⟩ | ⟨_, again⟩ | _ | _ | ⟨_, _ | _⟩
    case expression =>
      simp only [Stmt.thinEach, Stmt.thin, Stmt.pass?, Stmt.isPlain_thin]
      split <;> rfl
    case loop => cases again <;> rfl
    all_goals rfl

/-- What a loop runs with its distances thinned. -/
def Stmt.thinPass (shape : Shape) : Stmt → Stmt
  | .block items => .block (Stmt.thinEach ((Stmt.pass? items).isSome :: shape) items)
  | s => s.thin shape

theorem Stmt.thin_loop (shape : Shape) (condition : Expr) (body : Stmt) :
    (Stmt.loop condition body).thin shape =
      .loop (condition.thin shape) (body.thinPass shape) := by
  cases body <;> rfl

theorem Stmt.thinPass_other {s : Stmt} (other : ∀ items, s ≠ .block items) :
    s.thinPass shape = s.thin shape := by
  cases s with
  | block items => exact absurd rfl (other items)
  | _ => rfl

/-- What a thinned loop runs counts exactly if what the loop runs does. -/
theorem Stmt.counted?_thin {s : Stmt} (other : ∀ items, s ≠ .block items) :
    (s.thin shape).counted? = none := by
  rcases s with _ | _ | ⟨_, _ | _⟩ | body | ⟨_, _, _ | _⟩ | ⟨_, again⟩ | _ | _ | ⟨_, _ | _⟩
  case block => exact absurd rfl (other body)
  case loop => cases again <;> rfl
  all_goals rfl

end TreeWalk
