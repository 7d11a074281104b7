import TreeWalk.Proofs.Run.Starting

/-!
# Evaluating admitted expressions is safe

The evaluator gives a value for an admitted expression, or it stops without a fault. Each
step of it starts visits that are admitted, so what they leave is known, and composes
what they left.

## Implementation notes

The operators are the only place where a computation on values could fault. They refuse
a divisor of zero before the quotient is computed.
-/

namespace TreeWalk

open Eval

variable {W : Spot → Prop} {P : Pending} {n : Nat} {m m₁ m₂ : Machine}

namespace Operators

/-- A result of an operator is a scalar or a broken rule. -/
def Fair : Except Stop Value → Prop
  | .ok v => ∃ s, v = .scalar s
  | .error stop => ∃ e, stop = .error e

theorem refuse_fair (cause : RuntimeCause) (operator : Token) : Fair (refuse cause operator) :=
  ⟨_, rfl⟩

theorem arithmetic_fair (operator : Token) (x y : Float) : Fair (arithmetic operator x y) := by
  unfold arithmetic
  split
  case h_7 =>
    -- The quotient is computed only for a divisor that is not zero.
    split
    next => exact refuse_fair _ _
    next nonzero =>
      rw [quotient, if_neg nonzero]
      exact ⟨_, rfl⟩
  case h_8 => exact refuse_fair _ _
  all_goals exact ⟨_, rfl⟩

theorem binary_fair (operator : Token) (left right : Value) :
    Fair (binary operator left right) := by
  unfold binary
  split
  · exact ⟨_, rfl⟩
  · exact ⟨_, rfl⟩
  · split
    · exact ⟨_, rfl⟩
    · exact ⟨_, rfl⟩
    · exact refuse_fair _ _
  · split
    · exact arithmetic_fair _ _ _
    · exact refuse_fair _ _

theorem unary_fair (operator : Token) (operand : Value) : Fair (unary operator operand) := by
  unfold unary
  split
  · exact ⟨_, rfl⟩
  · split
    · exact ⟨_, rfl⟩
    · exact refuse_fair _ _
  · exact refuse_fair _ _

end Operators

theorem operate_safe {result : Except Stop Value} (fair : Operators.Fair result)
    (sound : m.heap.Sound W P) : Safe W (operate result) m (Gave W P m) := by
  cases result with
  | ok v =>
      obtain ⟨s, rfl⟩ := fair
      exact Safe.pure ⟨sound, .refl, trivial⟩
  | error stop =>
      obtain ⟨e, rfl⟩ := fair
      exact Safe.raise sound _ _

theorem Gave.trans {v v' : Value} (gave : Gave W P m v m₁) (gave' : Gave W P m₁ v' m₂) :
    Gave W P m v' m₂ :=
  ⟨gave'.1, gave.2.1.trans gave'.2.1, gave'.2.2⟩

theorem Safe.after_gave {act : Eval Value} {v : Value} (gave : Gave W P m v m₁)
    (h : Safe W act m₁ (Gave W P m₁)) : Safe W act m₁ (Gave W P m) :=
  h.mono fun _ _ _ gave' => gave.trans gave'

theorem readReference_gave {reference : Reference} {views : List View} (sound : m.heap.Sound W P)
    (fits : Fits P m.heap.frames views m.current) (located : reference.IsLocated views) :
    Safe W (readReference reference) m (Gave W P m) := by
  apply (readReference_safe sound fits located).mono
  rintro v _ - ⟨rfl, valid⟩
  exact ⟨sound, .refl, valid⟩

theorem evaluate_assign {reference : Reference} {value : Expr} (known : Known W)
    (keeps : Keeps W n)
    (admitted : Visit.Admitted W P ⟨n + 1, .evaluate (.assign reference value), m⟩) :
    Safe W (evaluate (n + 1) (.assign reference value)) m (Gave W P m) := by
  obtain ⟨place, place', placed, fits⟩ := admitted.admits
  obtain ⟨mid, inner, located, plain⟩ := placed.expr_parts known
  have first : Safe W (evaluate n value) m (Gave W P m) :=
    keeps.evaluate (Starts.assigned.admits known keeps admitted)
  apply first.bind
  rintro v m₁ - still gave
  have fits₁ := gave.fits known still inner fits
  apply (writeReference_safe gave.1 fits₁ located plain gave.2.2).bind
  rintro - m₂ - - ⟨sound₂, carries₂⟩
  exact Safe.pure ⟨sound₂, gave.2.1.trans carries₂, gave.2.2.carry carries₂⟩

theorem evaluate_call {callee : Expr} {paren : Token} {arguments : List Expr} (known : Known W)
    (keeps : Keeps W n)
    (admitted : Visit.Admitted W P ⟨n + 1, .evaluate (.call callee paren arguments), m⟩) :
    Safe W (evaluate (n + 1) (.call callee paren arguments)) m (Gave W P m) := by
  have first : Safe W (evaluate n callee) m (Gave W P m) :=
    keeps.evaluate (Starts.callee.admits known keeps admitted)
  apply first.bind
  rintro f m₁ run - gave
  apply (calleeArity_safe gave.1).bind
  rintro arity m₁ - - ⟨rfl, takes⟩
  split
  next => exact Safe.raise gave.1 _ _
  next enough =>
    rw [← not_ne_iff.1 enough] at takes
    have second : Safe W (evaluateEach n arguments) m₁ (GaveEach W P m₁ arguments.length) :=
      keeps.evaluateEach ((Starts.arguments run takes).admits known keeps admitted)
    apply second.bind
    rintro values m₂ run' - ⟨sound₂, carries₂, -, -⟩
    have third : Safe W (apply n f values) m₂ (Gave W P m₂) :=
      keeps.apply ((Starts.called run takes run').admits known keeps admitted)
    apply third.mono
    rintro v m₃ - ⟨sound₃, carries₃, valid⟩
    exact ⟨sound₃, (gave.2.1.trans carries₂).trans carries₃, valid⟩

theorem evaluate_get {object : Expr} {name : Token} (known : Known W) (keeps : Keeps W n)
    (admitted : Visit.Admitted W P ⟨n + 1, .evaluate (.get object name), m⟩) :
    Safe W (evaluate (n + 1) (.get object name)) m (Gave W P m) := by
  have first : Safe W (evaluate n object) m (Gave W P m) :=
    keeps.evaluate (Starts.getObject.admits known keeps admitted)
  apply first.bind
  rintro v m₁ - - gave
  split
  next id => exact (readProperty_safe gave.1 gave.2.2).after_gave gave
  next => exact Safe.raise gave.1 _ _

theorem evaluate_set {object value : Expr} {name : Token} (known : Known W) (keeps : Keeps W n)
    (admitted : Visit.Admitted W P ⟨n + 1, .evaluate (.set object name value), m⟩) :
    Safe W (evaluate (n + 1) (.set object name value)) m (Gave W P m) := by
  have first : Safe W (evaluate n object) m (Gave W P m) :=
    keeps.evaluate (Starts.setObject.admits known keeps admitted)
  apply first.bind
  rintro v m₁ run - gave
  split
  next id =>
    have second : Safe W (evaluate n value) m₁ (Gave W P m₁) :=
      keeps.evaluate ((Starts.setValue run).admits known keeps admitted)
    apply second.bind
    rintro w m₂ - - gave'
    have carries : m₂.heap.Carries Nowhere P P (m₂.heap.setField id name.lexeme w) := .setField
    apply Safe.step (writeField_gives id name.lexeme w) rfl
    exact Safe.pure ⟨gave'.1.setField gave'.2.2, (gave.trans gave').2.1.trans carries,
      gave'.2.2.carry carries⟩
  next => exact Safe.raise gave.1 _ _

theorem evaluate_safe {e : Expr} (known : Known W) (keeps : Keeps W n)
    (admitted : Visit.Admitted W P ⟨n + 1, .evaluate e, m⟩) :
    Safe W (evaluate (n + 1) e) m (Gave W P m) := by
  have sound := admitted.sound
  obtain ⟨place, place', placed, fits⟩ := admitted.admits
  cases e with
  | literal value => exact Safe.pure ⟨sound, .refl, trivial⟩
  | «variable» reference => exact readReference_gave sound fits (placed.expr_parts known)
  | this reference => exact readReference_gave sound fits (placed.expr_parts known)
  | super reference method => exact readSuper_safe sound fits (placed.expr_parts known)
  | lambda keyword params body => exact closeOver_safe sound (placed.expr_parts known) fits
  | assign => exact evaluate_assign known keeps admitted
  | call => exact evaluate_call known keeps admitted
  | get => exact evaluate_get known keeps admitted
  | set => exact evaluate_set known keeps admitted
  | grouping inner => exact keeps.evaluate (Starts.grouping.admits known keeps admitted)
  | unary operator operand =>
      have first : Safe W (evaluate n operand) m (Gave W P m) :=
        keeps.evaluate (Starts.unary.admits known keeps admitted)
      apply first.bind
      rintro v m₁ - - gave
      exact (operate_safe (Operators.unary_fair _ _) gave.1).after_gave gave
  | binary left operator right =>
      have first : Safe W (evaluate n left) m (Gave W P m) :=
        keeps.evaluate (Starts.binaryLeft.admits known keeps admitted)
      apply first.bind
      rintro v m₁ run - gave
      have second : Safe W (evaluate n right) m₁ (Gave W P m₁) :=
        keeps.evaluate ((Starts.binaryRight run).admits known keeps admitted)
      apply second.bind
      rintro w m₂ - - gave'
      exact (operate_safe (Operators.binary_fair _ _ _) gave'.1).after_gave (gave.trans gave')
  | logical left operator right =>
      have first : Safe W (evaluate n left) m (Gave W P m) :=
        keeps.evaluate (Starts.logicalLeft.admits known keeps admitted)
      apply first.bind
      rintro v m₁ run - gave
      dsimp only
      cases settled : if operator.kind = .orWord then v.isTruthy else !v.isTruthy with
      | true => exact Safe.pure gave
      | false =>
          have second : Safe W (evaluate n right) m₁ (Gave W P m₁) :=
            keeps.evaluate ((Starts.logicalRight run settled).admits known keeps admitted)
          exact second.after_gave gave
  | conditional condition consequent alternative =>
      have first : Safe W (evaluate n condition) m (Gave W P m) :=
        keeps.evaluate (Starts.condition.admits known keeps admitted)
      apply first.bind
      rintro v m₁ run - gave
      split
      next truthy =>
        have second : Safe W (evaluate n consequent) m₁ (Gave W P m₁) :=
          keeps.evaluate ((Starts.consequent run truthy).admits known keeps admitted)
        exact second.after_gave gave
      next falsy =>
        have second : Safe W (evaluate n alternative) m₁ (Gave W P m₁) := keeps.evaluate
          ((Starts.alternative run (Bool.eq_false_iff.2 falsy)).admits known keeps admitted)
        exact second.after_gave gave
  | comma items =>
      have first : Safe W (evaluateEach n items) m (GaveEach W P m items.length) :=
        keeps.evaluateEach (Starts.items.admits known keeps admitted)
      apply first.bind
      rintro values m₁ - - ⟨sound₁, carries₁, valid, -⟩
      refine Safe.pure ⟨sound₁, carries₁, ?_⟩
      cases last : values.getLast? with
      | none => simp_all [List.getLastD_eq_getLast?, Heap.Valid, Value.nil]
      | some v =>
          rw [List.getLastD_eq_getLast?, last]
          exact valid v (List.mem_of_getLast? last)

theorem evaluateEach_safe {items : List Expr} (known : Known W) (keeps : Keeps W n)
    (admitted : Visit.Admitted W P ⟨n + 1, .evaluateEach items, m⟩) :
    Safe W (evaluateEach (n + 1) items) m (GaveEach W P m items.length) := by
  cases items with
  | nil => exact Safe.pure ⟨admitted.sound, .refl, nofun, rfl⟩
  | cons item rest =>
      have first : Safe W (evaluate n item) m (Gave W P m) :=
        keeps.evaluate (Starts.item.admits known keeps admitted)
      apply first.bind
      rintro v m₁ run - gave
      have second : Safe W (evaluateEach n rest) m₁ (GaveEach W P m₁ rest.length) :=
        keeps.evaluateEach ((Starts.otherItems run).admits known keeps admitted)
      apply second.bind
      rintro values m₂ - - ⟨sound₂, carries₂, valid, count⟩
      refine Safe.pure ⟨sound₂, gave.2.1.trans carries₂, ?_, by simp [count]⟩
      intro w among
      obtain rfl | among := List.mem_cons.1 among
      · exact gave.2.2.carry carries₂
      · exact valid w among

end TreeWalk
