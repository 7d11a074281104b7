import TreeWalk.Proofs.Grammar.Accounting.Expressions
import TreeWalk.Proofs.Grammar.Continuing.Productions
import TreeWalk.Proofs.Grammar.RoundTrip.Rungs

/-!
# Expressions that end before a separator

An expression that is closed by an end token is read in the same way where the row goes on
with something that no assignment takes. Only the alternative of a choice is read as a whole
expression: if the expression ends in one, no comma may follow.

## Implementation notes

What is read in the middle of an expression is carried over whatever comes behind the
closing token; `Ends` is about the parts that are read up to it. The proof is by induction
on the depth, one lemma for each production that an expression can end with.
-/

namespace TreeWalk.Grammar

variable {α : Type} {J : Junction} {c d : Nat} {xs tl rest : List Token} {t : Token}

/-- A reading up to the closing token is carried over to the row that goes on, if what it
gives has a property. -/
def Ends (J : Junction) (P : α → Prop) (r : Reader α) : Prop :=
  ∀ ⦃xs : List Token⦄ ⦃a : α⦄, r.Gives (xs ++ [J.close]) a [J.close] → P a →
    r.Gives (xs ++ J.more) a J.more

/-- A reading that may leave tokens before the closing one. -/
theorem Ends.carry {P : α → Prop} {r : Reader α} {a : α} (ends : Ends J P r)
    (carries : Carries J c False r) (h : r.Gives (xs ++ [J.close]) a rest) :
    ∃ ys, rest = ys ++ [J.close] ∧
      ((ys = [] → P a) → r.Gives (xs ++ J.more) a (ys ++ J.more)) := by
  obtain ⟨ys, rfl, -, beyond⟩ := carries h
  refine ⟨ys, rfl, fun ended => ?_⟩
  obtain rfl | left := eq_or_ne ys []
  · exact ends h (ended rfl)
  · exact beyond (.inl left)

/-- Nothing is left before the closing token if nothing is taken. -/
theorem Junction.eq_nil (cut : [J.close] = xs ++ [J.close]) : xs = [] := by
  simpa using cut

/-- A token that is no end token stands before the closing one. -/
theorem Junction.eq_cons (cut : xs ++ [J.close] = t :: tl) (noEnd : t.kind ≠ .endOfText) :
    ∃ ys, xs = t :: ys ∧ tl = ys ++ [J.close] := by
  cases xs with
  | nil =>
    obtain ⟨rfl, -⟩ := List.cons.inj cut
    exact absurd J.isEnd noEnd
  | cons x ys =>
    obtain ⟨rfl, rfl⟩ := List.cons.inj cut
    exact ⟨ys, rfl, rfl⟩

theorem Ends.ofCarries {r : Reader α} {P : α → Prop} (h : Carries J c True r) : Ends J P r := by
  intro xs a gives _
  obtain ⟨ys, cut, -, beyond⟩ := h gives
  obtain rfl := Junction.eq_nil cut
  exact beyond (.inr trivial)

/-- At a depth every production that an expression can end with is carried over. An
expression that ends open takes a comma. -/
structure EndsAt (J : Junction) (d : Nat) : Prop where
  expression : Ends J (fun _ => Stops 0 J.more) (expression d)
  commaItems : Ends J (fun _ => Stops 0 J.more) (commaItems d)
  assignment : Ends J (fun e => e.endsOpen → Stops 0 J.more) (assignment d)
  conditional : Ends J (fun e => e.endsOpen → Stops 0 J.more) (conditional d)
  operation (level) : Ends J (fun _ => True) (operation d level)
  operationTail (level left) : Ends J (fun _ => True) (operationTail d level left)
  operand (level) : Ends J (fun _ => True) (operand d level)
  unary : Ends J (fun _ => True) (unary d)
  callTail (callee) : Ends J (fun _ => True) (callTail d callee)
  primary : Ends J (fun _ => True) (primary d)

theorem expression_ends (ih : EndsAt J d) :
    Ends J (fun _ => Stops 0 J.more) (expression (d + 1)) := by
  intro xs e h stops
  obtain ⟨first, mid, others, head, tail, rfl⟩ := expression_gives.1 h
  obtain ⟨ys, rfl, carriedOn⟩ := ih.assignment.carry (carried J d).assignment head
  exact expression_gives.2
    ⟨first, _, others, carriedOn fun _ _ => stops, ih.commaItems tail stops, rfl⟩

theorem commaItems_ends (ih : EndsAt J d) :
    Ends J (fun _ => Stops 0 J.more) (commaItems (d + 1)) := by
  intro xs items h stops
  obtain ⟨-, rfl, cut⟩ | ⟨comma, tl, item, mid, others, cut, isComma, head, tail, rfl⟩ :=
    commaItems_gives.1 h
  · obtain rfl := Junction.eq_nil cut
    exact commaItems_gives.2 (.inl ⟨stops.nextNot (by simp [joins]), rfl, rfl⟩)
  · obtain ⟨xs, rfl, rfl⟩ := Junction.eq_cons cut (by simp [isComma])
    obtain ⟨ys, rfl, carriedOn⟩ := ih.assignment.carry (carried J d).assignment head
    exact commaItems_gives.2 (.inr ⟨comma, _, item, _, others, rfl, isComma,
      carriedOn fun _ _ => stops, ih.commaItems tail stops, rfl⟩)

theorem assignment?_endsOpen {target value e : Expr} (h : assignment? target value = some e) :
    e.endsOpen = value.endsOpen := by
  unfold assignment? at h
  split at h <;> simp_all
  all_goals simp [← h, Expr.endsOpen]

theorem assignment_ends (after : Stops 1 J.more) (ih : EndsAt J d) :
    Ends J (fun e => e.endsOpen → Stops 0 J.more) (assignment (d + 1)) := by
  intro xs e h closed
  obtain ⟨target, mid, before, ⟨-, rfl, rfl⟩ | ⟨equals, tl, value, rfl, isEqual, tail, made⟩⟩ :=
    assignment_gives.1 h
  · exact assignment_gives.2 ⟨e, _, ih.conditional before closed,
      .inl ⟨after.nextNot (by simp [joins]), rfl, rfl⟩⟩
  · obtain ⟨ys, cut, carriedOn⟩ := ih.conditional.carry (carried J d).conditional before
    obtain ⟨ys, rfl, rfl⟩ := Junction.eq_cons cut.symm (by simp [isEqual])
    rw [assignment?_endsOpen made] at closed
    exact assignment_gives.2 ⟨target, _, carriedOn (by simp),
      .inr ⟨equals, _, value, rfl, isEqual, ih.assignment tail closed, made⟩⟩

/-- The alternative takes commas, so none may follow. -/
theorem conditional_ends (after : Stops 1 J.more) (ih : EndsAt J d) :
    Ends J (fun e => e.endsOpen → Stops 0 J.more) (conditional (d + 1)) := by
  intro xs e h closed
  obtain ⟨condition, mid, first, ⟨-, rfl, rfl⟩ | ⟨question, tl, consequent, colon, mid',
    alternative, rfl, isQuestion, second, isColon, third, rfl⟩⟩ := conditional_gives.1 h
  · exact conditional_gives.2 ⟨e, _, ih.operation .or first trivial,
      .inl ⟨after.nextNot (by simp [joins]), rfl, rfl⟩⟩
  · obtain ⟨ys, cut, firstOn⟩ := (ih.operation .or).carry ((carried J d).operation .or) first
    obtain ⟨ys, rfl, rfl⟩ := Junction.eq_cons cut.symm (by simp [isQuestion])
    obtain ⟨zs, cut, secondOn⟩ := ih.expression.carry (carried J d).expression second
    obtain ⟨zs, rfl, rfl⟩ := Junction.eq_cons cut.symm (by simp [isColon])
    exact conditional_gives.2 ⟨condition, _, firstOn fun _ => trivial, .inr ⟨question, _,
      consequent, colon, _, alternative, rfl, isQuestion, secondOn (by simp), isColon,
      ih.expression third (closed rfl), rfl⟩⟩

theorem operation_ends (ih : EndsAt J d) (level : Level) :
    Ends J (fun _ => True) (operation (d + 1) level) := by
  intro xs e h _
  obtain ⟨left, mid, head, tail⟩ := operation_gives.1 h
  obtain ⟨ys, rfl, carriedOn⟩ := (ih.operand level).carry ((carried J d).operand level) head
  exact operation_gives.2
    ⟨left, _, carriedOn fun _ => trivial, ih.operationTail level left tail trivial⟩

theorem operationTail_ends (after : Stops 1 J.more) (ih : EndsAt J d) (level : Level)
    (left : Expr) : Ends J (fun _ => True) (operationTail (d + 1) level left) := by
  intro xs e h _
  obtain ⟨-, rfl, cut⟩ | ⟨operator, tl, right, mid, cut, isOperator, head, tail⟩ :=
    operationTail_gives.1 h
  · obtain rfl := Junction.eq_nil cut
    have looser := after.mono ((show 1 ≤ 3 by decide).trans (three_le_rank level))
    exact operationTail_gives.2 (.inl ⟨looser.operators, rfl, rfl⟩)
  · obtain ⟨xs, rfl, rfl⟩ := Junction.eq_cons cut (operator_ne_end isOperator)
    obtain ⟨ys, rfl, carriedOn⟩ := (ih.operand level).carry ((carried J d).operand level) head
    exact operationTail_gives.2 (.inr ⟨operator, _, right, _, rfl, isOperator,
      carriedOn fun _ => trivial, ih.operationTail level _ tail trivial⟩)

theorem operand_ends (ih : EndsAt J d) (level : Level) :
    Ends J (fun _ => True) (operand (d + 1) level) := by
  rw [operand]
  split
  next tighter _ => exact ih.operation tighter
  next => exact ih.unary

theorem unary_ends (ih : EndsAt J d) : Ends J (fun _ => True) (unary (d + 1)) := by
  intro xs e h _
  obtain ⟨operator, tl, operand, cut, isOperator, inner, rfl⟩ | ⟨noOperator, callee, mid, head,
    tail⟩ := unary_gives.1 h
  · have noEnd : operator.kind ≠ .endOfText := by
      rintro isEnd
      simp [isEnd] at isOperator
    obtain ⟨xs, rfl, rfl⟩ := Junction.eq_cons cut noEnd
    exact unary_gives.2 (.inl ⟨operator, _, operand, rfl, isOperator, ih.unary inner trivial, rfl⟩)
  · cases xs with
    | nil =>
      -- no primary expression begins with the closing token
      have taking : Carries J 1 True (primary d) := (carried J d).primary
      obtain ⟨_, -, few, -⟩ := @taking [] _ _ head
      simp at few
    | cons x xs =>
      obtain ⟨ys, rfl, carriedOn⟩ := ih.primary.carry (carried J d).primary.weak head
      exact unary_gives.2 (.inr ⟨nextNot_cons.2 (nextNot_cons.1 noOperator), callee, _,
        carriedOn fun _ => trivial, ih.callTail callee tail trivial⟩)

theorem callTail_ends (after : Stops 1 J.more) (ih : EndsAt J d) (callee : Expr) :
    Ends J (fun _ => True) (callTail (d + 1) callee) := by
  intro xs e h _
  obtain ⟨t, tl, cut, h⟩ := callTail_gives.1 h
  split at h
  next isOpening =>
    obtain ⟨items, paren, mid, inner, isClosing, few, tail⟩ := h
    obtain ⟨xs, rfl, rfl⟩ := Junction.eq_cons cut (by simp [isOpening])
    obtain ⟨ys, cut, -, innerOn⟩ := (Carries.unlessNext (carried J d).arguments) inner
    obtain ⟨ys, rfl, rfl⟩ := Junction.eq_cons cut.symm (by simp [isClosing])
    refine callTail_gives.2 ⟨t, _, rfl, ?_⟩
    simp only [isOpening]
    exact ⟨items, paren, _, innerOn (by simp), isClosing, few, ih.callTail _ tail trivial⟩
  next isDot =>
    obtain ⟨name, mid, rfl, isName, tail⟩ := h
    obtain ⟨ys, rfl, behind⟩ := Junction.eq_cons cut (by simp [isDot])
    obtain ⟨zs, rfl, rfl⟩ := Junction.eq_cons behind.symm (by simp [isName])
    refine callTail_gives.2 ⟨t, _, rfl, ?_⟩
    simp only [isDot]
    exact ⟨name, _, rfl, isName, ih.callTail _ tail trivial⟩
  next =>
    obtain ⟨rfl, same⟩ := h
    obtain rfl := Junction.eq_nil same
    exact callTail_stops (after.mono (by decide))

theorem endsAt (after : Stops 1 J.more) (d : Nat) : EndsAt J d := by
  induction d with
  | zero =>
    constructor <;> intros <;> exact fun _ _ h => (throw_gives.1 h).elim
  | succ d ih =>
    exact
      { expression := expression_ends ih
        commaItems := commaItems_ends ih
        assignment := assignment_ends after ih
        conditional := conditional_ends after ih
        operation := operation_ends ih
        operationTail := operationTail_ends after ih
        operand := operand_ends ih
        unary := unary_ends ih
        callTail := callTail_ends after ih
        primary := .ofCarries (carried J (d + 1)).primary }

end TreeWalk.Grammar
