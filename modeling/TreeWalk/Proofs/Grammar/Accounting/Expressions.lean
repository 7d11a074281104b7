import TreeWalk.Proofs.Grammar.Accounting.Words

/-!
# Expressions account for their tokens

What the productions of operations, assignments, calls and lists of items give one step
deeper, if every production gives what it should at a depth.
-/

namespace TreeWalk.Grammar

variable {ts tl mid rest : List Token} {ws ws' : List Word} {d : Nat} {t : Token}

/-- What is tighter than a choice has no open end. -/
theorem ReadExpr.ofTight {e : Expr} {rank : Nat} (h : Accounts e.words ts rest)
    (layered : e.Layered) (tight : rank ≤ e.rank) (closed : 3 ≤ rank) :
    ReadExpr e rank ts rest :=
  ⟨h, layered, tight, by simp [Expr.endsOpen_of_rank (closed.trans tight)]⟩

theorem ReadExpr.mono {e : Expr} {rank rank' : Nat} (h : ReadExpr e rank ts rest)
    (le : rank' ≤ rank) : ReadExpr e rank' ts rest :=
  ⟨h.accounts, h.layered, le.trans h.tight, h.closed⟩

/-- An expression read first and then extended. -/
theorem ReadExpr.extend {left e : Expr} {rank rank' : Nat} (h : ReadExpr left rank' ts mid)
    (more : Extends left e rank mid rest) (closed : 3 ≤ rank) : ReadExpr e rank ts rest := by
  obtain ⟨ws, words, accounts, layered, tight⟩ := more
  exact .ofTight (words ▸ h.accounts.append accounts) layered tight closed

/-- One extension after another. -/
theorem Extends.trans {left inner e : Expr} {rank : Nat} (words : inner.words = left.words ++ ws)
    (first : Accounts ws ts mid) (h : Extends inner e rank mid rest) :
    Extends left e rank ts rest := by
  obtain ⟨ws', words', accounts, layered, tight⟩ := h
  exact ⟨ws ++ ws', by rw [words', words, List.append_assoc], first.append accounts, layered,
    tight⟩

theorem Extends.refl {e : Expr} {rank : Nat} (layered : e.Layered) (tight : rank ≤ e.rank) :
    Extends e e rank ts ts :=
  ⟨[], by simp, .nil, layered, tight⟩

theorem not_nextNot_comma (h : t.kind = .comma) : ¬ NextNot [.comma] (t :: tl) := by
  simp [nextNot_cons, h]

theorem expression_accounts (ih : Accounted d) {e : Expr}
    (h : (expression (d + 1)).Gives ts e rest) :
    ReadExpr e 0 ts rest ∧ NextNot [.comma] rest := by
  obtain ⟨first, mid, others, head, tail, rfl⟩ := expression_gives.1 h
  have first := ih.assignment head
  obtain ⟨accounts, layered, separable, noComma, comma⟩ := ih.commaItems tail
  refine ⟨?_, noComma⟩
  cases others with
  | nil =>
    have accounts := first.accounts.append accounts
    rw [Expr.moreWords, List.append_nil] at accounts
    exact ⟨accounts, first.layered, Nat.zero_le _, fun _ => noComma⟩
  | cons item others =>
    refine ⟨first.accounts.append accounts, ⟨by simp, ⟨first.tight, fun _ => ?_, separable⟩,
      first.layered, layered⟩, Nat.zero_le _, fun _ => noComma⟩
    -- an open end would have taken the comma that follows
    exact Bool.eq_false_iff.2 fun isOpen => comma (by simp) (first.closed isOpen)

theorem commaItems_accounts (ih : Accounted d) {items : List Expr}
    (h : (commaItems (d + 1)).Gives ts items rest) :
    Accounts (Expr.moreWords items) ts rest ∧ Expr.AllLayered items ∧
      Expr.Separable items ∧ NextNot [.comma] rest ∧ (items ≠ [] → ¬ NextNot [.comma] ts) := by
  obtain ⟨noComma, rfl, rfl⟩ | ⟨comma, tl, item, mid, others, rfl, isComma, head, tail, rfl⟩ :=
    commaItems_gives.1 h
  · exact ⟨.nil, trivial, trivial, noComma, by simp⟩
  · have item := ih.assignment head
    obtain ⟨accounts, layered, separable, noComma, more⟩ := ih.commaItems tail
    refine ⟨.mark isComma (by decide) (item.accounts.append accounts), ⟨item.layered, layered⟩,
      ⟨item.tight, fun some => ?_, separable⟩, noComma, fun _ => not_nextNot_comma isComma⟩
    exact Bool.eq_false_iff.2 fun isOpen => more some (item.closed isOpen)

theorem assignment?_eq_some {target value e : Expr} (h : assignment? target value = some e) :
    (∃ reference, target = .variable reference ∧ e = .assign reference value) ∨
      ∃ object name, target = .get object name ∧ e = .set object name value := by
  unfold assignment? at h
  split at h <;> simp_all

theorem assignment_accounts (ih : Accounted d) {e : Expr}
    (h : (assignment (d + 1)).Gives ts e rest) : ReadExpr e 1 ts rest := by
  obtain ⟨target, mid, before, ⟨-, rfl, rfl⟩ | ⟨equals, tl, value, rfl, isEqual, after, made⟩⟩ :=
    assignment_gives.1 h
  · exact (ih.conditional before).mono (by decide)
  · have target := ih.conditional before
    have value := ih.assignment after
    have accounts := target.accounts.append
      (Accounts.mark isEqual (by decide) value.accounts)
    obtain ⟨reference, rfl, rfl⟩ | ⟨object, name, rfl, rfl⟩ := assignment?_eq_some made
    · exact ⟨accounts, ⟨target.layered, value.layered, value.tight⟩, le_rfl, value.closed⟩
    · obtain ⟨layered, tight, isName⟩ := target.layered
      simp only [Expr.words, List.append_assoc, List.cons_append, List.nil_append] at accounts
      exact ⟨accounts, ⟨layered, tight, isName, value.layered, value.tight⟩, le_rfl,
        value.closed⟩

theorem conditional_accounts (ih : Accounted d) {e : Expr}
    (h : (conditional (d + 1)).Gives ts e rest) : ReadExpr e 2 ts rest := by
  obtain ⟨condition, mid, first, ⟨-, rfl, rfl⟩ | ⟨question, tl, consequent, colon, mid',
    alternative, rfl, isQuestion, second, isColon, third, rfl⟩⟩ := conditional_gives.1 h
  · exact (ih.operation first).mono (by decide)
  · have condition := ih.operation first
    obtain ⟨consequent, -⟩ := ih.expression second
    obtain ⟨alternative, noComma⟩ := ih.expression third
    refine ⟨condition.accounts.append (.mark isQuestion (by decide) (consequent.accounts.append
      (.mark isColon (by decide) alternative.accounts))), ?_, le_rfl, fun _ => noComma⟩
    exact ⟨condition.layered, condition.tight, consequent.layered, alternative.layered⟩

theorem operation_accounts (ih : Accounted d) {level : Level} {e : Expr}
    (h : (operation (d + 1) level).Gives ts e rest) : ReadExpr e level.rank ts rest := by
  obtain ⟨left, mid, first, tail⟩ := operation_gives.1 h
  have left := ih.operand first
  exact left.extend (ih.operationTail tail left.layered (Nat.le_of_succ_le left.tight))
    (three_le_rank level)

theorem operator_ne_end {level : Level} (h : t.kind ∈ level.operators) :
    t.kind ≠ .endOfText := by
  intro isEnd
  rw [isEnd] at h
  cases level <;> simp [Level.operators] at h

theorem operationTail_accounts (ih : Accounted d) {level : Level} {left e : Expr}
    (h : (operationTail (d + 1) level left).Gives ts e rest) (layered : left.Layered)
    (tight : level.rank ≤ left.rank) : Extends left e level.rank ts rest := by
  obtain ⟨-, rfl, rfl⟩ | ⟨operator, tl, right, mid, rfl, isOperator, first, tail⟩ :=
    operationTail_gives.1 h
  · exact .refl layered tight
  · have right := ih.operand first
    obtain ⟨whole, rank⟩ :=
      node_layered isOperator layered right.layered tight right.tight
    exact .trans node_words (.kept (operator_ne_end isOperator) right.accounts)
      (ih.operationTail tail whole rank.ge)

theorem operand_accounts (ih : Accounted d) {level : Level} {e : Expr}
    (h : (operand (d + 1) level).Gives ts e rest) : ReadExpr e (level.rank + 1) ts rest := by
  have h := operand_gives.1 h
  cases next : level.tighter with
  | some tighter =>
    rw [next] at h
    exact tighter_rank next ▸ ih.operation h
  | none =>
    rw [next] at h
    exact (ih.unary h).mono (by cases level <;> simp_all [Level.tighter, Level.rank])

theorem unary_accounts (ih : Accounted d) {e : Expr} (h : (unary (d + 1)).Gives ts e rest) :
    ReadExpr e 9 ts rest := by
  obtain ⟨operator, tl, operand, rfl, isOperator, inner, rfl⟩ | ⟨-, callee, mid, first, tail⟩ :=
    unary_gives.1 h
  · have operand := ih.unary inner
    have kinds : operator.kind = .bang ∨ operator.kind = .minus := by simpa using isOperator
    have noEnd : operator.kind ≠ .endOfText := by grind
    exact .ofTight (.kept noEnd operand.accounts) ⟨kinds, operand.layered, operand.tight⟩
      le_rfl (by decide)
  · have callee := ih.primary first
    exact (callee.extend (ih.callTail tail callee.layered callee.tight) (by decide)).mono
      (by decide)

theorem callTail_accounts (ih : Accounted d) {callee e : Expr}
    (h : (callTail (d + 1) callee).Gives ts e rest) (layered : callee.Layered)
    (tight : 10 ≤ callee.rank) : Extends callee e 10 ts rest := by
  obtain ⟨t, tl, rfl, h⟩ := callTail_gives.1 h
  split at h
  next isOpening =>
    obtain ⟨items, paren, mid, inner, isClosing, few, tail⟩ := h
    have closing : Accounts [.kept paren] (paren :: mid) mid :=
      .kept (by simp [isClosing]) .nil
    obtain ⟨accounts, allLayered, separable⟩ :
        Accounts (Expr.listWords (items.map Prod.snd)) tl (paren :: mid) ∧
          Expr.AllLayered (items.map Prod.snd) ∧ Expr.Separable (items.map Prod.snd) := by
      obtain ⟨t', tl', rfl, inner⟩ := unlessNext_gives.1 inner
      split at inner
      next =>
        obtain ⟨rfl, cut⟩ := inner
        exact ⟨cut ▸ .nil, trivial, trivial⟩
      next => exact ih.arguments inner
    refine .trans ?_ (.mark isOpening (by decide) (accounts.append closing))
      (ih.callTail tail ?_ (by simp [Expr.rank]))
    · rw [Expr.words]
    · exact ⟨layered, tight, isClosing, by simpa using few, separable, allLayered⟩
  next isDot =>
    obtain ⟨name, mid, rfl, isName, tail⟩ := h
    refine .trans (by rw [Expr.words])
      (.mark isDot (by decide) (.kept (by simp [isName]) .nil))
      (ih.callTail tail ⟨layered, tight, isName⟩ (by simp [Expr.rank]))
  next =>
    obtain ⟨rfl, rfl⟩ := h
    exact .refl layered tight

theorem arguments_accounts (ih : Accounted d) {items : List (Token × Expr)}
    (h : (arguments (d + 1)).Gives ts items rest) :
    Accounts (Expr.listWords (items.map Prod.snd)) ts rest ∧
      Expr.AllLayered (items.map Prod.snd) ∧ Expr.Separable (items.map Prod.snd) := by
  obtain ⟨first, item, mid, -, head,
      ⟨-, rfl, rfl⟩ | ⟨comma, tl, others, rfl, isComma, tail, rfl⟩⟩ :=
    arguments_gives.1 h
  · have item := ih.assignment head
    simp only [List.map_cons, List.map_nil, Expr.listWords, Expr.moreWords, List.append_nil]
    exact ⟨item.accounts, ⟨item.layered, trivial⟩, item.tight, by simp, trivial⟩
  · have item := ih.assignment head
    obtain ⟨accounts, layered, separable⟩ := ih.arguments tail
    refine ⟨item.accounts.append ?_, ⟨item.layered, layered⟩, item.tight, fun _ => ?_, separable⟩
    · cases others with
      | nil =>
        cases d with
        | zero => simp [arguments] at tail
        | succ d =>
          obtain ⟨_, _, _, -, -, ⟨-, none, -⟩ | ⟨_, _, _, -, -, -, none⟩⟩ :=
            arguments_gives.1 tail <;> simp at none
      | cons other others => exact .mark isComma (by decide) accounts
    · exact Bool.eq_false_iff.2 fun isOpen =>
        not_nextNot_comma isComma (item.closed isOpen)

end TreeWalk.Grammar
