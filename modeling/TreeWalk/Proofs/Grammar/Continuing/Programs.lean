import TreeWalk.Proofs.Grammar.Accounting.Programs
import TreeWalk.Proofs.Grammar.Continuing.Productions
import TreeWalk.Proofs.Grammar.RoundTrip.Programs

/-!
# Programs one after the other

Two programs that are written one after the other, with no end token between them, are
read as one: first the items of one and then those of the other.
-/

namespace TreeWalk.Grammar

open Filter

variable {tl rest : List Token} {t : Token} {d : Nat}

theorem unary_first {e : Expr} (h : (unary d).Gives (t :: tl) e rest) :
    t.kind ∈ expressionStarts := by
  obtain _ | _ | d := d
  · exact (throw_gives.1 h).elim
  · obtain ⟨_, _, _, -, -, h, -⟩ | ⟨-, _, _, h, -⟩ := unary_gives.1 h <;>
      exact (throw_gives.1 h).elim
  obtain ⟨operator, _, _, cut, isOperator, -⟩ | ⟨-, callee, mid, h, -⟩ := unary_gives.1 h
  · obtain ⟨rfl, -⟩ := List.cons.inj cut
    exact List.mem_append_left tightStarts isOperator
  · obtain ⟨_, _, cut, made⟩ := primary_gives.1 h
    obtain ⟨rfl, rfl⟩ := List.cons.inj cut
    split at made <;> simp_all [expressionStarts, tightStarts]

theorem operation_first {level : Level} {e : Expr}
    (h : (operation d level).Gives (t :: tl) e rest) : t.kind ∈ expressionStarts := by
  induction d using Nat.strong_induction_on generalizing level e rest with
  | _ d ih =>
    obtain _ | _ | d := d
    · exact (throw_gives.1 h).elim
    · obtain ⟨_, _, h, -⟩ := operation_gives.1 h
      exact (throw_gives.1 h).elim
    obtain ⟨left, mid, h, -⟩ := operation_gives.1 h
    have h := operand_gives.1 h
    split at h
    · exact ih d (by omega) h
    · exact unary_first h

theorem assignment_first {e : Expr} (h : (assignment d).Gives (t :: tl) e rest) :
    t.kind ∈ expressionStarts := by
  obtain _ | _ | d := d
  · exact (throw_gives.1 h).elim
  all_goals obtain ⟨_, _, h, -⟩ := assignment_gives.1 h
  · exact (throw_gives.1 h).elim
  obtain ⟨_, _, h, -⟩ := conditional_gives.1 h
  exact operation_first h

theorem expression_first {e : Expr} (h : (expression d).Gives (t :: tl) e rest) :
    t.kind ∈ expressionStarts := by
  cases d with
  | zero => exact (throw_gives.1 h).elim
  | succ d =>
    obtain ⟨_, _, _, h, -⟩ := expression_gives.1 h
    exact assignment_first h

/-- No item begins with what begins an alternative. -/
theorem declaration_first {s : Stmt} (h : (declaration d).Gives (t :: tl) s rest) :
    t.kind ≠ .elseWord := by
  intro isElse
  obtain _ | _ | _ | d := d
  · exact (throw_gives.1 h).elim
  all_goals
    obtain ⟨_, _, cut, h⟩ := declaration_gives.1 h
    obtain ⟨rfl, rfl⟩ := List.cons.inj cut
    simp only [isElse] at h
  · exact (throw_gives.1 h).elim
  all_goals
    obtain ⟨_, _, cut, h⟩ := statement_gives.1 h
    obtain ⟨rfl, rfl⟩ := List.cons.inj cut
    simp only [isElse] at h
  · exact (throw_gives.1 h).elim
  obtain ⟨_, _, h, -⟩ := expressionStatement_gives.1 h
  simpa [isElse, expressionStarts, tightStarts] using expression_first h

theorem items_first {ts : List Token} {found : List Stmt} (h : (items d).Gives ts found rest) :
    NextNot [.elseWord] ts := by
  cases d with
  | zero => exact (throw_gives.1 h).elim
  | succ d =>
    obtain ⟨t, tl, rfl, made⟩ := items_gives.1 h
    rw [nextNot_cons, List.mem_singleton]
    split at made
    next isEnd => simp [isEnd]
    next =>
      obtain ⟨_, _, _, first, -⟩ := made
      exact declaration_first first

theorem Reads.program {ts : List Token} {found : List Stmt} (h : Reads items ts found rest) :
    program ts = (.ok found, rest) :=
  h.read_eq fun _ => items_descent

theorem reads_of_program {ts : List Token} {found : List Stmt}
    (h : program ts = (.ok found, rest)) : Reads items ts found rest := by
  refine (eventually_ge_atTop (descent ts)).mono fun d deep => ?_
  unfold EStateM.Gives EStateM.run
  rw [items_descent deep]
  exact read_eq_ok.1 h

/-- At a depth that suffices for the second items, the first ones are carried over. -/
theorem items_append {J : Junction} {xs : List Token} {one other : List Stmt} {deep : Nat}
    (first : (items d).Gives (xs ++ [J.close]) one [J.close])
    (second : ∀ d, deep ≤ d → (items d).Gives J.more other rest) (enough : deep + one.length ≤ d) :
    (items d).Gives (xs ++ J.more) (one ++ other) rest := by
  induction d generalizing xs one with
  | zero => exact (throw_gives.1 first).elim
  | succ d ih =>
    obtain ⟨t, tl, cut, made⟩ := items_gives.1 first
    split at made
    next =>
      obtain ⟨rfl, same⟩ := made
      obtain rfl : xs = [] := by simpa using same
      exact second _ (by omega)
    next inside =>
      obtain ⟨item, mid, others, head, tail, rfl⟩ := made
      obtain ⟨ys, rfl, -, beyond⟩ := (carried J d).declaration head
      rw [List.length_cons] at enough
      cases xs with
      | nil =>
        obtain ⟨rfl, -⟩ := List.cons.inj cut
        exact absurd J.isEnd inside
      | cons x xs =>
        obtain ⟨rfl, -⟩ := List.cons.inj cut
        refine items_gives.2 ⟨x, xs ++ J.more, rfl, ?_⟩
        rw [if_neg inside]
        exact ⟨item, ys ++ J.more, others ++ other, beyond (.inr trivial), ih tail (by omega), rfl⟩

/-- Of a row with one end token, which closes it, a rest that begins with an end token is
that token alone. -/
theorem eq_of_closed {words taken left : List Token} {close : Token}
    (noEnd : ∀ t ∈ words, t.kind ≠ .endOfText) (cut : taken ++ left = words ++ [close])
    (ends : ∃ t, left.head? = some t ∧ t.kind = .endOfText) : left = [close] := by
  obtain ⟨t, next, isEnd⟩ := ends
  obtain ⟨more, rfl, same⟩ | ⟨more, rfl, same⟩ := List.append_eq_append_iff.1 cut
  all_goals
    cases more with
    | nil => simpa [eq_comm] using same
    | cons t' more => ?_
  · obtain rfl : t' = t := by simpa [same] using next
    exact absurd isEnd (noEnd t' (by simp))
  · simp [List.append_eq_nil_iff.1 (List.cons.inj same).2.symm] at next

/-- A row of tokens up to its end token is a program, and another row is one: then the
first row without its end token and the second are a program with the items of both. -/
theorem program_append {words more : List Token} {close : Token} {one other : List Stmt}
    (isEnd : close.kind = .endOfText) (noEnd : ∀ t ∈ words, t.kind ≠ .endOfText)
    {left : List Token} (first : program (words ++ [close]) = (.ok one, left))
    (second : program more = (.ok other, rest)) :
    program (words ++ more) = (.ok (one ++ other), rest) := by
  let J : Junction := ⟨close, more, isEnd, items_first (read_eq_ok.1 second)⟩
  obtain ⟨⟨taken, cut, -⟩, -, ends⟩ := items_accounts (read_eq_ok.1 first)
  obtain rfl : left = [close] := eq_of_closed noEnd cut.symm ends
  obtain ⟨deep, whole⟩ := eventually_atTop.1 (reads_of_program second)
  refine Reads.program ?_
  filter_upwards [reads_of_program first, eventually_ge_atTop (deep + one.length)]
    with d first enough
  exact items_append (J := J) first whole enough

end TreeWalk.Grammar
