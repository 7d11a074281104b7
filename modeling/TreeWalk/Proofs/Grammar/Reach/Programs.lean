import TreeWalk.Proofs.Grammar.Accounting.Programs
import TreeWalk.Proofs.Grammar.Depth.Productions
import TreeWalk.Proofs.Grammar.Reach.Productions

/-!
# Programs are read within their row

Whole rows: a reading of a row with an end token ends with a tree or a violation of the
grammar, never behind the first end token, and the tokens up to the place where it stops
settle all that comes of it. A row without an end token is no program and no expression.
-/

namespace TreeWalk.Grammar

variable {α : Type} {tokens : List Token}

/-- The number of tokens before the first end token. -/
def firstEnd (tokens : List Token) : Nat := tokens.findIdx fun t => t.kind = .endOfText

/-- A reading of a whole row stops behind so many tokens: at the first end token if it gives
a tree, there or before if the grammar is violated. Another row with the same tokens up to
this place fares the same. -/
structure ReadsWithin (entry : List Token → Except Halt α × List Token) (tokens : List Token)
    (current : Nat) : Prop where
  place : (entry tokens).2 = tokens.drop current
  inside : current ≤ firstEnd tokens
  ends : (∃ a, (entry tokens).1 = .ok a ∧ current = firstEnd tokens) ∨
    ∃ e, (entry tokens).1 = .error (.error e)
  settled : ∀ other, other.take (current + 1) = tokens.take (current + 1) →
    entry other = ((entry tokens).1, other.drop current)

theorem items_confined (d : Nat) {ts : List Token} (ends : HasEnd ts) :
    Confined 0 (items d) ts := by
  induction d generalizing ts with
  | zero => exact .outOfDepth
  | succ d ih =>
    rw [items]
    refine .peek ends fun t tl _ => ?_
    split
    · exact .pure ends
    · exact .bind ends ((confinedAt d).declaration ends) fun _ _ ends =>
        .bind ends (ih ends) fun _ _ ends => .pure ends

theorem loneExpression_confined (d : Nat) {ts : List Token} (ends : HasEnd ts) :
    Confined 0 (loneExpression d) ts := by
  unfold loneExpression
  refine .mono (.bind ends ((confinedAt d).expression ends) fun e _ ends =>
    .peek ends fun t tl _ => ?_) (Nat.zero_le _)
  split
  · exact .pure ends
  · exact .fail ends

theorem firstEnd_append {taken rest : List Token} (noEnd : ∀ s ∈ taken, s.kind ≠ .endOfText) :
    firstEnd (taken ++ rest) = taken.length + firstEnd rest := by
  unfold firstEnd
  rw [List.findIdx_append, if_neg, Nat.add_comm]
  simpa using noEnd

/-- Another row with the same tokens up to some place and the next one goes on with it. -/
theorem exists_of_take_eq {taken behind other : List Token} {t : Token}
    (same : other.take (taken.length + 1) = (taken ++ t :: behind).take (taken.length + 1)) :
    ∃ behind', other = taken ++ t :: behind' := by
  have cut := List.take_append_drop (taken.length + 1) other
  rw [same, List.take_length_add_append, List.take_one, List.append_assoc] at cut
  exact ⟨_, cut.symm⟩

/-- A reader of whole rows whose readings are confined reads within a row with an end
token, if the depth suffices and a tree is given at an end token only. -/
theorem exists_readsWithin {r : Nat → Reader α}
    {entry : List Token → Except Halt α × List Token}
    (deep : ∀ {ts d}, descent ts ≤ d → entry ts = (r d).read ts)
    (enough : (entry tokens).1 ≠ .error .outOfDepth)
    (confined : ∀ d, Confined 0 (r d) tokens)
    (closes : ∀ {a rest}, entry tokens = (.ok a, rest) →
      ∃ t, rest.head? = some t ∧ t.kind = .endOfText) :
    ∃ current, ReadsWithin entry tokens current := by
  -- where the reading stops is the same at every depth that suffices
  have stops : ∀ {d}, descent tokens ≤ d → ∃ taken t behind outcome,
      tokens = taken ++ t :: behind ∧ (∀ s ∈ taken, s.kind ≠ .endOfText) ∧
      outcome ≠ .error .outOfTokens ∧ entry tokens = (outcome, t :: behind) ∧
      StopsBefore (r d) taken t outcome := by
    intro d le
    obtain short | ⟨taken, t, behind, outcome, cut, noEnd, -, known, stops⟩ := confined d
    · exact absurd ((deep le).symm ▸ short) enough
    · have read := stops behind
      rw [← cut, ← deep le] at read
      exact ⟨taken, t, behind, outcome, cut, noEnd, known, read, stops⟩
  obtain ⟨taken, t, behind, outcome, cut, noEnd, known, read, -⟩ := stops le_rfl
  refine ⟨taken.length, ?_, ?_, ?_, ?_⟩
  · rw [read, cut, List.drop_left]
  · rw [cut, firstEnd_append noEnd]
    exact Nat.le_add_right _ _
  · rw [read] at enough ⊢
    cases outcome with
    | ok a =>
      obtain ⟨_, next, isEnd⟩ := closes read
      cases next
      refine .inl ⟨a, rfl, ?_⟩
      rw [cut, firstEnd_append noEnd, firstEnd, List.findIdx_cons]
      simp [isEnd]
    | error halt =>
      cases halt with
      | error e => exact .inr ⟨e, rfl⟩
      | outOfTokens => exact absurd rfl known
      | outOfDepth => exact absurd rfl enough
  · intro other same
    rw [cut] at same
    obtain ⟨behind', rfl⟩ := exists_of_take_eq same
    obtain ⟨taken', t', behind'', outcome', cut', -, -, read', there⟩ :=
      stops (le_max_left _ (descent (taken ++ t :: behind')))
    obtain ⟨rfl, again⟩ := Prod.mk.inj (read.symm.trans read')
    obtain ⟨rfl, rfl⟩ := List.cons.inj again
    obtain rfl : taken = taken' := List.append_cancel_right (cut.symm.trans cut')
    rw [read, deep (le_max_right (descent tokens) _), List.drop_left]
    exact there behind'

theorem program_readsWithin (ends : HasEnd tokens) :
    ∃ current, ReadsWithin program tokens current := by
  refine exists_readsWithin (fun le => ?_) (program_ne_outOfDepth tokens)
    (fun d => items_confined d ends) fun read => (items_accounts (read_eq_ok.1 read)).2.2
  rw [Reader.read, items_descent le]
  rfl

theorem wholeExpression_readsWithin (ends : HasEnd tokens) :
    ∃ current, ReadsWithin wholeExpression tokens current := by
  refine exists_readsWithin (fun le => ?_) (wholeExpression_ne_outOfDepth tokens)
    (fun d => loneExpression_confined d ends) fun read =>
    (loneExpression_accounts (read_eq_ok.1 read)).2.2
  rw [Reader.read, loneExpression_descent le]
  rfl

/-- Reading a row with an end token, as a program or as an expression, ends with a tree or
a violation of the grammar, at the first end token at the latest, and is settled by the
tokens up to where it stops. A row without an end token gives no tree. -/
theorem reading_stays_inside (tokens : List Token) :
    (HasEnd tokens → (∃ current, ReadsWithin program tokens current) ∧
      ∃ current, ReadsWithin wholeExpression tokens current) ∧
    (¬HasEnd tokens → (∀ tree, (program tokens).1 ≠ .ok tree) ∧
      ∀ e, (wholeExpression tokens).1 ≠ .ok e) := by
  refine ⟨fun ends => ⟨?_, ?_⟩, fun noEnd => ⟨fun tree read => noEnd ?_, fun e read => noEnd ?_⟩⟩
  · exact program_readsWithin ends
  · exact wholeExpression_readsWithin ends
  · obtain ⟨⟨taken, cut, -⟩, -, t, next, isEnd⟩ := items_accounts (read_eq_ok.1 (Prod.ext read rfl))
    exact ⟨t, cut ▸ List.mem_append_right taken (List.mem_of_mem_head? next), isEnd⟩
  · obtain ⟨⟨taken, cut, -⟩, -, t, next, isEnd⟩ :=
      loneExpression_accounts (read_eq_ok.1 (Prod.ext read rfl))
    exact ⟨t, cut ▸ List.mem_append_right taken (List.mem_of_mem_head? next), isEnd⟩

/-- A function's keyword at the end of a row, before tokens that are never looked at, and the
same keyword in a row without end. -/
theorem reading_stays_inside_fun :
    let keyword : Token := ⟨.funWord, "fun", .nil, 1⟩
    let name : Token := ⟨.identifier, "f", .nil, 1⟩
    (HasEnd [keyword, .endOfText 1, name] ∧
      (∃ current, ReadsWithin program [keyword, .endOfText 1, name] current) ∧
      ∃ current, ReadsWithin wholeExpression [keyword, .endOfText 1, name] current) ∧
    ¬HasEnd [keyword, name] ∧ (∀ tree, (program [keyword, name]).1 ≠ .ok tree) ∧
      ∀ e, (wholeExpression [keyword, name]).1 ≠ .ok e := by
  intro keyword name
  have ends : HasEnd [keyword, .endOfText 1, name] := ⟨.endOfText 1, by simp, rfl⟩
  have noEnd : ¬HasEnd [keyword, name] := by simp [HasEnd, keyword, name]
  exact ⟨⟨ends, (reading_stays_inside _).1 ends⟩, noEnd, (reading_stays_inside _).2 noEnd⟩

end TreeWalk.Grammar
