import TreeWalk.Proofs.Grammar.Lists.Items

/-!
# Courses of a list

The items of a list are read one after the other up to its closing parenthesis, or the list is
malformed somewhere. Every row of tokens is one or the other, and this module says what a list
is read as in both cases.

## Implementation notes

The items that have a comma behind them are handled by one induction. What may happen behind
them is then a matter of the last item alone.
-/

namespace TreeWalk.Grammar

variable {α β : Type}

/-- Items at the front of a row, each with its first token and with a comma behind it. -/
inductive Leading (item : Nat → Reader α) : List Token → List (Token × α) → List Token → Prop
  | nil {ts} : Leading item ts [] ts
  | cons {t comma a tl mid items rest}
      (first : Outcome item (t :: tl) (.ok a) (comma :: mid)) (isComma : comma.kind = .comma)
      (others : Leading item mid items rest) : Leading item (t :: tl) ((t, a) :: items) rest

/-- There is no closing parenthesis in the place of the first item. -/
def Begun (ts : List Token) : Prop := ∀ t ∈ ts.head?, t.kind ≠ .rightParen

/-- The items of a list are read, and the closing parenthesis stands behind them. -/
inductive Closed (item : Nat → Reader α) :
    List Token → List (Token × α) → Token → List Token → Prop
  | empty {paren rest} (closes : paren.kind = .rightParen) :
      Closed item (paren :: rest) [] paren rest
  | items {ts leading t tl a paren rest} (begun : Begun ts)
      (front : Leading item ts leading (t :: tl))
      (last : Outcome item (t :: tl) (.ok a) (paren :: rest))
      (closes : paren.kind = .rightParen) : Closed item ts (leading ++ [(t, a)]) paren rest

/-- An item of a list cannot be read, or what stands behind one is neither a comma nor the
closing parenthesis. -/
inductive Malformed (item : Nat → Reader α) (close : Requirement) :
    List Token → Halt → List Token → Prop
  | inItem {ts leading mid halt rest} (begun : Begun ts) (front : Leading item ts leading mid)
      (fails : Outcome item mid (.error halt) rest) : Malformed item close ts halt rest
  | unclosed {ts leading mid a t rest} (begun : Begun ts) (front : Leading item ts leading mid)
      (last : Outcome item mid (.ok a) (t :: rest)) (noComma : t.kind ≠ .comma)
      (noClose : t.kind ≠ .rightParen) :
      Malformed item close ts (.error ⟨.missing close, t⟩) (t :: rest)
  | cutOff {ts leading mid a} (begun : Begun ts) (front : Leading item ts leading mid)
      (last : Outcome item mid (.ok a) []) : Malformed item close ts .outOfTokens []

/-- A list is read with a limit on its items that is exact and deferred. -/
structure DefersLimit (item : Nat → Reader α) (close : Requirement) (what : Plurality)
    (list : Nat → Reader β) (made : List (Token × α) → Token → β) (ts : List Token) : Prop where
  /-- Up to 255 items are accepted. -/
  accepts {items paren rest} (closed : Closed item ts items paren rest)
    (few : items.length ≤ 255) : Outcome list ts (.ok (made items paren)) rest
  /-- Of more items the first one too many is told of, behind the closing parenthesis. -/
  refuses {items paren rest} (closed : Closed item ts items paren rest)
    (many : 255 < items.length) :
    Outcome list ts (.error (.error ⟨.tooMany what, items[255].1⟩)) rest
  /-- What is malformed is told of however many items stand before it. -/
  reports {halt rest} (malformed : Malformed item close ts halt rest) :
    Outcome list ts (.error halt) rest
  /-- There is no other list. -/
  covers : (∃ items paren rest, Closed item ts items paren rest) ∨
    ∃ halt rest, Malformed item close ts halt rest

theorem DefersLimit.map {γ : Type} {item : Nat → Reader α} {close : Requirement}
    {what : Plurality} {list : Nat → Reader β} {made : List (Token × α) → Token → β}
    {ts : List Token} (h : DefersLimit item close what list made ts) (f : β → γ) :
    DefersLimit item close what (fun d => f <$> list d) (fun items paren => f (made items paren))
      ts where
  accepts closed few := (h.accepts closed few).map f
  refuses closed many := (h.refuses closed many).map f
  reports malformed := (h.reports malformed).map f
  covers := h.covers

section

variable {item : Nat → Reader α} (reads : ReadsItems item) {ts mid rest : List Token}
  {items leading : List (Token × α)} {t paren : Token} {halt : Halt} {close : Requirement}
  {what : Plurality}

include reads

/-- Every row begins with items that have commas behind them, up to a last item that has none
or to one that cannot be read. -/
theorem exists_leading (ts : List Token) :
    ∃ leading mid outcome rest, Leading item ts leading mid ∧ Outcome item mid outcome rest ∧
      (outcome.isOk → ∀ t ∈ rest.head?, t.kind ≠ .comma) := by
  obtain ⟨outcome, rest, comes⟩ := exists_outcome reads.settles (by decide) ts
  match outcome, rest with
  | .error halt, rest => exact ⟨[], ts, _, rest, .nil, comes, nofun⟩
  | .ok a, [] => exact ⟨[], ts, _, [], .nil, comes, by simp⟩
  | .ok a, comma :: mid =>
    by_cases isComma : comma.kind = .comma
    · -- the row behind the comma is shorter
      have shorter := reads.length_lt comes
      obtain ⟨leading, mid', outcome, rest, front, last⟩ := exists_leading mid
      obtain ⟨t, tl, rfl⟩ := reads.exists_cons comes
      exact ⟨(t, a) :: leading, mid', outcome, rest, .cons comes isComma front, last⟩
    · exact ⟨[], ts, _, _, .nil, comes, by simp [isComma]⟩
termination_by ts.length
decreasing_by
  rw [List.length_cons] at shorter
  exact Nat.lt_of_succ_lt shorter

theorem closed_or_malformed (close : Requirement) (ts : List Token) :
    (∃ items paren rest, Closed item ts items paren rest) ∨
      ∃ halt rest, Malformed item close ts halt rest := by
  by_cases begun : Begun ts
  · obtain ⟨leading, mid, outcome, rest, front, last, noComma⟩ := exists_leading reads ts
    match outcome, rest with
    | .error halt, rest => exact .inr ⟨halt, rest, .inItem begun front last⟩
    | .ok a, [] => exact .inr ⟨_, _, .cutOff begun front last⟩
    | .ok a, t :: rest =>
      by_cases closes : t.kind = .rightParen
      · obtain ⟨t', tl, rfl⟩ := reads.exists_cons last
        exact .inl ⟨_, t, rest, .items begun front last closes⟩
      · exact .inr ⟨_, _, .unclosed begun front last (noComma rfl t rfl) closes⟩
  · cases ts with
    | nil => exact absurd (by simp [Begun]) begun
    | cons t rest => exact .inl ⟨[], t, rest, .empty (by simpa [Begun] using begun)⟩

theorem Leading.row {others : Except Halt (List (Token × α))}
    (front : Leading item ts leading mid) (comes : Outcome (itemRow item) mid others rest) :
    Outcome (itemRow item) ts (others.map (leading ++ ·)) rest := by
  induction front with
  | nil => cases others <;> exact comes
  | cons first isComma _ ih =>
    have further := itemRow_comma reads first isComma (ih comes)
    cases others <;> exact further

omit reads in
theorem Begun.inside {found : Except Halt (List (Token × α))} (begun : Begun ts)
    (comes : Outcome (itemRow item) ts found rest) :
    Outcome (listInside item) ts found rest := by
  intro d deep
  have noTokens : (itemRow item d).read [] = (.error .outOfTokens, []) :=
    itemRow_nil d (Nat.le_trans (by simp only [descent, List.length_nil]; omega) deep)
  rw [listInside, read_unlessNext begun noTokens, comes d deep]

theorem Closed.inside (closed : Closed item ts items paren rest) :
    Outcome (listInside item) ts (.ok items) (paren :: rest) ∧ paren.kind = .rightParen := by
  cases closed with
  | empty closes =>
    refine ⟨fun d _ => read_eq_ok.2 (unlessNext_gives.2 ⟨paren, rest, rfl, ?_⟩), closes⟩
    rw [if_pos closes]
    exact ⟨rfl, rfl⟩
  | items begun front last closes =>
    have noComma : NextNot [.comma] (paren :: rest) := nextNot_cons.2 (by simp [closes])
    exact ⟨begun.inside (front.row reads (itemRow_last reads last noComma)), closes⟩

theorem itemList_defersLimit (closes : close.kind = .rightParen) :
    DefersLimit item close what (itemList item close what) Prod.mk ts where
  accepts closed few := by
    obtain ⟨inside, isClosing⟩ := closed.inside reads
    refine inside.bind fun d => ?_
    rw [read_require_bind (isClosing.trans closes.symm), read_checkCount_bind few]
    rfl
  refuses closed many := by
    obtain ⟨inside, isClosing⟩ := closed.inside reads
    refine inside.bind fun d => ?_
    rw [read_require_bind (isClosing.trans closes.symm)]
    exact read_checkCount_bind_many many
  reports malformed := by
    cases malformed with
    | inItem begun front fails =>
      exact (begun.inside (front.row reads (itemRow_error reads fails))).bind_error
    | unclosed begun front last noComma noClose =>
      -- the closing parenthesis is missed before the items are counted
      obtain ⟨t', tl, rfl⟩ := reads.exists_cons last
      have row := itemRow_last reads last (nextNot_cons.2 (by simpa using noComma))
      refine (begun.inside (front.row reads row)).bind fun d => ?_
      exact read_require_bind_missing (closes ▸ noClose)
    | cutOff begun front last =>
      obtain ⟨t', tl, rfl⟩ := reads.exists_cons last
      exact (begun.inside (front.row reads (itemRow_cutOff reads last))).bind_error
  covers := closed_or_malformed reads close ts

end

theorem parameters_defersLimit (ts : List Token) :
    DefersLimit (fun _ => require .parameterName) .parenAfterParameters .parameters parameters
      (fun items _ => items.map Prod.snd) ts := by
  simp only [funext parameters_eq_itemList]
  exact (itemList_defersLimit .parameterName rfl).map _

theorem finishCall_defersLimit (callee : Expr) (ts : List Token) :
    DefersLimit assignment .parenAfterArguments .arguments (finishCall · callee)
      (fun items paren => .call callee paren (items.map Prod.snd)) ts := by
  simp only [finishCall_eq_itemList]
  exact (itemList_defersLimit .assignment rfl).map _

end TreeWalk.Grammar
