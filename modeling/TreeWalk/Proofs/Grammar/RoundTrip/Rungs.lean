import TreeWalk.Proofs.Grammar.FirstWords
import TreeWalk.Proofs.Grammar.Productions
import Mathlib.Order.Filter.AtTopBot.Basic

/-!
# Rungs of the grammar

How tight a production is is its rung: the number that `Expr.rank` gives to what it
reads. An expression that is read on its own rung is read on every lower one, if nothing
follows that the lower one would take.

## Implementation notes

Readings are taken at all large depths, so that parts that need different depths fit
together. Operators of one level and calls are read from left to right into a tree that
grows to the left, so `Readable` says what an expression and a continuation that grows
it are read as.
-/

namespace TreeWalk.Grammar

open Filter

variable {α : Type} {ts tl mid rest rest' : List Token} {e e' : Expr}

/-- At every large depth a reader takes the tokens before `rest` and gives a tree. -/
def Reads (r : Nat → Reader α) (ts : List Token) (a : α) (rest : List Token) : Prop :=
  ∀ᶠ d in atTop, (r d).Gives ts a rest

theorem reads_of_succ {r : Nat → Reader α} {a : α}
    (h : ∀ᶠ d in atTop, (r (d + 1)).Gives ts a rest) : Reads r ts a rest := by
  unfold Reads
  rw [← map_add_atTop_eq_nat 1]
  exact h

/-- How tight a token joins what is before it with what follows. -/
def joins : TokenKind → Option Nat
  | .leftParen | .dot => some 10
  | .question => some 2
  | .equal => some 1
  | .comma => some 0
  | kind => (Level.ofKind? kind).map Level.rank

/-- What is read on rung `n` ends before the tokens. -/
def Stops (n : Nat) (rest : List Token) : Prop :=
  ∃ t tl, rest = t :: tl ∧ ∀ r ∈ joins t.kind, r < n

theorem stops_cons {n : Nat} {t : Token} (h : ∀ r ∈ joins t.kind, r < n) : Stops n (t :: tl) :=
  ⟨t, tl, rfl, h⟩

theorem Stops.mono {n n' : Nat} (h : Stops n rest) (le : n ≤ n') : Stops n' rest := by
  obtain ⟨t, tl, rfl, tight⟩ := h
  exact stops_cons fun r joined => (tight r joined).trans_le le

theorem joins_operator {level : Level} {kind : TokenKind} (h : kind ∈ level.operators) :
    joins kind = some level.rank := by
  cases level <;> cases kind <;> simp_all [joins, Level.operators, Level.ofKind?]

theorem Stops.operators {level : Level} (h : Stops level.rank rest) :
    NextNot level.operators rest := by
  obtain ⟨t, tl, rfl, tight⟩ := h
  refine nextNot_cons.2 fun isOperator => ?_
  simp [joins_operator isOperator] at tight

theorem Stops.nextNot {n : Nat} {kind : TokenKind} (h : Stops n rest)
    (looser : ∃ r ∈ joins kind, n ≤ r) : NextNot [kind] rest := by
  obtain ⟨t, tl, rfl, tight⟩ := h
  obtain ⟨r, joined, le⟩ := looser
  refine nextNot_cons.2 fun same => ?_
  obtain rfl := List.mem_singleton.1 same
  exact absurd (tight r joined) (by omega)

/-- The production that reads what is at least as tight as a number says. -/
def rung : Nat → Nat → Reader Expr
  | 0, d => expression d
  | 1, d => assignment d
  | 2, d => conditional d
  | 3, d => operation d .or
  | 4, d => operation d .and
  | 5, d => operation d .equality
  | 6, d => operation d .comparison
  | 7, d => operation d .term
  | 8, d => operation d .factor
  | _, d => unary d

theorem rung_rank (level : Level) : rung level.rank = fun d => operation d level := by
  cases level <;> rfl

/-- An operand of a level is what is read on the next rung. -/
theorem operand_reads {level : Level} (h : Reads (rung (level.rank + 1)) ts e rest) :
    Reads (operand · level) ts e rest := by
  refine reads_of_succ (h.mono fun d h => operand_gives.2 ?_)
  cases level <;> exact h

theorem operation_reads {level : Level} {left : Expr}
    (first : Reads (rung (level.rank + 1)) ts left mid)
    (tail : Reads (operationTail · level left) mid e rest) :
    Reads (operation · level) ts e rest := by
  refine reads_of_succ ?_
  filter_upwards [operand_reads first, tail] with d first tail
  exact operation_gives.2 ⟨left, mid, first, tail⟩

/-- The operations of a level end where none of its operators follows. -/
theorem operationTail_reads {level : Level} (stops : Stops level.rank rest) :
    Reads (operationTail · level e) rest e rest :=
  reads_of_succ (.of_forall fun _ => operationTail_gives.2 (.inl ⟨stops.operators, rfl, rfl⟩))

theorem expression_reads {first : Expr} {others : List Expr}
    (head : Reads assignment ts first mid) (tail : Reads commaItems mid others rest) :
    Reads expression ts (joined first others) rest := by
  refine reads_of_succ ?_
  filter_upwards [head, tail] with d head tail
  exact expression_gives.2 ⟨first, mid, others, head, tail, rfl⟩

theorem commaItems_reads_nil (stops : Stops 0 rest) : Reads commaItems rest [] rest := by
  refine reads_of_succ (.of_forall fun d => commaItems_gives.2 (.inl ⟨stops.nextNot ?_, rfl, rfl⟩))
  simp [joins]

theorem eq_rank {n : Nat} (le : 3 ≤ n) (low : n < 9) : ∃ level : Level, n = level.rank := by
  match n, le, low with
  | 3, _, _ => exact ⟨.or, rfl⟩
  | 4, _, _ => exact ⟨.and, rfl⟩
  | 5, _, _ => exact ⟨.equality, rfl⟩
  | 6, _, _ => exact ⟨.comparison, rfl⟩
  | 7, _, _ => exact ⟨.term, rfl⟩
  | 8, _, _ => exact ⟨.factor, rfl⟩

/-- What is tight enough for a rung is read there if nothing follows that the rung would
take. -/
theorem rung_reads {n : Nat} (h : Reads (rung (n + 1)) ts e rest) (low : n < 9)
    (stops : Stops n rest) : Reads (rung n) ts e rest := by
  match n with
  | 0 => exact expression_reads h (commaItems_reads_nil stops)
  | 1 =>
    refine reads_of_succ (h.mono fun d h => assignment_gives.2 ⟨e, rest, h, .inl ⟨?_, rfl, rfl⟩⟩)
    exact stops.nextNot (by simp [joins])
  | 2 =>
    refine reads_of_succ (h.mono fun d h => conditional_gives.2 ⟨e, rest, h, .inl ⟨?_, rfl, rfl⟩⟩)
    exact stops.nextNot (by simp [joins])
  | n + 3 =>
    obtain ⟨level, rank⟩ := eq_rank (Nat.le_add_left 3 n) low
    rw [rank] at h stops ⊢
    rw [rung_rank]
    exact operation_reads h (operationTail_reads stops)

theorem rung_reads_le {n k : Nat} (h : Reads (rung (n + k)) ts e rest) (low : n + k ≤ 9)
    (stops : Stops n rest) : Reads (rung n) ts e rest := by
  induction k generalizing n with
  | zero => exact h
  | succ k ih =>
    refine rung_reads (ih ?_ (by omega) (stops.mono n.le_succ)) (by omega) stops
    rwa [show n + 1 + k = n + (k + 1) by omega]

/-- An expression that is no operation, with its argument lists and property names. -/
def called (d : Nat) : Reader Expr := primary d >>= callTail d

theorem called_reads {callee : Expr} (first : Reads primary ts callee mid)
    (tail : Reads (callTail · callee) mid e rest) : Reads called ts e rest := by
  filter_upwards [first, tail] with d first tail
  exact bind_gives.2 ⟨callee, mid, first, tail⟩

theorem callTail_stops {d : Nat} (stops : Stops 10 rest) :
    (callTail (d + 1) e).Gives rest e rest := by
  obtain ⟨t, tl, rfl, tight⟩ := stops
  refine callTail_gives.2 ⟨t, tl, rfl, ?_⟩
  split
  next isOpening => simp [isOpening, joins] at tight
  next isDot => simp [isDot, joins] at tight
  next => exact ⟨rfl, rfl⟩

theorem callTail_reads (stops : Stops 10 rest) : Reads (callTail · e) rest e rest :=
  reads_of_succ (.of_forall fun _ => callTail_stops stops)

theorem unary_reads (h : Reads called ts e rest) (begins : BeginsWith tightStarts ts) :
    Reads unary ts e rest := by
  obtain ⟨t, tl, rfl, inside, -⟩ := begins
  refine reads_of_succ (h.mono fun d h => unary_gives.2 (.inr ⟨nextNot_cons.2 ?_, bind_gives.1 h⟩))
  simp only [tightStarts, List.mem_cons, List.not_mem_nil, or_false] at inside
  rcases inside with h | h | h | h | h | h | h | h | h | h <;> simp [h]

/-- Tokens are read as an expression on every rung on which it may stand. -/
structure Readable (e : Expr) (ts : List Token) : Prop where
  onRung {n : Nat} {rest : List Token} : n ≤ e.rank → n ≤ 9 → Stops n rest →
    (e.endsOpen → Stops 0 rest) → Reads (rung n) (ts ++ rest) e rest
  /-- The operations of a level go on behind the expression. -/
  grows {level : Level} {rest rest' : List Token} {e' : Expr} : level.rank ≤ e.rank →
    Stops (level.rank + 1) rest → Reads (operationTail · level e) rest e' rest' →
    Reads (operation · level) (ts ++ rest) e' rest'
  /-- A call goes on behind the expression. -/
  calls {rest rest' : List Token} {e' : Expr} : 10 ≤ e.rank →
    Reads (callTail · e) rest e' rest' → Reads called (ts ++ rest) e' rest'

theorem rank_le_eight (level : Level) : level.rank ≤ 8 := by
  cases level <;> decide

/-- What is read on its own rung is readable. -/
theorem Readable.ofRung (low : e.rank ≤ 9)
    (own : ∀ rest, Stops e.rank rest → (e.endsOpen → Stops 0 rest) →
      Reads (rung e.rank) (ts ++ rest) e rest)
    (grows : ∀ level : Level, level.rank = e.rank → ∀ rest e' rest', Stops (level.rank + 1) rest →
      Reads (operationTail · level e) rest e' rest' →
      Reads (operation · level) (ts ++ rest) e' rest') : Readable e ts := by
  have onRung {n : Nat} {rest : List Token} (le : n ≤ e.rank) (stops : Stops n rest)
      (ends : e.endsOpen → Stops 0 rest) : Reads (rung n) (ts ++ rest) e rest := by
    obtain ⟨k, cut⟩ := Nat.exists_eq_add_of_le le
    exact rung_reads_le (cut ▸ own rest (stops.mono le) ends) (cut ▸ low) stops
  refine ⟨fun le _ => onRung le, fun {level} _ _ _ le stops tail => ?_, fun tight => ?_⟩
  · obtain equal | less := le.eq_or_lt
    · exact grows level equal _ _ _ stops tail
    · have closed := Expr.endsOpen_of_rank ((three_le_rank level).trans le)
      exact operation_reads (onRung less stops (by simp [closed])) tail
  · omega

/-- What begins with a primary expression is readable. -/
theorem Readable.ofCalled (tight : e.rank = 10) (begins : BeginsWith tightStarts ts)
    (own : ∀ rest e' rest', Reads (callTail · e) rest e' rest' →
      Reads called (ts ++ rest) e' rest') : Readable e ts := by
  have onRung {n : Nat} {rest : List Token} (le : n ≤ 9) (stops : Stops n rest) :
      Reads (rung n) (ts ++ rest) e rest := by
    obtain ⟨k, cut⟩ := Nat.exists_eq_add_of_le le
    refine rung_reads_le ?_ cut.ge stops
    rw [← cut]
    exact unary_reads (own rest e rest (callTail_reads (stops.mono (by omega)))) begins.append
  refine ⟨fun _ le stops _ => onRung le stops, fun {level} _ _ _ _ stops tail => ?_,
    fun _ => own _ _ _⟩
  have few := rank_le_eight level
  exact operation_reads (onRung (by omega) stops) tail

/-- An expression that no operation grows from is readable if its own rung reads it. -/
theorem Readable.ofLoose (loose : e.rank < 3 ∨ e.rank = 9)
    (own : ∀ rest, Stops e.rank rest → (e.endsOpen → Stops 0 rest) →
      Reads (rung e.rank) (ts ++ rest) e rest) : Readable e ts := by
  refine .ofRung (by omega) own fun level rank => ?_
  have := three_le_rank level
  have := rank_le_eight level
  omega

theorem Readable.ofPrimary (tight : e.rank = 10) (begins : BeginsWith tightStarts ts)
    (own : ∀ rest, Reads primary (ts ++ rest) e rest) : Readable e ts :=
  .ofCalled tight begins fun rest _ _ tail => called_reads (own rest) tail

end TreeWalk.Grammar
