import TreeWalk.Proofs.Counterparts.Reading
import TreeWalk.Proofs.Counterparts.Resolving
import TreeWalk.Session

/-!
# Violations are found at the tokens of the text

The grammar finds a violation at one of the tokens that it reads, and the scope rules find
one at a token that the tree has kept.

## Implementation notes

If only the tokens with some property have counterparts, namely themselves, two runs that
are paired are one run, and it stops at a token with this property.
-/

namespace TreeWalk

variable {α : Type} {p : Token → Prop}

/-- The tokens with a property are counterparts of themselves, and there are no others. -/
def Correspondence.only (p : Token → Prop) : Correspondence where
  relates t u := t = u ∧ p t
  sameWord := by
    rintro t _ ⟨rfl, -⟩
    exact ⟨rfl, rfl, rfl⟩

namespace Grammar

variable {tokens : List Token} {Q : α → α → Prop} {r : Reader α} {e : GrammarError}

theorem read_error_inside (paired : ReadPaired (.only (· ∈ tokens)) Q r r)
    (h : (r.read tokens).1 = .error (.error e)) : e.token ∈ tokens := by
  have rows : List.Forall₂ (Correspondence.only (· ∈ tokens)).relates tokens tokens :=
    List.forall₂_same.2 fun t among => ⟨rfl, among⟩
  have both := paired rows
  unfold Reader.read at h
  generalize r tokens = outcome at h both
  cases both with
  | ok => cases h
  | error alike =>
    cases h
    cases alike with | error same => exact same.2

/-- A program violates the grammar at one of its tokens. -/
theorem program_error_inside (h : (program tokens).1 = .error (.error e)) : e.token ∈ tokens :=
  read_error_inside (items_paired _ _) h

/-- An expression violates the grammar at one of its tokens. -/
theorem wholeExpression_error_inside (h : (wholeExpression tokens).1 = .error (.error e)) :
    e.token ∈ tokens :=
  read_error_inside (loneExpression_paired _ _) h

end Grammar

namespace Resolve

theorem fixes_only (words : List Word) :
    (Correspondence.only (Word.kept · ∈ words)).Fixes words :=
  fun _ kept => ⟨rfl, kept⟩

theorem walk_error_inside {Q : α → α → Prop} {act : Resolve α} {e : ScopeError}
    {after : Surroundings} (paired : Paired (likeness (.only p) [] []) Q act act)
    (h : act.walk .initial = (.error e, after)) : p e.token := by
  have both := paired Surroundings.Like.initial
  unfold walk at h
  generalize act .initial = outcome at h both
  cases both with
  | ok => cases h
  | error alike =>
    cases h
    exact alike.token.2

end Resolve

open Resolve

/-- A program violates the scope rules at a token that it has kept. -/
theorem resolveProgram_error {program : List Stmt} {f : Failure}
    (h : (resolveProgram program).result = .error f) :
    ∃ e : ScopeError, f = .scope e ∧ .kept e.token ∈ Stmt.rowWords program := by
  unfold resolveProgram at h
  split at h
  next => cases h
  next e after failed =>
    cases h
    have alike := Stmt.row_like_self program (fixes_only _)
    exact ⟨e, rfl, walk_error_inside (Stmt.resolveEach_paired program alike) failed⟩

/-- An expression violates the scope rules at a token that it has kept. -/
theorem resolveExpression_error {expr : Expr} {f : Failure}
    (h : resolveExpression expr = .error f) :
    ∃ e : ScopeError, f = .scope e ∧ .kept e.token ∈ expr.words := by
  unfold resolveExpression at h
  split at h
  next => cases h
  next e after failed =>
    cases h
    have alike := expr.like_self (fixes_only _)
    exact ⟨e, rfl, walk_error_inside (expr.resolve_paired alike) failed⟩

end TreeWalk
