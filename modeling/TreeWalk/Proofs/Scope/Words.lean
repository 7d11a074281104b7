import TreeWalk.Proofs.Scope.Places
import Mathlib.Logic.Relation

/-!
# The scope rules keep the words

The walk of the scope rules fills in distances and nothing else: the tree that it gives has
the words of the tree that it went over.
-/

namespace TreeWalk

open Resolve

variable {place place' : Surroundings}

theorem Resolve.locate_name {use : Use} {reference reference' : Reference}
    (h : (locate use reference).Gives place reference' place') :
    reference'.name = reference.name := by
  rw [locate_gives] at h
  split at h <;> rw [h.1]

theorem Resolve.readVariable_name {reference reference' : Reference}
    (h : (readVariable reference).Gives place reference' place') :
    reference'.name = reference.name := by
  rw [readVariable, bind_gives] at h
  obtain ⟨_, mid, -, found⟩ := h
  exact locate_name found

mutual

/-- An expression keeps its words. -/
theorem Expr.resolve_words : ∀ (e : Expr) {e' : Expr} {place place' : Surroundings},
    e.resolve.Gives place e' place' → e'.words = e.words
  | .literal _, _, _, _, h => by
    obtain ⟨rfl, -⟩ := Expr.resolve_gives.1 h
    rfl
  | .variable _, _, _, _, h => by
    obtain ⟨_, read, rfl⟩ := Expr.resolve_gives.1 h
    rw [Expr.words, Expr.words, readVariable_name read]
  | .assign _ value, _, _, _, h => by
    obtain ⟨_, _, _, walk, found, rfl⟩ := Expr.resolve_gives.1 h
    rw [Expr.words, Expr.words, value.resolve_words walk, locate_name found]
  | .this _, _, _, _, h => by
    obtain ⟨_, -, found, rfl⟩ := Expr.resolve_gives.1 h
    rw [Expr.words, Expr.words, locate_name found]
  | .super _ _, _, _, _, h => by
    obtain ⟨_, -, found, rfl⟩ := Expr.resolve_gives.1 h
    rw [Expr.words, Expr.words, locate_name found]
  | .grouping inner, _, _, _, h => by
    obtain ⟨_, walk, rfl⟩ := Expr.resolve_gives.1 h
    rw [Expr.words, Expr.words, inner.resolve_words walk]
  | .unary _ operand, _, _, _, h => by
    obtain ⟨_, walk, rfl⟩ := Expr.resolve_gives.1 h
    rw [Expr.words, Expr.words, operand.resolve_words walk]
  | .binary left _ right, _, _, _, h => by
    obtain ⟨_, _, _, first, second, rfl⟩ := Expr.resolve_gives.1 h
    rw [Expr.words, Expr.words, left.resolve_words first, right.resolve_words second]
  | .logical left _ right, _, _, _, h => by
    obtain ⟨_, _, _, first, second, rfl⟩ := Expr.resolve_gives.1 h
    rw [Expr.words, Expr.words, left.resolve_words first, right.resolve_words second]
  | .conditional condition consequent alternative, _, _, _, h => by
    obtain ⟨_, _, _, _, _, first, second, third, rfl⟩ := Expr.resolve_gives.1 h
    rw [Expr.words, Expr.words, condition.resolve_words first, consequent.resolve_words second,
      alternative.resolve_words third]
  | .comma items, _, _, _, h => by
    obtain ⟨_, walk, rfl⟩ := Expr.resolve_gives.1 h
    rw [Expr.words, Expr.words, (Expr.resolveEach_words items walk).1]
  | .call callee _ arguments, _, _, _, h => by
    obtain ⟨_, _, _, first, others, rfl⟩ := Expr.resolve_gives.1 h
    rw [Expr.words, Expr.words, callee.resolve_words first,
      (Expr.resolveEach_words arguments others).1]
  | .get object _, _, _, _, h => by
    obtain ⟨_, walk, rfl⟩ := Expr.resolve_gives.1 h
    rw [Expr.words, Expr.words, object.resolve_words walk]
  | .set object _ value, _, _, _, h => by
    obtain ⟨_, _, _, first, second, rfl⟩ := Expr.resolve_gives.1 h
    rw [Expr.words, Expr.words, value.resolve_words first, object.resolve_words second]
  | .lambda _ _ body, _, _, _, h => by
    obtain ⟨_, walk, rfl⟩ := Expr.resolve_gives.1 h
    obtain ⟨_, _, -, walk, -⟩ := routine_gives.1 walk
    rw [Expr.words, Expr.words, Stmt.resolveEach_words body walk]
termination_by structural e => e

theorem Expr.resolveEach_words : ∀ (items : List Expr) {items' : List Expr}
    {place place' : Surroundings}, (Expr.resolveEach items).Gives place items' place' →
      Expr.listWords items' = Expr.listWords items ∧ Expr.moreWords items' = Expr.moreWords items
  | [], _, _, _, h => by
    obtain ⟨rfl, -⟩ := Expr.resolveEach_gives.1 h
    exact ⟨rfl, rfl⟩
  | e :: rest, _, _, _, h => by
    obtain ⟨_, _, _, first, others, rfl⟩ := Expr.resolveEach_gives.1 h
    have item := e.resolve_words first
    have more := (Expr.resolveEach_words rest others).2
    constructor
    · rw [Expr.listWords, Expr.listWords, item, more]
    · rw [Expr.moreWords, Expr.moreWords, item, more]
termination_by structural items => items

/-- A statement keeps its words. -/
theorem Stmt.resolve_words : ∀ (s : Stmt) {s' : Stmt} {place place' : Surroundings},
    s.resolve.Gives place s' place' → s'.words = s.words
  | .expression value, _, _, _, h => by
    obtain ⟨_, walk, rfl⟩ := Stmt.resolve_gives.1 h
    rw [Stmt.words, Stmt.words, value.resolve_words walk]
  | .print value, _, _, _, h => by
    obtain ⟨_, walk, rfl⟩ := Stmt.resolve_gives.1 h
    rw [Stmt.words, Stmt.words, value.resolve_words walk]
  | .varDecl _ none, _, _, _, h => by
    obtain ⟨-, rfl⟩ := Stmt.resolve_gives.1 h
    rfl
  | .varDecl _ (some initial), _, _, _, h => by
    obtain ⟨_, _, _, -, walk, -, rfl⟩ := Stmt.resolve_gives.1 h
    rw [Stmt.words, Stmt.words, initial.resolve_words walk]
  | .block body, _, _, _, h => by
    obtain ⟨_, _, walk, -, -, rfl⟩ := Stmt.resolve_gives.1 h
    rw [Stmt.words, Stmt.words, Stmt.resolveEach_words body walk]
  | .branch condition consequent none, _, _, _, h => by
    obtain ⟨_, _, _, first, second, rfl⟩ := Stmt.resolve_gives.1 h
    rw [Stmt.words, Stmt.words, condition.resolve_words first, consequent.resolve_words second]
  | .branch condition consequent (some alternative), _, _, _, h => by
    obtain ⟨_, _, _, _, _, first, second, third, rfl⟩ := Stmt.resolve_gives.1 h
    rw [Stmt.words, Stmt.words, condition.resolve_words first, consequent.resolve_words second,
      alternative.resolve_words third]
  | .loop condition body, _, _, _, h => by
    obtain ⟨_, _, _, first, second, rfl⟩ := Stmt.resolve_gives.1 h
    rw [Stmt.words, Stmt.words, condition.resolve_words first, body.resolve_words second]
  | .functionDecl (.mk _ _ body), _, _, _, h => by
    obtain ⟨_, _, -, walk, rfl⟩ := Stmt.resolve_gives.1 h
    obtain ⟨_, _, -, walk, -⟩ := routine_gives.1 walk
    rw [Stmt.words, Stmt.words, FunctionDecl.words, FunctionDecl.words,
      Stmt.resolveEach_words body walk]
  | .classDecl _ none methods, _, _, _, h => by
    obtain ⟨_, _, _, _, _, -, parents, walk, -, rfl⟩ := Stmt.resolve_gives.1 h
    obtain ⟨rfl, -⟩ := superclass_gives.1 parents
    obtain ⟨_, walk, -⟩ := inClassScopes_gives.1 walk
    rw [Stmt.words, Stmt.words, FunctionDecl.resolveEach_words methods walk]
  | .classDecl _ (some _) methods, _, _, _, h => by
    obtain ⟨_, _, _, _, _, -, parents, walk, -, rfl⟩ := Stmt.resolve_gives.1 h
    obtain ⟨-, _, read, rfl⟩ := superclass_gives.1 parents
    obtain ⟨_, walk, -⟩ := inClassScopes_gives.1 walk
    rw [Stmt.words, Stmt.words, readVariable_name read, FunctionDecl.resolveEach_words methods walk]
  | .returns _ none, _, _, _, h => by
    obtain ⟨-, rfl⟩ := Stmt.resolve_gives.1 h
    rfl
  | .returns _ (some value), _, _, _, h => by
    obtain ⟨_, _, -, walk, rfl⟩ := Stmt.resolve_gives.1 h
    rw [Stmt.words, Stmt.words, value.resolve_words walk]
termination_by structural s => s

theorem Stmt.resolveEach_words : ∀ (body : List Stmt) {body' : List Stmt}
    {place place' : Surroundings}, (Stmt.resolveEach body).Gives place body' place' →
      Stmt.rowWords body' = Stmt.rowWords body
  | [], _, _, _, h => by
    obtain ⟨rfl, -⟩ := Stmt.resolveEach_gives.1 h
    rfl
  | s :: rest, _, _, _, h => by
    obtain ⟨_, _, _, first, others, rfl⟩ := Stmt.resolveEach_gives.1 h
    rw [Stmt.rowWords, Stmt.rowWords, s.resolve_words first, Stmt.resolveEach_words rest others]
termination_by structural body => body

theorem FunctionDecl.resolveEach_words : ∀ (members : List FunctionDecl)
    {members' : List FunctionDecl} {place place' : Surroundings},
    (FunctionDecl.resolveEach members).Gives place members' place' →
      FunctionDecl.rowWords members' = FunctionDecl.rowWords members
  | [], _, _, _, h => by
    obtain ⟨rfl, -⟩ := FunctionDecl.resolveEach_gives.1 h
    rfl
  | .mk _ _ body :: rest, _, _, _, h => by
    obtain ⟨_, _, _, walk, others, rfl⟩ := FunctionDecl.resolveEach_gives.1 h
    obtain ⟨_, _, -, walk, -⟩ := routine_gives.1 walk
    rw [FunctionDecl.rowWords, FunctionDecl.rowWords, FunctionDecl.words, FunctionDecl.words,
      Stmt.resolveEach_words body walk, FunctionDecl.resolveEach_words rest others]
termination_by structural members => members

end

/-- A node with its distances has the words of the one that was walked over. -/
theorem Resolves.words {spot : Spot} {node : Node} {after : Surroundings}
    (h : Resolves spot node after) : node.words = spot.node.words := by
  cases h with
  | expr walk => exact Expr.resolve_words _ walk
  | exprs walk => exact (Expr.resolveEach_words _ walk).1
  | stmt walk => exact Stmt.resolve_words _ walk
  | stmts walk => exact Stmt.resolveEach_words _ walk
  | methods walk => exact FunctionDecl.resolveEach_words _ walk

/-- The tokens of what a walk comes to are tokens of where it started. -/
theorem kept_of_walks {root spot : Spot} {t : Token} (walks : Relation.ReflTransGen Walks root spot)
    (kept : .kept t ∈ spot.node.words) : .kept t ∈ root.node.words := by
  induction walks with
  | refl => exact kept
  | tail _ next ih => exact ih (next.kept kept)

end TreeWalk
