import TreeWalk.Proofs.Grammar.Writing

/-!
# The first words of a tree

A reader that looks at the next token decides by the first words of what is written
there. For every layered tree this module says what those can be.

## Implementation notes

A function without a name and a function declaration begin with the same keyword. They
differ in their second word, so `Begins` keeps that one too.
-/

namespace TreeWalk

variable {kinds kinds' : List TokenKind} {ws ws' : List Word} {ts : List Token}

/-- The kinds of token that an expression tighter than an operator can begin with. -/
def tightStarts : List TokenKind :=
  [.falseWord, .trueWord, .nilWord, .number, .string, .leftParen, .superWord, .thisWord,
    .funWord, .identifier]

/-- The kinds of token that an expression can begin with. -/
def expressionStarts : List TokenKind := .bang :: .minus :: tightStarts

/-- The kinds of token that a declaration or statement can begin with. -/
def statementStarts : List TokenKind :=
  [.ifWord, .printWord, .returnWord, .whileWord, .leftBrace, .classWord, .varWord] ++
    expressionStarts

/-- The first word is of one of these kinds, and a function's keyword is followed by an
opening parenthesis. -/
def Begins (kinds : List TokenKind) (ws : List Word) : Prop :=
  ∃ w tl, ws = w :: tl ∧ w.kind ∈ kinds ∧
    (w.kind = .funWord → ∃ w' tl', tl = w' :: tl' ∧ w'.kind = .leftParen)

/-- The first of the tokens is of one of these kinds, and a function's keyword is
followed by an opening parenthesis. -/
def BeginsWith (kinds : List TokenKind) (ts : List Token) : Prop :=
  ∃ t tl, ts = t :: tl ∧ t.kind ∈ kinds ∧
    (t.kind = .funWord → ∃ t' tl', tl = t' :: tl' ∧ t'.kind = .leftParen)

theorem Begins.append (h : Begins kinds ws) : Begins kinds (ws ++ ws') := by
  obtain ⟨w, tl, rfl, inside, second⟩ := h
  refine ⟨w, tl ++ ws', rfl, inside, fun isFun => ?_⟩
  obtain ⟨w', tl', rfl, isOpening⟩ := second isFun
  exact ⟨w', tl' ++ ws', rfl, isOpening⟩

theorem Begins.mono (h : Begins kinds ws) (sub : kinds ⊆ kinds') : Begins kinds' ws := by
  obtain ⟨w, tl, cut, inside, second⟩ := h
  exact ⟨w, tl, cut, sub inside, second⟩

/-- A word that is no function's keyword is followed by anything. -/
theorem Begins.word {w : Word} (inside : w.kind ∈ kinds) (noFun : w.kind ≠ .funWord) :
    Begins kinds (w :: ws) :=
  ⟨w, ws, rfl, inside, fun isFun => absurd isFun noFun⟩

theorem BeginsWith.append {rest : List Token} (h : BeginsWith kinds ts) :
    BeginsWith kinds (ts ++ rest) := by
  obtain ⟨t, tl, rfl, inside, second⟩ := h
  refine ⟨t, tl ++ rest, rfl, inside, fun isFun => ?_⟩
  obtain ⟨t', tl', rfl, isOpening⟩ := second isFun
  exact ⟨t', tl' ++ rest, rfl, isOpening⟩

/-- Tokens begin as the words that they are. -/
theorem Begins.tokens (h : Begins kinds ws) (spelled : Spelled ws ts) : BeginsWith kinds ts := by
  obtain ⟨w, tl, rfl, inside, second⟩ := h
  obtain ⟨t, ts, isWord, others, rfl⟩ := List.forall₂_cons_left_iff.1 spelled
  refine ⟨t, ts, rfl, isWord.kind_eq ▸ inside, fun isFun => ?_⟩
  obtain ⟨w', tl', rfl, isOpening⟩ := second (isWord.kind_eq ▸ isFun)
  obtain ⟨t', ts', isWord', -, rfl⟩ := List.forall₂_cons_left_iff.1 others
  exact ⟨t', ts', rfl, isWord'.kind_eq.trans isOpening⟩

theorem tightStarts_subset : tightStarts ⊆ expressionStarts := by decide

/-- What an expression begins with, by how tight it is. -/
def Expr.BeginsRight (e : Expr) : Prop :=
  Begins expressionStarts e.words ∧ (10 ≤ e.rank → Begins tightStarts e.words)

theorem Expr.BeginsRight.ofTight {e : Expr} (h : Begins tightStarts e.words) : e.BeginsRight :=
  ⟨h.mono tightStarts_subset, fun _ => h⟩

theorem Expr.BeginsRight.ofLoose {e : Expr} (h : Begins expressionStarts e.words)
    (loose : e.rank < 10) : e.BeginsRight :=
  ⟨h, fun tight => absurd tight (by omega)⟩

/-- An expression on the left is what the whole begins with. -/
theorem Expr.beginsRight : ∀ e : Expr, e.Layered → e.BeginsRight
  | .literal value, _ => by
    refine .ofTight (.word ?_ ?_) <;>
      rcases value with _ | (_ | _) | _ | _ <;> simp [Word.kind, Scalar.tokenKind, tightStarts]
  | .variable reference, layered => by
    have kind := layered.1
    exact .ofTight (.word (by simp [Word.kind, kind, tightStarts]) (by simp [Word.kind, kind]))
  | .assign reference _, layered => by
    have kind := layered.1.1
    exact .ofLoose (.word (by simp [Word.kind, kind, expressionStarts, tightStarts])
      (by simp [Word.kind, kind])) (by simp [Expr.rank])
  | .this reference, layered => by
    have kind := layered.1
    exact .ofTight (.word (by simp [Word.kind, kind, tightStarts]) (by simp [Word.kind, kind]))
  | .super reference _, layered => by
    have kind := layered.1.1
    exact .ofTight (.word (by simp [Word.kind, kind, tightStarts]) (by simp [Word.kind, kind]))
  | .grouping _, _ => .ofTight (.word (by decide) (by decide))
  | .unary operator _, layered => by
    refine .ofLoose (.word ?_ ?_) (by simp [Expr.rank]) <;>
      obtain kind | kind := layered.1 <;> simp [Word.kind, kind, expressionStarts]
  | .binary left operator _, layered => by
    obtain ⟨⟨level, isOperator, -⟩, inner, -⟩ := layered
    refine .ofLoose (left.beginsRight inner).1.append ?_
    cases level <;> simp [Expr.rank, isOperator, Grammar.Level.rank]
  | .logical left operator _, layered => by
    obtain ⟨⟨level, isOperator, -⟩, inner, -⟩ := layered
    refine .ofLoose (left.beginsRight inner).1.append ?_
    cases level <;> simp [Expr.rank, isOperator, Grammar.Level.rank]
  | .conditional condition _ _, layered =>
    .ofLoose (condition.beginsRight layered.1).1.append (by simp [Expr.rank])
  | .comma [], layered => absurd layered.1 (by simp)
  | .comma (item :: _), layered =>
    .ofLoose (item.beginsRight layered.2.2.1).1.append (by simp [Expr.rank])
  | .call callee _ _, layered =>
    .ofTight ((callee.beginsRight layered.1).2 layered.2.1).append
  | .get object _, layered =>
    .ofTight ((object.beginsRight layered.1).2 layered.2.1).append
  | .set object _ _, layered =>
    .ofLoose (object.beginsRight layered.1).1.append (by simp [Expr.rank])
  | .lambda keyword _ _, layered => by
    refine .ofTight ⟨_, _, rfl, ?_, fun _ => ⟨_, _, rfl, rfl⟩⟩
    simp [Word.kind, layered.1, tightStarts]

theorem Expr.begins {e : Expr} (layered : e.Layered) : Begins expressionStarts e.words :=
  (e.beginsRight layered).1

theorem Expr.begins_tight {e : Expr} (layered : e.Layered) (tight : 10 ≤ e.rank) :
    Begins tightStarts e.words :=
  (e.beginsRight layered).2 tight

theorem expressionStarts_subset : expressionStarts ⊆ statementStarts := by decide

theorem Stmt.first_word : ∀ s : Stmt, s.Layered →
    ∃ w tl, s.words = w :: tl ∧ w.kind ∈ statementStarts
  | .expression _, layered => by
    obtain ⟨w, tl, words, inside, -⟩ : Begins _ (_ ++ [.mark .semicolon]) :=
      (Expr.begins layered).append
    exact ⟨w, tl, words, expressionStarts_subset inside⟩
  | .print _, _ => ⟨_, _, rfl, by decide⟩
  | .varDecl _ none, _ => ⟨_, _, rfl, by decide⟩
  | .varDecl _ (some _), _ => ⟨_, _, rfl, by decide⟩
  | .block _, _ => ⟨_, _, rfl, by decide⟩
  | .branch _ _ none, _ => ⟨_, _, rfl, by decide⟩
  | .branch _ _ (some _), _ => ⟨_, _, rfl, by decide⟩
  | .loop _ _, _ => ⟨_, _, rfl, by decide⟩
  | .functionDecl _, _ => ⟨_, _, rfl, by decide⟩
  | .classDecl _ none _, _ => ⟨_, _, rfl, by decide⟩
  | .classDecl _ (some _) _, _ => ⟨_, _, rfl, by decide⟩
  | .returns keyword none, layered => by
    have isReturn : keyword.kind = .returnWord := layered
    exact ⟨_, _, rfl, by simp [Word.kind, isReturn, statementStarts]⟩
  | .returns keyword (some _), layered => by
    have isReturn : keyword.kind = .returnWord := layered.1
    exact ⟨_, _, rfl, by simp [Word.kind, isReturn, statementStarts]⟩

end TreeWalk
