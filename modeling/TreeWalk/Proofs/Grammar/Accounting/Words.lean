import TreeWalk.Proofs.Grammar.Productions
import TreeWalk.Proofs.Grammar.Writing
import Mathlib.Order.Nat

/-!
# Reading accounts for every token

A reading that gives a tree takes tokens that the words of the tree account for: nothing
is dropped, invented or moved. The tree is layered, and what follows it cannot belong to
it. The one exception is the counting loop, which is not kept as a tree of its own; the
tokens that its tree has kept are still among those taken.

## Implementation notes

The proof is by induction on the depth. `Accounted` states for every production what a
reading of some depth gives; one lemma for each production carries it one step deeper.
-/

namespace TreeWalk.Grammar

variable {ts tl mid rest : List Token} {ws ws' : List Word} {d : Nat} {t : Token}

/-- A token of a number or a string carries a number or a string. -/
def CarriesValue (t : Token) : Prop :=
  (t.kind = .number → ∃ x, t.literal = .number x) ∧
    (t.kind = .string → ∃ s, t.literal = .string s)

/-- No token begins a counting loop, and numbers and strings carry their values. -/
def Plain (ts : List Token) : Prop := ∀ t ∈ ts, t.kind ≠ .forWord ∧ CarriesValue t

/-- Every token that the words have kept is among the tokens before `rest`, and no end
token is. -/
def Covers (ws : List Word) (ts rest : List Token) : Prop :=
  ∃ taken, ts = taken ++ rest ∧ (∀ t ∈ taken, t.kind ≠ .endOfText) ∧
    ∀ t, .kept t ∈ ws → t ∈ taken

/-- The tokens before `rest` are what the words stand for, unless a counting loop is
among them. -/
def Accounts (ws : List Word) (ts rest : List Token) : Prop :=
  ∃ taken, ts = taken ++ rest ∧ (∀ t ∈ taken, t.kind ≠ .endOfText) ∧
    (∀ t, .kept t ∈ ws → t ∈ taken) ∧ (Plain taken → Spelled ws taken)

theorem Accounts.covers (h : Accounts ws ts rest) : Covers ws ts rest := by
  obtain ⟨taken, cut, noEnd, kept, -⟩ := h
  exact ⟨taken, cut, noEnd, kept⟩

theorem Accounts.nil : Accounts [] ts ts := by
  refine ⟨[], rfl, ?_, ?_, fun _ => .nil⟩ <;> simp

theorem Accounts.append (h : Accounts ws ts mid) (h' : Accounts ws' mid rest) :
    Accounts (ws ++ ws') ts rest := by
  obtain ⟨taken, rfl, noEnd, kept, spelled⟩ := h
  obtain ⟨taken', rfl, noEnd', kept', spelled'⟩ := h'
  refine ⟨taken ++ taken', by simp, ?_, ?_, fun plain => ?_⟩
  · grind
  · grind
  · exact List.rel_append (spelled fun t ht => plain t (by simp [ht]))
      (spelled' fun t ht => plain t (by simp [ht]))

/-- One more token in front, which is what one more word stands for. -/
theorem Accounts.cons {w : Word} (noEnd : t.kind ≠ .endOfText)
    (kept : ∀ t', w = .kept t' → t' = t) (spells : CarriesValue t → w.Spells t)
    (h : Accounts ws tl rest) : Accounts (w :: ws) (t :: tl) rest := by
  obtain ⟨taken, rfl, noEnd', kept', spelled⟩ := h
  refine ⟨t :: taken, rfl, ?_, ?_, fun plain => ?_⟩
  · grind
  · grind
  · exact .cons (spells (plain t (by simp)).2) (spelled fun t' ht => plain t' (by simp [ht]))

theorem Accounts.kept (noEnd : t.kind ≠ .endOfText) (h : Accounts ws tl rest) :
    Accounts (.kept t :: ws) (t :: tl) rest :=
  .cons noEnd (by grind) (fun _ => rfl) h

theorem Accounts.mark {kind : TokenKind} (same : t.kind = kind) (noEnd : kind ≠ .endOfText)
    (h : Accounts ws tl rest) : Accounts (.mark kind :: ws) (t :: tl) rest :=
  .cons (same ▸ noEnd) (by grind) (fun _ => same) h

theorem Accounts.constant {value : Scalar} (noEnd : t.kind ≠ .endOfText)
    (same : CarriesValue t → (Word.constant value).Spells t) :
    Accounts [.constant value] (t :: rest) rest :=
  .cons noEnd (by grind) same .nil

theorem Covers.append (h : Covers ws ts mid) (h' : Covers ws' mid rest) :
    Covers (ws ++ ws') ts rest := by
  obtain ⟨taken, rfl, noEnd, kept⟩ := h
  obtain ⟨taken', rfl, noEnd', kept'⟩ := h'
  exact ⟨taken ++ taken', by simp, by grind, by grind⟩

theorem Covers.cons (noEnd : t.kind ≠ .endOfText) (h : Covers ws tl rest) :
    Covers ws (t :: tl) rest := by
  obtain ⟨taken, rfl, noEnd', kept⟩ := h
  exact ⟨t :: taken, rfl, by grind, by grind⟩

theorem Covers.mono (h : Covers ws ts rest) (fewer : ∀ t, .kept t ∈ ws' → .kept t ∈ ws) :
    Covers ws' ts rest := by
  obtain ⟨taken, cut, noEnd, kept⟩ := h
  exact ⟨taken, cut, noEnd, fun t ht => kept t (fewer t ht)⟩

/-- Behind the keyword of a counting loop nothing has to be accounted for but the tokens
that are kept. -/
theorem Covers.accounts (loop : t.kind = .forWord) (h : Covers ws tl rest) :
    Accounts ws (t :: tl) rest := by
  obtain ⟨taken, rfl, noEnd, kept⟩ := h
  exact ⟨t :: taken, rfl, by grind, by grind, fun plain => absurd loop (plain t (by simp)).1⟩

/-- An expression accounts for the tokens before `rest`. -/
structure ReadExpr (e : Expr) (rank : Nat) (ts rest : List Token) : Prop where
  accounts : Accounts e.words ts rest
  layered : e.Layered
  tight : rank ≤ e.rank
  /-- What an open end would take does not follow. -/
  closed : e.endsOpen → NextNot [.comma] rest

/-- A statement that declares nothing accounts for the tokens before `rest`. -/
structure ReadStmt (s : Stmt) (ts rest : List Token) : Prop where
  accounts : Accounts s.words ts rest
  layered : s.Layered
  plain : s.declared? = none
  /-- An alternative that would belong to the statement does not follow. -/
  closed : s.endsShort → NextNot [.elseWord] rest

/-- An expression that begins with another one, extended by the tokens before `rest`. -/
def Extends (left e : Expr) (rank : Nat) (ts rest : List Token) : Prop :=
  ∃ ws, e.words = left.words ++ ws ∧ Accounts ws ts rest ∧ e.Layered ∧ rank ≤ e.rank

/-- What every production gives at a depth. -/
structure Accounted (d : Nat) : Prop where
  expression {ts e rest} : (expression d).Gives ts e rest →
    ReadExpr e 0 ts rest ∧ NextNot [.comma] rest
  commaItems {ts items rest} : (commaItems d).Gives ts items rest →
    Accounts (Expr.moreWords items) ts rest ∧ Expr.AllLayered items ∧
      Expr.Separable items ∧ NextNot [.comma] rest ∧ (items ≠ [] → ¬ NextNot [.comma] ts)
  assignment {ts e rest} : (assignment d).Gives ts e rest → ReadExpr e 1 ts rest
  conditional {ts e rest} : (conditional d).Gives ts e rest → ReadExpr e 2 ts rest
  operation {level ts e rest} : (operation d level).Gives ts e rest →
    ReadExpr e level.rank ts rest
  operationTail {level left ts e rest} : (operationTail d level left).Gives ts e rest →
    left.Layered → level.rank ≤ left.rank → Extends left e level.rank ts rest
  operand {level ts e rest} : (operand d level).Gives ts e rest →
    ReadExpr e (level.rank + 1) ts rest
  unary {ts e rest} : (unary d).Gives ts e rest → ReadExpr e 9 ts rest
  callTail {callee ts e rest} : (callTail d callee).Gives ts e rest →
    callee.Layered → 10 ≤ callee.rank → Extends callee e 10 ts rest
  arguments {ts items rest} : (arguments d).Gives ts items rest →
    Accounts (Expr.listWords (items.map Prod.snd)) ts rest ∧
      Expr.AllLayered (items.map Prod.snd) ∧ Expr.Separable (items.map Prod.snd)
  primary {ts e rest} : (primary d).Gives ts e rest → ReadExpr e 10 ts rest
  routine {kind ts f rest} : (routine d kind).Gives ts f rest →
    Accounts f.words ts rest ∧ f.Layered
  declaration {ts s rest} : (declaration d).Gives ts s rest →
    Accounts s.words ts rest ∧ s.Layered
  classRest {ts s rest} : (classRest d).Gives ts s rest →
    (∃ ws, s.words = .mark .classWord :: ws ∧ Accounts ws ts rest) ∧ s.Layered
  methods {ts found rest} : (methods d).Gives ts found rest →
    Accounts (FunctionDecl.rowWords found) ts rest ∧ FunctionDecl.AllLayered found
  varRest {ts s rest} : (varRest d).Gives ts s rest →
    (∃ ws, s.words = .mark .varWord :: ws ∧ Accounts ws ts rest) ∧ s.Layered
  blockRest {ts body rest} : (blockRest d).Gives ts body rest →
    Accounts (Stmt.rowWords body ++ [.mark .rightBrace]) ts rest ∧ Stmt.AllLayered body
  blockItems {ts body rest} : (blockItems d).Gives ts body rest →
    Accounts (Stmt.rowWords body) ts rest ∧ Stmt.AllLayered body
  statement {ts s rest} : (statement d).Gives ts s rest → ReadStmt s ts rest
  expressionStatement {ts s rest} : (expressionStatement d).Gives ts s rest →
    ReadStmt s ts rest
  forRest {ts s rest} : (forRest d).Gives ts s rest →
    Covers s.words ts rest ∧ s.Layered ∧ s.declared? = none ∧
      (s.endsShort → NextNot [.elseWord] rest)
  forInitial {ts initial rest} : (forInitial d).Gives ts initial rest →
    Covers ((initial.map Stmt.words).getD []) ts rest ∧ ∀ s ∈ initial, s.Layered
  ifRest {ts s rest} : (ifRest d).Gives ts s rest →
    ∃ ws, s.words = .mark .ifWord :: ws ∧ Accounts ws ts rest ∧ s.Layered ∧
      s.declared? = none ∧ (s.endsShort → NextNot [.elseWord] rest)

theorem names_accounts {found : List Token} (h : (names d).Gives ts found rest) :
    Accounts (nameWords found) ts rest ∧ ∀ name ∈ found, name.kind = .identifier := by
  induction d generalizing ts found with
  | zero => simp [names] at h
  | succ d ih =>
    obtain ⟨name, tl, rfl, isName, ⟨-, rfl, rfl⟩ | ⟨comma, mid, others, rfl, isComma, more, rfl⟩⟩ :=
      names_gives.1 h
    · exact ⟨.kept (by simp [isName]) .nil, by simpa⟩
    · obtain ⟨accounts, areNames⟩ := ih more
      have noEnd : name.kind ≠ .endOfText := by simp [isName]
      refine ⟨.kept noEnd ?_, by simpa [isName] using areNames⟩
      cases others with
      | nil =>
        cases d with
        | zero => simp [names] at more
        | succ d => obtain ⟨_, _, -, -, ⟨-, h, -⟩ | ⟨_, _, _, -, -, -, h⟩⟩ := names_gives.1 more <;>
            simp at h
      | cons other others => exact .mark isComma (by decide) accounts

theorem parameters_accounts {found : List Token} (h : (parameters d).Gives ts found rest) :
    Accounts (nameWords found ++ [.mark .rightParen]) ts rest ∧ AreParameters found := by
  obtain ⟨close, isClose, few, h⟩ := parameters_gives.1 h
  have closing : Accounts [.mark .rightParen] (close :: rest) rest :=
    .mark isClose (by decide) .nil
  obtain ⟨t, tl, rfl, h⟩ := unlessNext_gives.1 h
  split at h
  next =>
    obtain ⟨rfl, cut⟩ := h
    exact ⟨cut ▸ closing, by simp [AreParameters]⟩
  next =>
    obtain ⟨accounts, areNames⟩ := names_accounts h
    exact ⟨accounts.append closing, few, areNames⟩

end TreeWalk.Grammar
