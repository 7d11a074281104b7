import TreeWalk.Grammar
import Mathlib.Order.Nat

/-!
# The depth of the descent

The depth that `descent` gives suffices: no production runs out of it, and a greater
depth changes nothing. So the depth is no part of the meaning of the grammar.

## Implementation notes

`Settles` says of a reader and of the same reader one step deeper that they agree on the
rows of tokens for which the depth suffices. How much a production needs is 24 for each
token, and on top of it as many steps as it passes productions before it takes a token.
-/

namespace TreeWalk.Grammar

variable {α β : Type} {d k c : Nat}

/-- A reading does not run out of depth, and takes at least `c` tokens if it gives a
tree. -/
def Completes (c : Nat) (ts : List Token) : EStateM.Result Halt (List Token) α → Prop
  | .ok _ rest => rest.length + c ≤ ts.length
  | .error halt _ => halt ≠ .outOfDepth

/-- At depth `d` two readers agree on the rows of tokens that leave `k` steps of it, and
their readings complete. -/
def Settles (d k c : Nat) (r r' : Reader α) : Prop :=
  ∀ ts : List Token, 24 * ts.length + k ≤ d → r ts = r' ts ∧ Completes c ts (r ts)

/-- More steps are left than needed, and more tokens are taken than asked for. -/
theorem Settles.mono {k' c' : Nat} {r r' : Reader α} (h : Settles d k c r r') (more : k ≤ k')
    (fewer : c' ≤ c) : Settles d k' c' r r' := by
  intro ts enough
  obtain ⟨same, completes⟩ := h ts (by omega)
  refine ⟨same, ?_⟩
  cases read : r ts with
  | ok a rest =>
      simp only [read, Completes] at completes ⊢
      omega
  | error halt rest =>
      simpa only [read, Completes] using completes

/-- One step deeper one more step is left. -/
theorem Settles.deeper {r r' : Reader α} (h : Settles d k c r r') :
    Settles (d + 1) (k + 1) c r r' :=
  fun ts enough => h ts (by omega)

theorem Settles.pure {a : α} : Settles d k 0 (pure a) (pure a) :=
  fun _ _ => ⟨rfl, le_rfl⟩

theorem Settles.fail {cause : GrammarCause} {t : Token} :
    Settles (α := α) d k c (fail cause t) (fail cause t) :=
  fun _ _ => ⟨rfl, nofun⟩

theorem fail_bind {cause : GrammarCause} {t : Token} {f : α → Reader β} :
    fail cause t >>= f = fail cause t :=
  rfl

/-- A second reader has the steps for the tokens that the first one takes. -/
theorem Settles.bind {j n : Nat} {x x' : Reader α} {f f' : α → Reader β}
    (h : Settles d j n x x') (enough : j ≤ k)
    (h' : ∀ a, Settles d (k + 24 * n) (c - n) (f a) (f' a)) :
    Settles d k c (x >>= f) (x' >>= f') := by
  intro ts left
  obtain ⟨same, completes⟩ := h ts (by omega)
  simp only [Bind.bind, EStateM.bind, ← same]
  cases read : x ts with
  | ok a mid =>
      simp only [read, Completes] at completes ⊢
      obtain ⟨same', completes'⟩ := h' a mid (by omega)
      refine ⟨same', ?_⟩
      cases read' : f a mid with
      | ok b rest =>
          simp only [read', Completes] at completes' ⊢
          omega
      | error halt rest =>
          simpa only [read', Completes] using completes'
  | error halt mid =>
      simp only [read, Completes] at completes ⊢
      exact ⟨trivial, completes⟩

theorem Settles.map {f : α → β} {r r' : Reader α} (h : Settles d k c r r') :
    Settles d k c (f <$> r) (f <$> r') := by
  rw [map_eq_pure_bind, map_eq_pure_bind]
  exact .bind (h.mono le_rfl le_rfl) le_rfl fun a => by
    simpa using (Settles.pure (a := f a) (d := d) (k := k + 24 * c))

theorem peek_settles : Settles d k 0 peek peek := by
  intro ts _
  cases ts <;> simp [peek, Completes]

theorem advance_settles : Settles d k 1 advance advance := by
  intro ts _
  cases ts <;> simp [advance, Completes]

/-- Looking at the next token takes nothing. -/
theorem Settles.peek {f f' : Token → Reader β} (h : ∀ t, Settles d k c (f t) (f' t)) :
    Settles d k c (peek >>= f) (Grammar.peek >>= f') :=
  .bind peek_settles (Nat.zero_le k) h

theorem Settles.advance {f f' : Token → Reader β}
    (h : ∀ t, Settles d (k + 24) (c - 1) (f t) (f' t)) :
    Settles d k c (advance >>= f) (Grammar.advance >>= f') :=
  .bind advance_settles (Nat.zero_le k) h

theorem Settles.isSecond {kind : TokenKind} {f f' : Bool → Reader β}
    (h : ∀ b, Settles d k c (f b) (f' b)) :
    Settles d k c (isSecond kind >>= f) (Grammar.isSecond kind >>= f') :=
  .bind (j := 0) (n := 0) (fun _ _ => ⟨rfl, le_rfl⟩) (Nat.zero_le k) h

/-- A token that is taken off leaves its steps to what follows. -/
theorem Settles.acceptAny {kinds : List TokenKind} {f f' : Option Token → Reader β}
    (absent : Settles d k c (f none) (f' none))
    (present : ∀ t, Settles d (k + 24) (c - 1) (f (some t)) (f' (some t))) :
    Settles d k c (acceptAny kinds >>= f) (Grammar.acceptAny kinds >>= f') := by
  simp only [Grammar.acceptAny, bind_assoc]
  refine .peek fun t => ?_
  split
  · simp only [map_eq_pure_bind, bind_assoc, pure_bind]
    exact .advance present
  · simpa using absent

theorem Settles.accept {kind : TokenKind} {f f' : Option Token → Reader β}
    (absent : Settles d k c (f none) (f' none))
    (present : ∀ t, Settles d (k + 24) (c - 1) (f (some t)) (f' (some t))) :
    Settles d k c (accept kind >>= f) (Grammar.accept kind >>= f') :=
  .acceptAny absent present

theorem Settles.require {what : Requirement} {f f' : Token → Reader β}
    (h : ∀ t, Settles d (k + 24) (c - 1) (f t) (f' t)) :
    Settles d k c (require what >>= f) (Grammar.require what >>= f') := by
  simp only [Grammar.require, bind_assoc]
  refine .accept ?_ fun t => by simpa using h t
  simp only [bind_assoc, fail_bind]
  exact .peek fun t => .fail

theorem Settles.unlessNext {kind : TokenKind} {absent : α} {r r' : Reader α}
    (h : Settles d k 0 r r') :
    Settles d k 0 (unlessNext kind absent r) (Grammar.unlessNext kind absent r') := by
  simp only [Grammar.unlessNext, isNext, bind_assoc, pure_bind]
  refine .peek fun t => ?_
  split
  · exact .pure
  · exact h

theorem Settles.following {kind : TokenKind} {r r' : Reader α}
    (h : Settles d (k + 24) 0 r r') :
    Settles d k 0 (following kind r) (Grammar.following kind r') :=
  .accept .pure fun _ => h.map

theorem Settles.checkCount {items : List α} {first : α → Token} {what : Plurality}
    {f f' : Unit → Reader β} (h : ∀ u, Settles d k c (f u) (f' u)) :
    Settles d k c (checkCount items first what >>= f)
      (Grammar.checkCount items first what >>= f') := by
  unfold Grammar.checkCount
  split
  · simpa using h ()
  · simpa only [fail_bind] using .fail

end TreeWalk.Grammar
