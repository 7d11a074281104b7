import TreeWalk.Proofs.Grammar.Productions

/-!
# Rows that go on

What is read from the front of a row does not depend on what stands far behind it. This
module compares a row that is closed by an end token with one that goes on in the place
of that token, reader by reader.

## Implementation notes

A reader may look at the token behind those that it takes. If that token is the closing
one, the two rows differ there, so a reading that looks is only known to be carried over
if tokens are left before it. A statement ends without looking, but for a branch, which
looks for its alternative; so no alternative may stand where the row goes on.
-/

namespace TreeWalk.Grammar

variable {α β : Type}

/-- A place where one row of tokens is closed and another goes on, but not with an
alternative. -/
structure Junction where
  close : Token
  more : List Token
  isEnd : close.kind = .endOfText
  goesOn : NextNot [.elseWord] more

/-- A reading of a closed row takes at least `c` tokens, not the closing one, and is
carried over to the row that goes on if it leaves some, or has `ended`. -/
def Carries (J : Junction) (c : Nat) (ended : Prop) (r : Reader α) : Prop :=
  ∀ ⦃xs : List Token⦄ ⦃a : α⦄ ⦃rest : List Token⦄, r.Gives (xs ++ [J.close]) a rest →
    ∃ ys, rest = ys ++ [J.close] ∧ ys.length + c ≤ xs.length ∧
      (ys ≠ [] ∨ ended → r.Gives (xs ++ J.more) a (ys ++ J.more))

/-- The same of the rows that begin with a token. -/
def CarriesFrom (J : Junction) (t : Token) (c : Nat) (ended : Prop) (r : Reader α) : Prop :=
  ∀ ⦃xs : List Token⦄ ⦃a : α⦄ ⦃rest : List Token⦄, r.Gives (t :: xs ++ [J.close]) a rest →
    ∃ ys, rest = ys ++ [J.close] ∧ ys.length + c ≤ xs.length + 1 ∧
      (ys ≠ [] ∨ ended → r.Gives (t :: xs ++ J.more) a (ys ++ J.more))

variable {J : Junction} {c k : Nat} {ended ended' : Prop} {t : Token} {x r : Reader α}

theorem required_ne_endOfText (what : Requirement) : what.kind ≠ .endOfText := by
  cases what <;> simp [Requirement.kind]

theorem Carries.mono (h : Carries J c ended r) (fewer : k ≤ c) (less : ended' → ended) :
    Carries J k ended' r := by
  intro xs a rest gives
  obtain ⟨ys, cut, few, beyond⟩ := h gives
  exact ⟨ys, cut, by omega, fun left => beyond (left.imp_right less)⟩

theorem Carries.weak (h : Carries J c ended r) : Carries J 0 False r :=
  h.mono (Nat.zero_le c) False.elim

theorem CarriesFrom.of (h : Carries J c ended r) : CarriesFrom J t c ended r :=
  fun _ _ _ gives => h gives

theorem Carries.pure {a : α} : Carries J 0 ended (pure a) := by
  intro xs b rest gives
  obtain ⟨rfl, rfl⟩ := pure_gives.1 gives
  exact ⟨xs, rfl, Nat.le_refl _, fun _ => pure_gives.2 ⟨rfl, rfl⟩⟩

theorem Carries.fail {cause : GrammarCause} {t : Token} :
    Carries (α := α) J c ended (fail cause t) :=
  fun _ _ _ gives => (fail_gives.1 gives).elim

theorem Carries.outOfDepth : Carries (α := α) J c ended (throw .outOfDepth) :=
  fun _ _ _ gives => (throw_gives.1 gives).elim

/-- A first reading is carried over if it has ended, or the second one takes a token that
it leaves. -/
theorem Carries.bind {f : α → Reader β} (first : Carries J c ended' x)
    (next : ∀ a, Carries J (k - c) ended (f a)) (leaves : ended → ended' ∨ 0 < k - c) :
    Carries J k ended (x >>= f) := by
  intro xs b rest gives
  obtain ⟨a, mid, here, there⟩ := bind_gives.1 gives
  obtain ⟨ys, rfl, few, beyond⟩ := first here
  obtain ⟨zs, rfl, few', beyond'⟩ := next a there
  refine ⟨zs, rfl, by omega, fun left => ?_⟩
  refine bind_gives.2 ⟨a, _, beyond ?_, beyond' left⟩
  rw [← List.length_pos_iff] at left ⊢
  obtain some | ends := left
  · exact .inl (by omega)
  · exact (leaves ends).symm.imp_left fun _ => by omega

theorem Carries.map {f : α → β} (h : Carries J c ended r) : Carries J c ended (f <$> r) := by
  rw [map_eq_pure_bind]
  exact .bind h (fun a => by rw [Nat.sub_self]; exact .pure) .inl

/-- The closing token is not what a reading that ends there has looked for. -/
theorem Carries.peek {f : Token → Reader β} (atEnd : Carries J c False (f J.close))
    (next : ∀ t, CarriesFrom J t c ended (f t)) (takes : ended → 0 < c) :
    Carries J c ended (peek >>= f) := by
  intro xs b rest gives
  obtain ⟨t, tl, cut, here⟩ := peek_bind_gives.1 gives
  cases xs with
  | nil =>
    obtain ⟨rfl, rfl⟩ := List.cons.inj cut
    obtain ⟨ys, rfl, few, -⟩ := @atEnd [] b rest here
    refine ⟨ys, rfl, few, fun left => ?_⟩
    rw [List.length_nil] at few
    obtain some | ends := left
    · exact absurd (List.length_eq_zero_iff.1 (by omega)) some
    · exact absurd (takes ends) (by omega)
  | cons x xs =>
    obtain ⟨rfl, rfl⟩ := List.cons.inj cut
    obtain ⟨ys, rfl, few, beyond⟩ := next x here
    exact ⟨ys, rfl, few, fun left => peek_bind_gives.2 ⟨x, xs ++ J.more, rfl, beyond left⟩⟩

theorem CarriesFrom.advance {f : Token → Reader β} (next : Carries J (c - 1) ended (f t)) :
    CarriesFrom J t c ended (advance >>= f) := by
  intro xs b rest gives
  obtain ⟨_, _, cut, here⟩ := advance_bind_gives.1 gives
  obtain ⟨rfl, rfl⟩ := List.cons.inj cut
  obtain ⟨ys, rfl, few, beyond⟩ := next here
  exact ⟨ys, rfl, by omega, fun left => advance_bind_gives.2 ⟨t, _, rfl, beyond left⟩⟩

/-- The second token is not the closing one if at least two are taken. -/
theorem CarriesFrom.isSecond {kind : TokenKind} {f : Bool → Reader β}
    (next : ∀ b, CarriesFrom J t c ended (f b)) (two : 2 ≤ c) :
    CarriesFrom J t c ended (isSecond kind >>= f) := by
  intro xs b rest gives
  obtain ⟨_, _, second, here⟩ := bind_gives.1 gives
  obtain ⟨rfl, rfl⟩ := isSecond_gives.1 second
  obtain ⟨ys, rfl, few, beyond⟩ := next _ here
  refine ⟨ys, rfl, few, fun left => bind_gives.2 ⟨_, _, isSecond_gives.2 ⟨rfl, rfl⟩, ?_⟩⟩
  cases xs with
  | nil => simp at few; omega
  | cons x xs => exact beyond left

theorem Carries.acceptAny {kinds : List TokenKind} {f : Option Token → Reader β}
    (noEnd : .endOfText ∉ kinds) (absent : Carries J c ended (f none))
    (present : ∀ t, Carries J (c - 1) ended (f (some t)))
    (leaves : ended → 0 < c ∨ NextNot kinds J.more) :
    Carries J c ended (acceptAny kinds >>= f) := by
  intro xs b rest gives
  cases xs with
  | nil =>
    obtain ⟨-, here⟩ | ⟨t, tl, cut, accepted, -⟩ := acceptAny_bind_gives.1 gives
    · obtain ⟨ys, rfl, few, beyond⟩ := absent here
      refine ⟨ys, rfl, few, fun left => acceptAny_bind_gives.2 (.inl ⟨?_, beyond left⟩)⟩
      simp only [List.length_nil, Nat.le_zero, Nat.add_eq_zero_iff] at few
      obtain some | ends := left
      · exact absurd (List.length_eq_zero_iff.1 few.1) some
      · exact (leaves ends).resolve_left (by omega)
    · obtain ⟨rfl, -⟩ := List.cons.inj cut
      exact absurd (J.isEnd ▸ accepted) noEnd
  | cons x xs =>
    obtain ⟨other, here⟩ | ⟨t, tl, cut, accepted, here⟩ := acceptAny_bind_gives.1 gives
    · obtain ⟨ys, rfl, few, beyond⟩ := absent here
      refine ⟨ys, rfl, few, fun left => acceptAny_bind_gives.2 (.inl ⟨?_, beyond left⟩)⟩
      exact nextNot_cons.2 (nextNot_cons.1 other)
    · obtain ⟨rfl, rfl⟩ := List.cons.inj cut
      obtain ⟨ys, rfl, few, beyond⟩ := present _ here
      refine ⟨ys, rfl, ?_, fun left =>
        acceptAny_bind_gives.2 (.inr ⟨_, _, rfl, accepted, beyond left⟩)⟩
      rw [List.length_cons]
      omega

theorem Carries.accept {kind : TokenKind} {f : Option Token → Reader β}
    (noEnd : .endOfText ≠ kind) (absent : Carries J c ended (f none))
    (present : ∀ t, Carries J (c - 1) ended (f (some t)))
    (leaves : ended → 0 < c ∨ NextNot [kind] J.more) :
    Carries J c ended (accept kind >>= f) :=
  .acceptAny (by simpa using noEnd) absent present leaves

theorem Carries.require {what : Requirement} {f : Token → Reader β}
    (next : ∀ t, Carries J (c - 1) ended (f t)) : Carries J c ended (require what >>= f) := by
  intro xs b rest gives
  obtain ⟨t, tl, cut, required, here⟩ := require_bind_gives.1 gives
  cases xs with
  | nil =>
    obtain ⟨rfl, -⟩ := List.cons.inj cut
    exact absurd (required.symm.trans J.isEnd) (required_ne_endOfText what)
  | cons x xs =>
    obtain ⟨rfl, rfl⟩ := List.cons.inj cut
    obtain ⟨ys, rfl, few, beyond⟩ := next _ here
    refine ⟨ys, rfl, ?_, fun left => require_bind_gives.2 ⟨_, _, rfl, required, beyond left⟩⟩
    rw [List.length_cons]
    omega

theorem Carries.unlessNext {kind : TokenKind} {absent : α} (h : Carries J c ended r) :
    Carries J 0 False (unlessNext kind absent r) := by
  simp only [Grammar.unlessNext, isNext, bind_assoc, pure_bind]
  refine .peek ?_ (fun t => .of ?_) False.elim
  all_goals
    split
    · exact .pure
    · exact h.weak

theorem Carries.following {kind : TokenKind} (noEnd : .endOfText ≠ kind)
    (h : Carries J 0 ended r) (leaves : ended → NextNot [kind] J.more) :
    Carries J 0 ended (following kind r) :=
  .accept noEnd .pure (fun _ => h.map) fun ends => .inr (leaves ends)

theorem Carries.checkCount {items : List α} {first : α → Token} {what : Plurality}
    {f : Unit → Reader β} (next : ∀ u, Carries J c ended (f u)) :
    Carries J c ended (checkCount items first what >>= f) := by
  unfold Grammar.checkCount
  split
  · simpa using next ()
  · exact Carries.fail

end TreeWalk.Grammar
