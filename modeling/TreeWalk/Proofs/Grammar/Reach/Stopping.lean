import TreeWalk.Proofs.Grammar.Continuing.Carrying

/-!
# Where readings stop

A reading of a row with an end token stops before a token that is there, at the first end
token at the latest. What came of it is settled by the tokens up to that one: whatever
stands behind, the outcome is the same.

## Implementation notes

A reading that fails is described too, so successful readings cannot be taken apart as
usual. `Confined` is about one reader and one row, and there is a rule for every combinator
of readers. How many tokens are taken at least matters at one place only: a reader that has
looked at the token behind the next one has to take the next one off.
-/

namespace TreeWalk.Grammar

variable {α β : Type} {c k : Nat} {ts : List Token} {r x : Reader α} {f : α → Reader β}

/-- There is an end token in a row. -/
def HasEnd (ts : List Token) : Prop := ∃ t ∈ ts, t.kind = .endOfText

/-- A reader takes some tokens and stops before the next one, with the same outcome
whatever stands behind it. -/
def StopsBefore (r : Reader α) (taken : List Token) (t : Token) (outcome : Except Halt α) :
    Prop :=
  ∀ behind, r.read (taken ++ t :: behind) = (outcome, t :: behind)

/-- A reading of a row runs out of depth, or it takes at least `c` tokens, none of them an
end token, and stops before a token that is there. -/
def Confined (c : Nat) (r : Reader α) (ts : List Token) : Prop :=
  (r.read ts).1 = .error .outOfDepth ∨
    ∃ taken t behind outcome, ts = taken ++ t :: behind ∧
      (∀ s ∈ taken, s.kind ≠ .endOfText) ∧ c ≤ taken.length ∧
      outcome ≠ .error .outOfTokens ∧ StopsBefore r taken t outcome

theorem HasEnd.exists_cons (h : HasEnd ts) : ∃ t tl, ts = t :: tl := by
  obtain ⟨t, inside, -⟩ := h
  exact List.exists_cons_of_ne_nil (List.ne_nil_of_mem inside)

/-- The end token is not among those taken before. -/
theorem HasEnd.behind {taken rest : List Token} (h : HasEnd (taken ++ rest))
    (noEnd : ∀ s ∈ taken, s.kind ≠ .endOfText) : HasEnd rest := by
  obtain ⟨t, inside, isEnd⟩ := h
  obtain before | behind := List.mem_append.1 inside
  · exact absurd isEnd (noEnd t before)
  · exact ⟨t, behind, isEnd⟩

theorem HasEnd.tail {t : Token} {tl : List Token} (h : HasEnd (t :: tl))
    (noEnd : t.kind ≠ .endOfText) : HasEnd tl := by
  have ends : HasEnd ([t] ++ tl) := h
  exact ends.behind (by simpa using noEnd)

theorem read_bind : (x >>= f).read ts =
    match x.read ts with
    | (.ok a, rest) => (f a).read rest
    | (.error halt, rest) => (.error halt, rest) := by
  simp only [Reader.read, bind, EStateM.bind]
  cases x ts <;> rfl

theorem read_peek_bind {f : Token → Reader β} {t : Token} {tl : List Token} :
    (peek >>= f).read (t :: tl) = (f t).read (t :: tl) := rfl

theorem read_advance_bind {f : Token → Reader β} {t : Token} {tl : List Token} :
    (advance >>= f).read (t :: tl) = (f t).read tl := rfl

theorem read_isSecond_bind {kind : TokenKind} {f : Bool → Reader β} :
    (isSecond kind >>= f).read ts =
      (f (ts[1]?.any fun token => token.kind = kind)).read ts := rfl

theorem Confined.mono (h : Confined c r ts) (fewer : k ≤ c) : Confined k r ts := by
  obtain deep | ⟨taken, t, behind, outcome, cut, noEnd, many, known, stops⟩ := h
  · exact .inl deep
  · exact .inr ⟨taken, t, behind, outcome, cut, noEnd, Nat.le_trans fewer many, known, stops⟩

theorem Confined.outOfDepth : Confined c (throw .outOfDepth : Reader α) ts := .inl rfl

/-- A reader that looks at nothing stops before the first token. -/
theorem Confined.still (outcome : Except Halt α) (ends : HasEnd ts)
    (known : outcome ≠ .error .outOfTokens) (same : ∀ ts, r.read ts = (outcome, ts)) :
    Confined 0 r ts := by
  obtain ⟨t, tl, rfl⟩ := ends.exists_cons
  exact .inr ⟨[], t, tl, outcome, rfl, nofun, Nat.le_refl 0, known, fun behind => same _⟩

theorem Confined.pure {a : α} (ends : HasEnd ts) : Confined 0 (Pure.pure a : Reader α) ts :=
  .still (.ok a) ends nofun fun _ => rfl

theorem Confined.fail {cause : GrammarCause} {t : Token} (ends : HasEnd ts) :
    Confined 0 (Grammar.fail cause t : Reader α) ts :=
  .still (.error (.error ⟨cause, t⟩)) ends nofun fun _ => rfl

/-- A second reader goes on where the first one stopped. -/
theorem Confined.bind (ends : HasEnd ts) (first : Confined c x ts)
    (next : ∀ a rest, HasEnd rest → Confined 0 (f a) rest) : Confined c (x >>= f) ts := by
  obtain deep | ⟨taken, t, behind, outcome, rfl, noEnd, many, known, stops⟩ := first
  · refine .inl ?_
    rw [read_bind]
    cases read : x.read ts with
    | mk outcome rest =>
      rw [read] at deep
      rw [show outcome = .error .outOfDepth from deep]
  cases outcome with
  | error halt =>
    refine .inr ⟨taken, t, behind, .error halt, rfl, noEnd, many, ?_, fun behind => ?_⟩
    · simpa using known
    · rw [read_bind, stops behind]
  | ok a =>
    have whole (behind) : (x >>= f).read (taken ++ t :: behind) = (f a).read (t :: behind) := by
      rw [read_bind, stops behind]
    obtain deep | ⟨taken', t', behind', outcome, cut, noEnd', -, known', stops'⟩ :=
      next a _ (ends.behind noEnd)
    · exact .inl (by rw [whole, deep])
    · refine .inr ⟨taken ++ taken', t', behind', outcome, by simp [cut], ?_, ?_, known',
        fun other => ?_⟩
      · simpa [or_imp, forall_and] using ⟨noEnd, noEnd'⟩
      · rw [List.length_append]
        omega
      · -- the token before which the first reader stopped is there in any case
        obtain ⟨more, same⟩ : ∃ more, taken' ++ t' :: other = t :: more := by
          cases taken' with
          | nil => exact ⟨other, by rw [(List.cons.inj cut).1, List.nil_append]⟩
          | cons s taken' => exact ⟨_, by rw [List.cons_append, (List.cons.inj cut).1]⟩
        rw [List.append_assoc, same, whole, ← same]
        exact stops' other

theorem Confined.map {g : α → β} (ends : HasEnd ts) (h : Confined c r ts) :
    Confined c (g <$> r) ts := by
  rw [map_eq_pure_bind]
  exact h.bind ends fun _ _ ends => .pure ends

/-- A look at the next token takes nothing. -/
theorem Confined.peek {f : Token → Reader β} (ends : HasEnd ts)
    (next : ∀ t tl, ts = t :: tl → Confined c (f t) ts) : Confined c (peek >>= f) ts := by
  obtain ⟨t, tl, rfl⟩ := ends.exists_cons
  obtain deep | ⟨taken, t', behind, outcome, cut, noEnd, many, known, stops⟩ := next t tl rfl
  · exact .inl deep
  · refine .inr ⟨taken, t', behind, outcome, cut, noEnd, many, known, fun other => ?_⟩
    have here := stops other
    cases taken with
    | nil =>
      obtain ⟨rfl, -⟩ := List.cons.inj cut
      exact here
    | cons s taken =>
      obtain ⟨rfl, -⟩ := List.cons.inj cut
      exact here

theorem Confined.advance {f : Token → Reader β} {t : Token} {tl : List Token}
    (noEnd : t.kind ≠ .endOfText) (next : Confined (c - 1) (f t) tl) :
    Confined c (advance >>= f) (t :: tl) := by
  obtain deep | ⟨taken, t', behind, outcome, rfl, noEnd', many, known, stops⟩ := next
  · exact .inl deep
  · refine .inr ⟨t :: taken, t', behind, outcome, rfl, ?_, ?_, known, stops⟩
    · simpa using ⟨noEnd, noEnd'⟩
    · rw [List.length_cons]
      omega

/-- Whoever has looked at the second token takes the first one off. -/
theorem Confined.isSecond {kind : TokenKind} {f : Bool → Reader β} (some : 0 < c)
    (next : Confined c (f (ts[1]?.any fun token => token.kind = kind)) ts) :
    Confined c (isSecond kind >>= f) ts := by
  obtain deep | ⟨taken, t, behind, outcome, rfl, noEnd, many, known, stops⟩ := next
  · exact .inl deep
  · refine .inr ⟨taken, t, behind, outcome, rfl, noEnd, many, known, fun other => ?_⟩
    have same : (taken ++ t :: other)[1]? = (taken ++ t :: behind)[1]? := by
      match taken, Nat.lt_of_lt_of_le some many with
      | [_], _ => rfl
      | _ :: _ :: _, _ => rfl
    rw [read_isSecond_bind, same]
    exact stops other

theorem Confined.acceptAny {kinds : List TokenKind} {f : Option Token → Reader β}
    (ends : HasEnd ts) (noEnd : .endOfText ∉ kinds)
    (absent : ∀ t tl, ts = t :: tl → t.kind ∉ kinds → Confined c (f none) ts)
    (present : ∀ t tl, HasEnd tl → Confined (c - 1) (f (some t)) tl) :
    Confined c (acceptAny kinds >>= f) ts := by
  simp only [Grammar.acceptAny, bind_assoc]
  refine .peek ends fun t tl cut => ?_
  subst cut
  split
  next inside =>
    have inside := List.contains_iff_mem.1 inside
    have other : t.kind ≠ .endOfText := fun isEnd => noEnd (isEnd ▸ inside)
    simp only [map_eq_pure_bind, bind_assoc, pure_bind]
    exact .advance other (present t tl (ends.tail other))
  next outside =>
    rw [pure_bind]
    exact absent t tl rfl fun inside => outside (List.contains_iff_mem.2 inside)

theorem Confined.accept {kind : TokenKind} {f : Option Token → Reader β} (ends : HasEnd ts)
    (noEnd : .endOfText ≠ kind) (absent : Confined c (f none) ts)
    (present : ∀ t tl, HasEnd tl → Confined (c - 1) (f (some t)) tl) :
    Confined c (accept kind >>= f) ts :=
  .acceptAny ends (by simpa using noEnd) (fun _ _ _ _ => absent) present

theorem Confined.require {what : Requirement} {f : Token → Reader β} (ends : HasEnd ts)
    (next : ∀ t tl, HasEnd tl → Confined 0 (f t) tl) : Confined 0 (require what >>= f) ts := by
  simp only [Grammar.require, bind_assoc]
  refine .accept ends (required_ne_endOfText what).symm ?_ fun t tl ends => ?_
  · rw [bind_assoc]
    exact .peek ends fun t _ _ => (Confined.fail (α := β) (t := t) ends)
  · rw [pure_bind]
    exact next t tl ends

theorem Confined.unlessNext {kind : TokenKind} {absent : α} (ends : HasEnd ts)
    (h : Confined 0 r ts) : Confined 0 (unlessNext kind absent r) ts := by
  simp only [Grammar.unlessNext, isNext, bind_assoc, pure_bind]
  refine .peek ends fun t _ _ => ?_
  split
  · exact .pure ends
  · exact h

theorem Confined.following {kind : TokenKind} (ends : HasEnd ts) (noEnd : .endOfText ≠ kind)
    (h : ∀ tl, HasEnd tl → Confined 0 r tl) : Confined 0 (following kind r) ts :=
  .accept ends noEnd (.pure ends) fun _ tl ends => (h tl ends).map ends

theorem Confined.checkCount {items : List α} {first : α → Token} {what : Plurality}
    {f : Unit → Reader β} (ends : HasEnd ts) (next : Confined 0 (f ()) ts) :
    Confined 0 (checkCount items first what >>= f) ts := by
  unfold Grammar.checkCount
  split
  · rwa [pure_bind]
  · exact Confined.fail (α := β) ends

end TreeWalk.Grammar
