import TreeWalk.Grammar
import TreeWalk.Proofs.Gives

/-!
# Successful readings, production by production

Each production is described by what a reading that gives a tree consists of: the
readings of its parts and the tokens it takes between them. Later proofs use these
descriptions in both directions and never open a production.

## Implementation notes

The readers of single tokens come first, in a form that suits rewriting; a description
of a production is then found by rewriting with them. Where a production looks at the
next token to decide what to do, its description is by the kind of that token.
-/

namespace TreeWalk.Grammar

variable {α β : Type} {ts rest : List Token} {d : Nat}

theorem read_eq_ok {reader : Reader α} {a : α} :
    reader.read ts = (.ok a, rest) ↔ reader.Gives ts a rest := by
  unfold Reader.read EStateM.Gives EStateM.run
  split <;> simp_all

/-- The next token exists and is of none of these kinds. -/
def NextNot (kinds : List TokenKind) (ts : List Token) : Prop :=
  ∃ t tl, ts = t :: tl ∧ t.kind ∉ kinds

theorem nextNot_cons {kinds : List TokenKind} {t : Token} :
    NextNot kinds (t :: ts) ↔ t.kind ∉ kinds := by
  simp [NextNot]

@[simp] theorem fail_gives {cause : GrammarCause} {token : Token} {a : α} :
    (fail cause token : Reader α).Gives ts a rest ↔ False :=
  throw_gives

@[simp] theorem peek_gives {t : Token} :
    peek.Gives ts t rest ↔ rest = ts ∧ ts.head? = some t := by
  cases ts <;> simp [EStateM.Gives, EStateM.run, peek, and_comm, eq_comm]

@[simp] theorem advance_gives {t : Token} : advance.Gives ts t rest ↔ ts = t :: rest := by
  cases ts <;> simp [EStateM.Gives, EStateM.run, advance]

theorem peek_bind_gives {f : Token → Reader β} {b : β} :
    (peek >>= f).Gives ts b rest ↔ ∃ t tl, ts = t :: tl ∧ (f t).Gives ts b rest := by
  cases ts <;> simp [bind_gives, and_assoc]

theorem advance_bind_gives {f : Token → Reader β} {b : β} :
    (advance >>= f).Gives ts b rest ↔ ∃ t tl, ts = t :: tl ∧ (f t).Gives tl b rest := by
  simp [bind_gives]

theorem isNext_gives {kind : TokenKind} {b : Bool} :
    (isNext kind).Gives ts b rest ↔
      rest = ts ∧ ∃ t tl, ts = t :: tl ∧ b = decide (t.kind = kind) := by
  simp only [isNext, peek_bind_gives, pure_gives]
  grind

@[simp] theorem isSecond_gives {kind : TokenKind} {b : Bool} :
    (isSecond kind).Gives ts b rest ↔
      rest = ts ∧ b = ts[1]?.any (fun token => token.kind = kind) := by
  simp [EStateM.Gives, EStateM.run, isSecond, and_comm, eq_comm]

theorem acceptAny_gives {kinds : List TokenKind} {found : Option Token} :
    (acceptAny kinds).Gives ts found rest ↔
      (NextNot kinds ts ∧ found = none ∧ rest = ts) ∨
        ∃ t, ts = t :: rest ∧ t.kind ∈ kinds ∧ found = some t := by
  simp only [acceptAny, peek_bind_gives, NextNot, List.contains_iff_mem]
  constructor
  · rintro ⟨t, tl, rfl, h⟩
    split at h
    next inside =>
      obtain ⟨t', taken, rfl⟩ := map_gives.1 h
      obtain ⟨rfl, rfl⟩ := List.cons.inj (advance_gives.1 taken)
      exact .inr ⟨t, rfl, inside, rfl⟩
    next outside =>
      obtain ⟨rfl, rfl⟩ := pure_gives.1 h
      exact .inl ⟨⟨t, tl, rfl, outside⟩, rfl, rfl⟩
  · rintro (⟨⟨t, tl, rfl, outside⟩, rfl, rfl⟩ | ⟨t, rfl, inside, rfl⟩)
    · exact ⟨t, tl, rfl, by simp [outside]⟩
    · exact ⟨t, rest, rfl, by simp [inside, map_gives]⟩

theorem acceptAny_bind_gives {kinds : List TokenKind} {f : Option Token → Reader β} {b : β} :
    (acceptAny kinds >>= f).Gives ts b rest ↔
      (NextNot kinds ts ∧ (f none).Gives ts b rest) ∨
        ∃ t tl, ts = t :: tl ∧ t.kind ∈ kinds ∧ (f (some t)).Gives tl b rest := by
  simp only [bind_gives, acceptAny_gives]
  grind

theorem accept_bind_gives {kind : TokenKind} {f : Option Token → Reader β} {b : β} :
    (accept kind >>= f).Gives ts b rest ↔
      (NextNot [kind] ts ∧ (f none).Gives ts b rest) ∨
        ∃ t tl, ts = t :: tl ∧ t.kind = kind ∧ (f (some t)).Gives tl b rest := by
  simp only [accept, acceptAny_bind_gives, List.mem_singleton]

@[simp] theorem require_gives {what : Requirement} {t : Token} :
    (require what).Gives ts t rest ↔ ts = t :: rest ∧ t.kind = what.kind := by
  simp only [require, accept_bind_gives, peek_bind_gives, fail_gives, pure_gives]
  constructor
  · rintro (⟨-, _, _, -, ⟨⟩⟩ | ⟨t', tl, rfl, kind, rfl, rfl⟩)
    exact ⟨rfl, kind⟩
  · rintro ⟨rfl, kind⟩
    exact .inr ⟨t, rest, rfl, kind, rfl, rfl⟩

theorem require_bind_gives {what : Requirement} {f : Token → Reader β} {b : β} :
    (require what >>= f).Gives ts b rest ↔
      ∃ t tl, ts = t :: tl ∧ t.kind = what.kind ∧ (f t).Gives tl b rest := by
  simp only [bind_gives, require_gives]
  grind

theorem unlessNext_gives {kind : TokenKind} {absent a : α} {reader : Reader α} :
    (unlessNext kind absent reader).Gives ts a rest ↔
      ∃ t tl, ts = t :: tl ∧
        if t.kind = kind then a = absent ∧ rest = ts else reader.Gives ts a rest := by
  simp only [unlessNext, bind_gives, isNext_gives]
  constructor
  · rintro ⟨_, _, ⟨rfl, t, tl, rfl, rfl⟩, h⟩
    refine ⟨t, tl, rfl, ?_⟩
    split at h <;> simp_all
  · rintro ⟨t, tl, rfl, h⟩
    refine ⟨_, _, ⟨rfl, t, tl, rfl, rfl⟩, ?_⟩
    split at h <;> simp_all

theorem following_gives {kind : TokenKind} {found : Option α} {reader : Reader α} :
    (following kind reader).Gives ts found rest ↔
      (NextNot [kind] ts ∧ found = none ∧ rest = ts) ∨
        ∃ t tl a, ts = t :: tl ∧ t.kind = kind ∧ reader.Gives tl a rest ∧ found = some a := by
  simp only [following, accept_bind_gives, pure_gives, map_gives]
  grind

@[simp] theorem checkCount_gives {items : List α} {first : α → Token} {what : Plurality}
    {u : Unit} :
    (checkCount items first what).Gives ts u rest ↔ items.length ≤ maxArguments ∧ rest = ts := by
  unfold checkCount
  cases h : items[maxArguments]? with
  | none => simp [List.getElem?_eq_none_iff.1 h]
  | some item =>
    obtain ⟨large, -⟩ := List.getElem?_eq_some_iff.1 h
    simp only [fail_gives, false_iff]
    omega

end TreeWalk.Grammar
