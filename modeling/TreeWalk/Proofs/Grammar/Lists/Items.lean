import TreeWalk.Proofs.Grammar.Arguments.Separating
import TreeWalk.Proofs.Grammar.Reach.Stopping

/-!
# Lists of items

Parameters and arguments are lists of one kind: items with commas between them up to a closing
parenthesis. `itemList` reads such a list for any reader of its items, and the two lists of the
grammar are cases of it.

## Implementation notes

Readings that fail are described as well as those that give a list. So this module is about
outcomes, which are the same at every depth that suffices.
-/

namespace TreeWalk.Grammar

variable {α β : Type} {ts mid rest : List Token} {t : Token} {d k c : Nat} {a : α} {halt : Halt}
  {outcome : Except Halt α} {result : Except Halt β} {what : Requirement}

/-- At every depth that suffices for a row of tokens a reader comes to an outcome and leaves
some of the tokens. -/
def Outcome (r : Nat → Reader α) (ts : List Token) (outcome : Except Halt α)
    (rest : List Token) : Prop :=
  ∀ d, descent ts ≤ d → (r d).read ts = (outcome, rest)

/-- At a depth that suffices for a row the parts of what is read are one step deeper. -/
theorem exists_depth (deep : descent ts ≤ d) : ∃ n, d = n + 1 ∧ 24 * ts.length + 23 ≤ n := by
  unfold descent at deep
  exact ⟨d - 1, by omega, by omega⟩

/-- A reader that needs less comes to its outcome at some smaller depths too. -/
theorem Outcome.read_eq {r : Nat → Reader α} (comes : Outcome r ts outcome rest)
    (settles : ∀ d, Settles d k c (r d) (r (d + 1))) (enough : 24 * ts.length + k ≤ d) :
    (r d).read ts = (outcome, rest) := by
  have deeper : r (max d (descent ts)) ts = r d ts :=
    settles_le settles enough (Nat.le_max_left d _)
  have read := comes (max d (descent ts)) (Nat.le_max_right d _)
  unfold Reader.read at read ⊢
  rwa [deeper] at read

theorem exists_outcome {r : Nat → Reader α} (settles : ∀ d, Settles d k c (r d) (r (d + 1)))
    (small : k ≤ 24) (ts : List Token) : ∃ outcome rest, Outcome r ts outcome rest := by
  refine ⟨((r (descent ts)).read ts).1, ((r (descent ts)).read ts).2, fun d deep => ?_⟩
  unfold Reader.read
  rw [settles_le settles (by unfold descent; omega) deep]

theorem Outcome.bind {x : Nat → Reader α} {f : Nat → α → Reader β}
    (first : Outcome x ts (.ok a) mid) (next : ∀ d, (f d a).read mid = (result, rest)) :
    Outcome (fun d => x d >>= f d) ts result rest := by
  intro d deep
  rw [read_bind, first d deep]
  exact next d

theorem Outcome.bind_error {x : Nat → Reader α} {f : Nat → α → Reader β}
    (fails : Outcome x ts (.error halt) rest) :
    Outcome (fun d => x d >>= f d) ts (.error halt) rest := by
  intro d deep
  rw [read_bind, fails d deep]

theorem Outcome.map {r : Nat → Reader α} (comes : Outcome r ts outcome rest) (f : α → β) :
    Outcome (fun d => f <$> r d) ts (outcome.map f) rest := by
  intro d deep
  show (f <$> r d).read ts = _
  rw [map_eq_pure_bind, read_bind, comes d deep]
  cases outcome <;> rfl

theorem read_accept_bind {f : Option Token → Reader β} {kind : TokenKind} (same : t.kind = kind) :
    (accept kind >>= f).read (t :: ts) = (f (some t)).read ts := by
  have takes : (accept kind).Gives (t :: ts) (some t) ts :=
    acceptAny_gives.2 (.inr ⟨t, rfl, by simpa using same, rfl⟩)
  rw [read_bind, read_eq_ok.2 takes]

theorem read_acceptAny_bind_other {f : Option Token → Reader β} {kinds : List TokenKind}
    (other : NextNot kinds ts) : (acceptAny kinds >>= f).read ts = (f none).read ts := by
  have skips : (acceptAny kinds).Gives ts none ts := acceptAny_gives.2 (.inl ⟨other, rfl, rfl⟩)
  rw [read_bind, read_eq_ok.2 skips]

theorem read_require_bind {f : Token → Reader β} (wanted : t.kind = what.kind) :
    (require what >>= f).read (t :: ts) = (f t).read ts := by
  have takes : (require what).Gives (t :: ts) t ts := require_gives.2 ⟨rfl, wanted⟩
  rw [read_bind, read_eq_ok.2 takes]

theorem read_require_bind_missing {f : Token → Reader β} (other : t.kind ≠ what.kind) :
    (require what >>= f).read (t :: ts) = (.error (.error ⟨.missing what, t⟩), t :: ts) := by
  rw [require, accept, bind_assoc,
    read_acceptAny_bind_other (nextNot_cons.2 (by simpa using other))]
  rfl

theorem read_unlessNext {kind : TokenKind} {absent : α} {r : Reader α}
    (other : ∀ t ∈ ts.head?, t.kind ≠ kind) (noTokens : r.read [] = (.error .outOfTokens, [])) :
    (unlessNext kind absent r).read ts = r.read ts := by
  cases ts with
  | nil => exact noTokens.symm
  | cons t tl =>
    have skips : t.kind ≠ kind := other t rfl
    simp only [unlessNext, isNext, bind_assoc, pure_bind]
    rw [read_peek_bind]
    simp [skips]

theorem unlessNext_map (kind : TokenKind) (absent : α) (r : Reader α) (f : α → β) :
    unlessNext kind (f absent) (f <$> r) = f <$> unlessNext kind absent r := by
  simp only [unlessNext, map_bind]
  refine bind_congr fun next => ?_
  cases next <;> simp

section

variable {items : List α} {first : α → Token} {what : Plurality} {f : Unit → Reader β}

theorem read_checkCount_bind (few : items.length ≤ maxArguments) :
    (checkCount items first what >>= f).read ts = (f ()).read ts := by
  rw [checkCount, List.getElem?_eq_none few]
  rfl

theorem read_checkCount_bind_many (many : maxArguments < items.length) :
    (checkCount items first what >>= f).read ts =
      (.error (.error ⟨.tooMany what, first items[maxArguments]⟩), ts) := by
  rw [checkCount, List.getElem?_eq_getElem many]
  rfl

theorem checkCount_map {g : β → α} {items : List β} :
    checkCount (items.map g) first what = checkCount items (first ∘ g) what := by
  simp only [checkCount, List.getElem?_map]
  cases items[maxArguments]? <;> rfl

end

/-- One or more items with commas between them, each with its first token. -/
def itemRow (item : Nat → Reader α) : Nat → Reader (List (Token × α))
  | 0 => throw .outOfDepth
  | depth + 1 => do
    let first ← peek
    let a ← item depth
    match ← accept .comma with
    | none => return [(first, a)]
    | some _ => return (first, a) :: (← itemRow item depth)

/-- What stands before the closing parenthesis of a list. -/
def listInside (item : Nat → Reader α) (depth : Nat) : Reader (List (Token × α)) :=
  unlessNext .rightParen [] (itemRow item depth)

/-- The items of a list and its closing parenthesis. -/
def itemList (item : Nat → Reader α) (close : Requirement) (what : Plurality) (depth : Nat) :
    Reader (List (Token × α) × Token) := do
  let items ← listInside item depth
  let paren ← require close
  checkCount items Prod.fst what
  return (items, paren)

theorem arguments_eq_itemRow (d : Nat) : arguments d = itemRow assignment d := by
  induction d with
  | zero => rfl
  | succ d ih =>
    simp only [arguments, itemRow]
    refine bind_congr fun first => bind_congr fun a => bind_congr fun comma => ?_
    cases comma with
    | none => rfl
    | some _ => simp only [ih]

theorem finishCall_eq_itemList (callee : Expr) (d : Nat) :
    finishCall d callee = (fun (items, paren) => .call callee paren (items.map Prod.snd)) <$>
      itemList assignment .parenAfterArguments .arguments d := by
  simp only [finishCall, itemList, listInside, arguments_eq_itemRow, map_bind, map_pure]

/-- What is required is the token that is next. -/
theorem peek_bind_require {f : Token → Token → Reader β} :
    (peek >>= fun first => require what >>= f first) = require what >>= fun t => f t t := by
  funext ts
  cases ts with
  | nil => rfl
  | cons t ts =>
    show (require what >>= f t) (t :: ts) = (require what >>= fun t => f t t) (t :: ts)
    simp only [bind, EStateM.bind]
    cases read : require what (t :: ts) with
    | ok name rest =>
      obtain ⟨same, -⟩ := require_gives.1 read
      rw [(List.cons.inj same).1]
    | error halt rest => rfl

/-- A name is its own first token. -/
theorem itemRow_eq_names (d : Nat) :
    itemRow (fun _ => require .parameterName) d =
      List.map (fun name => (name, name)) <$> names d := by
  induction d with
  | zero => rfl
  | succ d ih =>
    simp only [itemRow, names, peek_bind_require, map_bind]
    refine bind_congr fun name => bind_congr fun comma => ?_
    cases comma with
    | none => simp
    | some _ => simp [ih]

theorem parameters_eq_itemList (d : Nat) :
    parameters d = (fun (items, _) => items.map Prod.snd) <$>
      itemList (fun _ => require .parameterName) .parenAfterParameters .parameters d := by
  have inside : listInside (fun _ => require .parameterName) d =
      List.map (fun name => (name, name)) <$> unlessNext .rightParen [] (names d) := by
    rw [listInside, itemRow_eq_names]
    exact unlessNext_map .rightParen [] (names d) (List.map fun name => (name, name))
  simp only [parameters, itemList, inside, map_bind, bind_map_left, checkCount_map, map_pure,
    List.map_map, Function.comp_def, List.map_id']
  rfl

/-- A reader of items needs no more depth than one of assignments, takes a token at least for
each item and finds nothing in an empty row. -/
structure ReadsItems (item : Nat → Reader α) : Prop where
  settles (d : Nat) : Settles d 16 1 (item d) (item (d + 1))
  noTokens : (item 16).read [] = (.error .outOfTokens, [])

namespace ReadsItems

variable {item : Nat → Reader α}

theorem parameterName : ReadsItems fun _ => require .parameterName where
  settles d := by
    have settles : Settles d 16 1 (require .parameterName >>= pure)
        (require .parameterName >>= pure) := .require fun _ => .pure
    rwa [bind_pure] at settles
  noTokens := rfl

theorem assignment : ReadsItems assignment where
  settles d := (settled d).assignment
  noTokens := by with_unfolding_all rfl

theorem length_lt (reads : ReadsItems item) (comes : Outcome item ts (.ok a) rest) :
    rest.length < ts.length := by
  have completes := (reads.settles (descent ts) ts (by unfold descent; omega)).2
  have gives : item (descent ts) ts = .ok a rest := read_eq_ok.1 (comes _ le_rfl)
  rwa [gives] at completes

theorem eq_of_nil (reads : ReadsItems item) (comes : Outcome item [] outcome rest) :
    outcome = .error .outOfTokens ∧ rest = [] := by
  have read := comes.read_eq (d := 16) reads.settles (by simp)
  rw [reads.noTokens] at read
  exact ⟨(Prod.mk.inj read).1.symm, (Prod.mk.inj read).2.symm⟩

theorem exists_cons (reads : ReadsItems item) (comes : Outcome item ts (.ok a) rest) :
    ∃ t tl, ts = t :: tl :=
  List.exists_cons_of_length_pos (Nat.zero_lt_of_lt (reads.length_lt comes))

/-- At a depth that suffices for a row its first item is read one step deeper. -/
theorem read (reads : ReadsItems item) (comes : Outcome item ts outcome rest)
    (enough : 24 * ts.length + 23 ≤ d) : (item d).read ts = (outcome, rest) :=
  comes.read_eq reads.settles (Nat.le_trans (by omega) enough)

end ReadsItems

section

variable {item : Nat → Reader α} (reads : ReadsItems item)

theorem itemRow_nil : Outcome (itemRow item) [] (.error .outOfTokens) [] := by
  intro d deep
  obtain ⟨n, rfl, -⟩ := exists_depth deep
  rfl

include reads

theorem itemRow_error (fails : Outcome item ts (.error halt) rest) :
    Outcome (itemRow item) ts (.error halt) rest := by
  cases ts with
  | nil =>
    obtain ⟨known, rfl⟩ := reads.eq_of_nil fails
    cases known
    exact itemRow_nil
  | cons t tl =>
    intro d deep
    obtain ⟨n, rfl, enough⟩ := exists_depth deep
    rw [itemRow, read_peek_bind, read_bind, reads.read fails enough]

theorem itemRow_last (last : Outcome item (t :: ts) (.ok a) rest)
    (noComma : NextNot [.comma] rest) :
    Outcome (itemRow item) (t :: ts) (.ok [(t, a)]) rest := by
  intro d deep
  obtain ⟨n, rfl, enough⟩ := exists_depth deep
  rw [itemRow, read_peek_bind, read_bind, reads.read last enough]
  exact read_acceptAny_bind_other noComma

theorem itemRow_cutOff (last : Outcome item (t :: ts) (.ok a) []) :
    Outcome (itemRow item) (t :: ts) (.error .outOfTokens) [] := by
  intro d deep
  obtain ⟨n, rfl, enough⟩ := exists_depth deep
  rw [itemRow, read_peek_bind, read_bind, reads.read last enough]
  rfl

theorem itemRow_comma {comma : Token} {others : Except Halt (List (Token × α))}
    (first : Outcome item (t :: ts) (.ok a) (comma :: mid)) (isComma : comma.kind = .comma)
    (further : Outcome (itemRow item) mid others rest) :
    Outcome (itemRow item) (t :: ts) (others.map ((t, a) :: ·)) rest := by
  intro d deep
  obtain ⟨n, rfl, enough⟩ := exists_depth deep
  have shorter := reads.length_lt first
  have left : descent mid ≤ n := by
    simp only [List.length_cons] at shorter enough
    unfold descent
    omega
  rw [itemRow, read_peek_bind, read_bind, reads.read first enough]
  show (accept .comma >>= _).read (comma :: mid) = _
  rw [read_accept_bind isComma]
  show (itemRow item n >>= _).read mid = _
  rw [read_bind, further n left]
  cases others <;> rfl

end

end TreeWalk.Grammar
