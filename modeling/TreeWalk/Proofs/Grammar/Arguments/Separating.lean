import TreeWalk.Proofs.Grammar.Arguments.Ending
import TreeWalk.Proofs.Grammar.Continuing.Programs
import TreeWalk.Proofs.Grammar.Depth.Productions

/-!
# Arguments and the commas between them

Between the parentheses of a call stand rows of tokens with commas between them. If each of
them is an argument on its own, the call has these arguments exactly if none but the last
ends in the alternative of a choice. Such an alternative is read as a whole expression and
takes the comma behind it with all that follows.
-/

namespace TreeWalk.Grammar

open Filter

variable {ts tl inner segment more rest : List Token} {t paren : Token} {d : Nat}
  {callee e : Expr} {items : List Expr}

/-- How many parentheses and braces are open behind a token. -/
def nesting (depth : Nat) : TokenKind → Nat
  | .leftParen | .leftBrace => depth + 1
  | .rightParen | .rightBrace => depth - 1
  | _ => depth

/-- The rows of tokens between the commas outside all parentheses and braces, if `depth` of
these are open in front. -/
def segments (depth : Nat) : List Token → List (List Token)
  | [] => [[]]
  | t :: tl =>
    if t.kind = .comma ∧ depth = 0 then [] :: segments 0 tl
    else (segments (nesting depth t.kind) tl).modifyHead (t :: ·)

theorem segments_eq (depth : Nat) (ts : List Token) :
    segments depth ts = [ts] ∨ ∃ segment comma tl, ts = segment ++ comma :: tl ∧
      comma.kind = .comma ∧ segments depth ts = segment :: segments 0 tl := by
  induction ts generalizing depth with
  | nil => exact .inl rfl
  | cons t tl ih =>
    rw [segments]
    split
    next separates => exact .inr ⟨[], t, tl, rfl, separates.1, rfl⟩
    next =>
      obtain whole | ⟨segment, comma, behind, rfl, isComma, cut⟩ := ih (nesting depth t.kind)
      · exact .inl (by rw [whole]; rfl)
      · exact .inr ⟨t :: segment, comma, behind, rfl, isComma, by rw [cut]; rfl⟩

theorem segments_ne_nil (depth : Nat) (ts : List Token) : segments depth ts ≠ [] := by
  obtain whole | ⟨_, _, _, -, -, cut⟩ := segments_eq depth ts
  · simp [whole]
  · simp [cut]

/-- The arguments of a call up to the closing parenthesis. -/
def finishCall (depth : Nat) (callee : Expr) : Reader Expr := do
  let items ← unlessNext .rightParen [] (arguments depth)
  let paren ← require .parenAfterArguments
  checkCount items Prod.fst .arguments
  return .call callee paren (items.map Prod.snd)

theorem finishCall_gives :
    (finishCall d callee).Gives ts e rest ↔
      ∃ items paren, (unlessNext .rightParen [] (arguments d)).Gives ts items (paren :: rest) ∧
        paren.kind = .rightParen ∧ items.length ≤ maxArguments ∧
        e = .call callee paren (items.map Prod.snd) := by
  simp only [finishCall, bind_gives, require_gives, checkCount_gives, pure_gives,
    Requirement.kind]
  constructor <;> grind

theorem finishCall_settles (callee : Expr) (d : Nat) :
    Settles d 17 1 (finishCall d callee) (finishCall (d + 1) callee) := by
  unfold finishCall
  refine .bind (.unlessNext ((settled d).arguments.mono le_rfl (by decide))) le_rfl fun items => ?_
  exact .require fun paren => .checkCount fun _ => .pure

theorem finishCall_descent (deep : descent ts ≤ d) :
    finishCall d callee ts = finishCall (descent ts) callee ts :=
  settles_le (finishCall_settles callee) (by unfold descent; omega) deep

/-- Behind an opening parenthesis a call is finished before anything else is added to it. -/
theorem callTail_finishCall (opening : t.kind = .leftParen) (deep : descent tl ≤ d) :
    callTail (d + 1) callee (t :: tl) = (finishCall (descent tl) callee >>= callTail d) tl := by
  have finish : finishCall d callee >>= callTail d = (do
      let items ← unlessNext .rightParen [] (arguments d)
      let paren ← require .parenAfterArguments
      checkCount items Prod.fst .arguments
      callTail d (.call callee paren (items.map Prod.snd))) := by
    simp only [finishCall, bind_assoc]
    rfl
  have same : (finishCall (descent tl) callee >>= callTail d) tl =
      (finishCall d callee >>= callTail d) tl := by
    show EStateM.bind _ _ tl = EStateM.bind _ _ tl
    simp only [EStateM.bind, finishCall_descent deep]
  rw [same, finish, callTail, bind_of_gives (peek_gives.2 ⟨rfl, rfl⟩)]
  simp only [opening]
  rw [bind_of_gives (advance_gives.2 rfl)]

/-- A row of tokens is an argument on its own: before the end token it is read as an
assignment, and nothing of it is left. -/
def IsArgument (segment : List Token) (e : Expr) : Prop :=
  ∃ line, (assignment (descent (segment ++ [.endOfText line]))).read
    (segment ++ [.endOfText line]) = (.ok e, [.endOfText line])

/-- What is an argument on its own is read as it before other tokens, if these belong to no
assignment and, behind an open end, begin with no comma. -/
theorem IsArgument.reads (h : IsArgument segment e) (after : Stops 1 more)
    (noElse : NextNot [.elseWord] more) (closed : e.endsOpen → Stops 0 more) :
    Reads assignment (segment ++ more) e more := by
  obtain ⟨line, h⟩ := h
  let J : Junction := ⟨.endOfText line, more, rfl, noElse⟩
  refine (eventually_ge_atTop (descent (segment ++ [.endOfText line]))).mono fun d deep => ?_
  have alone : (assignment d).Gives (segment ++ [J.close]) e [J.close] := by
    unfold EStateM.Gives EStateM.run
    rw [settles_le (fun d => (settled d).assignment) (by simp [descent]; omega) deep]
    exact read_eq_ok.1 h
  exact (endsAt (J := J) after d).assignment alone closed

theorem stops_of_rightParen (closes : paren.kind = .rightParen) : Stops 0 (paren :: rest) :=
  stops_cons (by simp [closes, joins, Level.ofKind?])

theorem arguments_first {found : List (Token × Expr)} (h : (arguments d).Gives ts found rest) :
    ∃ t tl, ts = t :: tl ∧ t.kind ∈ expressionStarts := by
  cases d with
  | zero => exact (throw_gives.1 h).elim
  | succ d =>
    obtain ⟨first, item, mid, next, head, -⟩ := arguments_gives.1 h
    obtain ⟨tl, rfl⟩ := List.head?_eq_some_iff.1 next
    exact ⟨first, tl, rfl, assignment_first head⟩

/-- If no argument but the last ends open, the arguments are those between the commas. -/
theorem reads_of_segments {depth : Nat} (closes : paren.kind = .rightParen)
    (accepted : List.Forall₂ IsArgument (segments depth inner) items)
    (closed : ∀ item ∈ items.dropLast, item.endsOpen = false) :
    ∃ found, found.map Prod.snd = items ∧
      Reads arguments (inner ++ paren :: rest) found (paren :: rest) := by
  have stops : Stops 0 (paren :: rest) := stops_of_rightParen closes
  obtain ⟨first, next⟩ : ∃ first, (inner ++ paren :: rest).head? = some first := by
    cases inner <;> simp
  induction items generalizing inner depth first with
  | nil => exact absurd (List.forall₂_nil_right_iff.1 accepted) (segments_ne_nil depth inner)
  | cons item others ih =>
    obtain whole | ⟨segment, comma, tl, rfl, isComma, cut⟩ := segments_eq depth inner
    · rw [whole] at accepted
      obtain ⟨head, tail⟩ := List.forall₂_cons.1 accepted
      obtain rfl := List.forall₂_nil_left_iff.1 tail
      refine ⟨[(first, item)], rfl, reads_of_succ ?_⟩
      have noElse : NextNot [.elseWord] (paren :: rest) := nextNot_cons.2 (by simp [closes])
      filter_upwards [head.reads (stops.mono (by decide)) noElse fun _ => stops] with d head
      exact arguments_gives.2 ⟨first, item, _, next, head,
        .inl ⟨stops.nextNot (by simp [joins]), rfl, rfl⟩⟩
    · rw [cut] at accepted
      obtain ⟨head, tail⟩ := List.forall₂_cons.1 accepted
      obtain ⟨other, others, rfl⟩ : ∃ other more, others = other :: more := by
        refine List.exists_cons_of_ne_nil fun none => segments_ne_nil 0 tl ?_
        rw [none] at tail
        exact List.forall₂_nil_right_iff.1 tail
      rw [List.dropLast_cons_cons] at closed
      obtain ⟨second, next'⟩ : ∃ second, (tl ++ paren :: rest).head? = some second := by
        cases tl <;> simp
      obtain ⟨found, made, tail⟩ :=
        ih tail (fun item among => closed item (List.mem_cons_of_mem _ among)) second next'
      have noOpen := closed item List.mem_cons_self
      have apart : Stops 1 (comma :: (tl ++ paren :: rest)) :=
        stops_cons (by simp [isComma, joins])
      have head := head.reads apart (nextNot_cons.2 (by simp [isComma])) (by simp [noOpen])
      refine ⟨(first, item) :: found, by simp [made], reads_of_succ ?_⟩
      filter_upwards [head, tail] with d head tail
      rw [List.append_assoc, List.cons_append] at next ⊢
      exact arguments_gives.2 ⟨first, item, _, next, head,
        .inr ⟨comma, _, found, rfl, isComma, tail, rfl⟩⟩

theorem endsOpen_of_separable (h : Expr.Separable items) :
    ∀ item ∈ items.dropLast, item.endsOpen = false := by
  induction items with
  | nil => simp
  | cons item others ih =>
    obtain ⟨-, closed, rest⟩ := h
    cases others with
    | nil => simp
    | cons other others =>
      rw [List.dropLast_cons_cons]
      exact List.forall_mem_cons.2 ⟨closed (by simp), ih rest⟩

/-- Rows of tokens between commas each of which is an argument: a call has these arguments
exactly if none of them but the last ends open. -/
theorem commas_separate_arguments (callee : Expr) (rest : List Token)
    (accepted : List.Forall₂ IsArgument (segments 0 inner) items)
    (few : (segments 0 inner).length ≤ maxArguments) (closes : paren.kind = .rightParen) :
    (finishCall (descent (inner ++ paren :: rest)) callee).read (inner ++ paren :: rest) =
        (.ok (.call callee paren items), rest) ↔
      ∀ item ∈ items.dropLast, item.endsOpen = false := by
  rw [read_eq_ok]
  constructor
  · intro h
    obtain ⟨found, paren', inside, -, -, same⟩ := finishCall_gives.1 h
    obtain ⟨rfl, rfl⟩ : paren = paren' ∧ items = found.map Prod.snd := by simpa using same
    obtain ⟨t, tl, -, inside⟩ := unlessNext_gives.1 inside
    split at inside
    next => simp [inside.1]
    next => exact endsOpen_of_separable ((accounted _).arguments inside).2.2
  · intro closed
    obtain ⟨found, rfl, reads⟩ : ∃ found, found.map Prod.snd = items ∧
        Reads arguments (inner ++ paren :: rest) found (paren :: rest) :=
      reads_of_segments closes accepted closed
    have counted : found.length ≤ maxArguments := by
      simpa [accepted.length_eq] using few
    have finished : Reads (finishCall · callee) (inner ++ paren :: rest)
        (.call callee paren (found.map Prod.snd)) rest := by
      refine reads.mono fun d reads => finishCall_gives.2 ⟨found, paren, ?_, closes, counted, rfl⟩
      obtain ⟨t, tl, cut, begins⟩ := arguments_first reads
      refine unlessNext_gives.2 ⟨t, tl, cut, ?_⟩
      rw [if_neg]
      · exact reads
      · intro closing
        simp [closing, expressionStarts, tightStarts] at begins
    exact read_eq_ok.1 (finished.read_eq fun d deep => finishCall_descent deep)

namespace ChoiceArgument

def name (lexeme : String) : Token := ⟨.identifier, lexeme, .nil, 1⟩

def sign (kind : TokenKind) : Token := ⟨kind, kind.name, .nil, 1⟩

def use (lexeme : String) : Expr := .variable (.ofToken (name lexeme))

/-- The tokens of `a ? b : c`. -/
def choice : List Token := [name "a", sign .question, name "b", sign .colon, name "c"]

theorem choice_isArgument :
    IsArgument choice (.conditional (use "a") (use "b") (use "c")) :=
  ⟨1, by with_unfolding_all rfl⟩

theorem name_isArgument : IsArgument [name "d"] (use "d") :=
  ⟨1, by with_unfolding_all rfl⟩

/-- `(d, a ? b : c)`, where the choice is the last of the arguments. -/
theorem commas_separate_arguments_choice :
    let inner := name "d" :: sign .comma :: choice
    let items := [use "d", .conditional (use "a") (use "b") (use "c")]
    List.Forall₂ IsArgument (segments 0 inner) items ∧
      (segments 0 inner).length ≤ maxArguments ∧ (sign .rightParen).kind = .rightParen ∧
      ((finishCall (descent (inner ++ [sign .rightParen])) (use "f")).read
          (inner ++ [sign .rightParen]) =
        (.ok (.call (use "f") (sign .rightParen) items), []) ↔
        ∀ item ∈ items.dropLast, item.endsOpen = false) := by
  intro inner items
  have accepted : List.Forall₂ IsArgument (segments 0 inner) items :=
    .cons name_isArgument (.cons choice_isArgument .nil)
  have few : (segments 0 inner).length ≤ maxArguments := by decide
  exact ⟨accepted, few, rfl, commas_separate_arguments (use "f") [] accepted few rfl⟩

/-- `(a ? b : c, d)`: the choice takes the comma and what follows it, and one argument is
left of two. -/
theorem choice_takes_comma :
    let inner := choice ++ [sign .comma, name "d"]
    List.Forall₂ IsArgument (segments 0 inner)
        [.conditional (use "a") (use "b") (use "c"), use "d"] ∧
      (finishCall (descent (inner ++ [sign .rightParen])) (use "f")).read
          (inner ++ [sign .rightParen]) =
        (.ok (.call (use "f") (sign .rightParen)
          [.conditional (use "a") (use "b") (.comma [use "c", use "d"])]), []) := by
  intro inner
  exact ⟨.cons choice_isArgument (.cons name_isArgument .nil), by with_unfolding_all rfl⟩

end ChoiceArgument

end TreeWalk.Grammar
