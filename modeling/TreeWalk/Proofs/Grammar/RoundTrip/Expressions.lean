import TreeWalk.Proofs.Grammar.RoundTrip.Rungs

/-!
# Expressions are readable

One lemma for each kind of expression: it is readable if its parts are.
-/

namespace TreeWalk.Grammar

open Filter

variable {ts tl rest : List Token} {e : Expr}

theorem beginsWith_cons {kinds : List TokenKind} {t : Token} (inside : t.kind ∈ kinds)
    (noFun : t.kind ≠ .funWord) : BeginsWith kinds (t :: tl) :=
  ⟨t, tl, rfl, inside, fun isFun => absurd isFun noFun⟩

/-- A primary expression of one token. -/
theorem Readable.ofToken {t : Token} (tight : e.rank = 10) (inside : t.kind ∈ tightStarts)
    (noFun : t.kind ≠ .funWord)
    (own : ∀ d rest, (primary (d + 1)).Gives (t :: rest) e rest) : Readable e [t] :=
  .ofPrimary tight (beginsWith_cons inside noFun) fun rest =>
    reads_of_succ (.of_forall fun d => own d rest)

theorem Readable.literal {value : Scalar} {t : Token} (spells : (Word.constant value).Spells t) :
    Readable (.literal value) [t] := by
  obtain ⟨kind, carried⟩ := spells
  have own (d : Nat) (rest : List Token) :
      (primary (d + 1)).Gives (t :: rest) (.literal value) rest := by
    refine primary_gives.2 ⟨t, rest, rfl, ?_⟩
    rcases value with _ | (_ | _) | _ | _ <;> simp_all [Scalar.tokenKind]
  refine .ofToken rfl ?_ ?_ own <;>
    rcases value with _ | (_ | _) | _ | _ <;> simp [kind, Scalar.tokenKind, tightStarts]

/-- A reference is what is made of its name. -/
theorem ofToken_name {reference : Reference} {kind : TokenKind}
    (written : reference.IsWritten kind) : Reference.ofToken reference.name = reference := by
  obtain ⟨name, distance⟩ := reference
  obtain ⟨-, rfl⟩ := written
  rfl

theorem Readable.variable {reference : Reference} (written : reference.IsWritten .identifier) :
    Readable (.variable reference) [reference.name] := by
  have kind := written.1
  refine .ofToken rfl (by simp [kind, tightStarts]) (by simp [kind]) fun d rest =>
    primary_gives.2 ⟨_, rest, rfl, ?_⟩
  simp [kind, ofToken_name written]

theorem Readable.this {reference : Reference} (written : reference.IsWritten .thisWord) :
    Readable (.this reference) [reference.name] := by
  have kind := written.1
  refine .ofToken rfl (by simp [kind, tightStarts]) (by simp [kind]) fun d rest =>
    primary_gives.2 ⟨_, rest, rfl, ?_⟩
  simp [kind, ofToken_name written]

theorem Readable.super {reference : Reference} {dot method : Token}
    (written : reference.IsWritten .superWord) (isDot : dot.kind = .dot)
    (isName : method.kind = .identifier) :
    Readable (.super reference method) [reference.name, dot, method] := by
  have kind := written.1
  refine .ofPrimary rfl (beginsWith_cons (by simp [kind, tightStarts]) (by simp [kind]))
    fun rest => reads_of_succ (.of_forall fun d => primary_gives.2 ⟨_, _, rfl, ?_⟩)
  simp [kind, ofToken_name written, isDot, isName]

theorem Readable.grouping {inner : Expr} {opening close : Token}
    (isOpening : opening.kind = .leftParen) (isClosing : close.kind = .rightParen)
    (h : Readable inner ts) : Readable (.grouping inner) (opening :: (ts ++ [close])) := by
  refine .ofPrimary rfl (beginsWith_cons (by simp [isOpening, tightStarts])
    (by simp [isOpening])) fun rest => reads_of_succ ?_
  have stops : Stops 0 (close :: rest) := stops_cons (by simp [isClosing, joins, Level.ofKind?])
  filter_upwards [h.onRung (Nat.zero_le _) (by omega) stops fun _ => stops] with d within
  refine primary_gives.2 ⟨opening, ts ++ close :: rest, by simp, ?_⟩
  simp only [isOpening]
  exact ⟨inner, close, within, isClosing, rfl⟩

/-- What follows an item in a row is a comma or what follows the row. -/
theorem more_stops {others : List Expr} (spelled : Spelled (Expr.moreWords others) ts)
    (stops : Stops 0 rest) :
    Stops 1 (ts ++ rest) ∧ (others = [] → Stops 0 (ts ++ rest)) := by
  cases others with
  | nil =>
    obtain rfl := spelled_nil.1 spelled
    exact ⟨stops.mono (by decide), fun _ => stops⟩
  | cons item others =>
    obtain ⟨comma, tl, rfl, isComma, -⟩ := spelled_cons.1 spelled
    have isComma : comma.kind = .comma := isComma
    exact ⟨stops_cons (by simp [isComma, joins]), by simp⟩

/-- An item before others is read as an assignment. -/
theorem item_reads {item : Expr} {others : List Expr} (h : Readable item ts)
    (separable : Expr.Separable (item :: others)) (spelled : Spelled (Expr.moreWords others) tl)
    (stops : Stops 0 rest) : Reads assignment (ts ++ (tl ++ rest)) item (tl ++ rest) := by
  obtain ⟨one, none⟩ := more_stops spelled stops
  refine h.onRung separable.1 (by decide) one fun isOpen => none ?_
  by_contra some
  simp [separable.2.1 some] at isOpen

theorem commaItems_reads {items : List Expr}
    (all : ∀ item ∈ items, ∀ ts, Spelled item.words ts → Readable item ts)
    (separable : Expr.Separable items) (spelled : Spelled (Expr.moreWords items) ts)
    (stops : Stops 0 rest) : Reads commaItems (ts ++ rest) items rest := by
  induction items generalizing ts with
  | nil =>
    obtain rfl := spelled_nil.1 spelled
    exact commaItems_reads_nil stops
  | cons item others ih =>
    obtain ⟨comma, tl, rfl, isComma, spelled⟩ := spelled_cons.1 spelled
    obtain ⟨ts, tl, rfl, first, more⟩ := spelled_append.1 spelled
    refine reads_of_succ ?_
    filter_upwards [item_reads (all item (by simp) ts first) separable more stops,
      ih (fun item inside => all item (by simp [inside])) separable.2.2 more] with d head tail
    exact commaItems_gives.2 (.inr ⟨comma, ts ++ (tl ++ rest), item, tl ++ rest, others, by simp,
      isComma, head, tail, rfl⟩)

theorem arguments_reads {item : Expr} {others : List Expr}
    (all : ∀ item' ∈ item :: others, ∀ ts, Spelled item'.words ts → Readable item' ts)
    (separable : Expr.Separable (item :: others))
    (spelled : Spelled (Expr.listWords (item :: others)) ts) (stops : Stops 0 rest) :
    ∃ found, found.map Prod.snd = item :: others ∧
      Reads arguments (ts ++ rest) found rest := by
  obtain ⟨next, _, cut, -⟩ := id stops
  induction others generalizing item ts with
  | nil =>
    obtain ⟨ts, tl, rfl, first, more⟩ := spelled_append.1 spelled
    have head := item_reads (all item (by simp) ts first) separable more stops
    obtain rfl := spelled_nil.1 more
    obtain ⟨t, first⟩ : ∃ t, (ts ++ rest).head? = some t := by
      cases ts <;> simp [cut]
    refine ⟨[(t, item)], rfl, reads_of_succ ?_⟩
    filter_upwards [head] with d head
    exact arguments_gives.2 ⟨t, item, rest, by simpa using first, by simpa using head,
      .inl ⟨stops.nextNot (by simp [joins]), rfl, rfl⟩⟩
  | cons other others ih =>
    obtain ⟨ts, tl, rfl, first, more⟩ := spelled_append.1 spelled
    have head := item_reads (all item (by simp) ts first) separable more stops
    obtain ⟨comma, tl, rfl, isComma, more⟩ := spelled_cons.1 more
    obtain ⟨found, same, tail⟩ :=
      ih (fun item inside => all item (by simp [inside])) separable.2.2 more
    obtain ⟨t, first⟩ : ∃ t, (ts ++ (comma :: tl ++ rest)).head? = some t := by
      cases ts <;> simp
    refine ⟨(t, item) :: found, by simp [same], reads_of_succ ?_⟩
    filter_upwards [head, tail] with d head tail
    exact arguments_gives.2 ⟨t, item, comma :: (tl ++ rest), by simpa using first,
      by simpa using head, .inr ⟨comma, tl ++ rest, found, rfl, isComma, tail, rfl⟩⟩

theorem Readable.comma {items : List Expr} (many : 2 ≤ items.length)
    (all : ∀ item ∈ items, ∀ ts, Spelled item.words ts → Readable item ts)
    (separable : Expr.Separable items) (spelled : Spelled (Expr.listWords items) ts) :
    Readable (.comma items) ts := by
  match items, many with
  | first :: second :: others, _ =>
    obtain ⟨ts, tl, rfl, head, more⟩ := spelled_append.1 spelled
    refine .ofLoose (by simp [Expr.rank]) fun rest stops _ => ?_
    have tail := commaItems_reads (fun item inside => all item (by simp [inside]))
      separable.2.2 more stops
    rw [List.append_assoc]
    exact expression_reads (item_reads (all first (by simp) ts head) separable more stops) tail

theorem Readable.call {callee : Expr} {opening paren : Token} {arguments : List Expr}
    (h : Readable callee ts) (begins : BeginsWith tightStarts ts) (tight : 10 ≤ callee.rank)
    (isOpening : opening.kind = .leftParen) (isClosing : paren.kind = .rightParen)
    (few : arguments.length ≤ maxArguments) (layered : Expr.AllLayered arguments)
    (all : ∀ item ∈ arguments, ∀ ts, Spelled item.words ts → Readable item ts)
    (separable : Expr.Separable arguments) (spelled : Spelled (Expr.listWords arguments) tl) :
    Readable (.call callee paren arguments) (ts ++ opening :: (tl ++ [paren])) := by
  refine .ofCalled rfl begins.append fun rest e' rest' tail => ?_
  have stops : Stops 0 (paren :: rest) := stops_cons (by simp [isClosing, joins, Level.ofKind?])
  obtain ⟨found, same, items⟩ : ∃ found, found.map Prod.snd = arguments ∧
      Reads (fun d => unlessNext .rightParen [] (Grammar.arguments d)) (tl ++ paren :: rest) found
        (paren :: rest) := by
    cases arguments with
    | nil =>
      obtain rfl := spelled_nil.1 spelled
      exact ⟨[], rfl, .of_forall fun d =>
        unlessNext_gives.2 ⟨paren, rest, rfl, by simp [isClosing]⟩⟩
    | cons item others =>
      obtain ⟨found, same, items⟩ := arguments_reads all separable spelled stops
      obtain ⟨t, tl, rfl, inside, -⟩ := (Expr.begins layered.1).append.tokens spelled
      refine ⟨found, same, items.mono fun d items =>
        unlessNext_gives.2 ⟨t, tl ++ paren :: rest, rfl, ?_⟩⟩
      rwa [if_neg fun isClosing => by simp [isClosing, expressionStarts, tightStarts] at inside]
  rw [List.append_assoc]
  refine h.calls tight (reads_of_succ ?_)
  filter_upwards [items, tail] with d items tail
  refine callTail_gives.2 ⟨opening, tl ++ paren :: rest, by simp, ?_⟩
  simp only [isOpening]
  refine ⟨found, paren, rest, items, isClosing, ?_, same ▸ tail⟩
  rwa [← List.length_map, same]

theorem Readable.get {object : Expr} {dot name : Token} (h : Readable object ts)
    (begins : BeginsWith tightStarts ts) (tight : 10 ≤ object.rank) (isDot : dot.kind = .dot)
    (isName : name.kind = .identifier) :
    Readable (.get object name) (ts ++ [dot, name]) := by
  refine .ofCalled rfl begins.append fun rest e' rest' tail => ?_
  rw [List.append_assoc]
  refine h.calls tight (reads_of_succ (tail.mono fun d tail => ?_))
  refine callTail_gives.2 ⟨dot, name :: rest, rfl, ?_⟩
  simp only [isDot]
  exact ⟨name, rest, rfl, isName, tail⟩

theorem Readable.unary {operator : Token} {operand : Expr} (h : Readable operand ts)
    (isOperator : operator.kind = .bang ∨ operator.kind = .minus) (tight : 9 ≤ operand.rank) :
    Readable (.unary operator operand) (operator :: ts) := by
  refine .ofLoose (.inr rfl) fun rest stops _ => ?_
  have closed := Expr.endsOpen_of_rank (le_trans (by decide) tight)
  refine reads_of_succ ((h.onRung tight le_rfl stops (by simp [closed])).mono fun d h => ?_)
  exact unary_gives.2 (.inl ⟨operator, ts ++ rest, operand, rfl, by simpa using isOperator, h, rfl⟩)

/-- An operation of a level grows from its left operand. -/
theorem Readable.node {level : Level} {left right : Expr} {operator : Token}
    (hl : Readable left ts) (hr : Readable right tl) (isOperator : operator.kind ∈ level.operators)
    (rank : (level.node left operator right).rank = level.rank) (looser : level.rank ≤ left.rank)
    (tighter : level.rank < right.rank) :
    Readable (level.node left operator right) (ts ++ operator :: tl) := by
  have := rank_le_eight level
  have grows {rest rest' : List Token} {e' : Expr} (stops : Stops (level.rank + 1) rest)
      (tail : Reads (operationTail · level (level.node left operator right)) rest e' rest') :
      Reads (operation · level) (ts ++ operator :: tl ++ rest) e' rest' := by
    have joined : Stops (level.rank + 1) (operator :: (tl ++ rest)) :=
      stops_cons (by simp [joins_operator isOperator])
    have closed := Expr.endsOpen_of_rank ((three_le_rank level).trans tighter.le)
    rw [List.append_assoc]
    refine hl.grows looser joined (reads_of_succ ?_)
    filter_upwards [operand_reads (hr.onRung tighter (by omega) stops (by simp [closed])), tail]
      with d second tail
    exact operationTail_gives.2 (.inr ⟨operator, tl ++ rest, right, rest, rfl, isOperator, second,
      tail⟩)
  refine .ofRung (by omega) (fun rest stops _ => ?_) fun level' same => ?_
  · rw [rank] at stops ⊢
    rw [rung_rank]
    exact grows (stops.mono (Nat.le_succ _)) (operationTail_reads stops)
  · obtain rfl : level' = level := by
      rw [rank] at same
      cases level' <;> cases level <;> simp_all [Level.rank]
    exact fun _ _ _ => grows

theorem Readable.conditional {condition consequent alternative : Expr} {question colon : Token}
    {tl' : List Token} (h : Readable condition ts) (h' : Readable consequent tl)
    (h'' : Readable alternative tl') (tight : 3 ≤ condition.rank)
    (isQuestion : question.kind = .question) (isColon : colon.kind = .colon) :
    Readable (.conditional condition consequent alternative)
      (ts ++ question :: (tl ++ colon :: tl')) := by
  refine .ofLoose (.inl (by simp [Expr.rank])) fun rest _ ends => ?_
  have closed := Expr.endsOpen_of_rank tight
  have first := h.onRung tight (by decide)
    (stops_cons (by simp [isQuestion, joins]) :
      Stops 3 (question :: (tl ++ colon :: (tl' ++ rest))))
    (by simp [closed])
  have stops : Stops 0 (colon :: (tl' ++ rest)) :=
    stops_cons (by simp [isColon, joins, Level.ofKind?])
  have second := h'.onRung (Nat.zero_le _) (by decide) stops fun _ => stops
  have third := h''.onRung (Nat.zero_le _) (by decide) (ends rfl) fun _ => ends rfl
  refine reads_of_succ ?_
  filter_upwards [first, second, third] with d first second third
  exact conditional_gives.2 ⟨condition, question :: (tl ++ colon :: (tl' ++ rest)),
    by simpa [rung] using first, .inr ⟨question, tl ++ colon :: (tl' ++ rest), consequent, colon,
      tl' ++ rest, alternative, rfl, isQuestion, second, isColon, third, rfl⟩⟩

/-- What is assigned to is read as an expression first. -/
theorem Readable.assigned {target value : Expr} {equals : Token} (h : Readable target ts)
    (h' : Readable value tl) (tight : 10 ≤ target.rank) (isEqual : equals.kind = .equal)
    (noComma : 0 < value.rank) (made : assignment? target value = some e) (rank : e.rank = 1)
    (same : e.endsOpen = value.endsOpen) : Readable e (ts ++ equals :: tl) := by
  refine .ofLoose (.inl (by omega)) fun rest stops ends => ?_
  rw [rank] at stops ⊢
  have closed := Expr.endsOpen_of_rank (le_trans (by decide) tight)
  have first := h.onRung (n := 2) (le_trans (by decide) tight) (by decide)
    (stops_cons (by simp [isEqual, joins]) : Stops 2 (equals :: (tl ++ rest))) (by simp [closed])
  have second := h'.onRung noComma (by decide) stops (same ▸ ends)
  refine reads_of_succ ?_
  filter_upwards [first, second] with d first second
  exact assignment_gives.2 ⟨target, equals :: (tl ++ rest), by simpa [rung] using first,
    .inr ⟨equals, tl ++ rest, value, rfl, isEqual, second, made⟩⟩

end TreeWalk.Grammar
