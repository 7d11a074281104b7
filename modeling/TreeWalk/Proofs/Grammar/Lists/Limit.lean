import TreeWalk.Proofs.Grammar.Lists.Courses

/-!
# The limit on the items of a list

A list may have 255 items. One with more is read to its closing parenthesis before the first
item too many is told of. So whatever else is wrong with a list is told of first, also behind
that item, and also a list inside an item that has too many items itself.
-/

namespace TreeWalk.Grammar

variable {α β : Type} {ts mid rest : List Token} {t keyword opening : Token} {halt : Halt}
  {callee : Expr}

/-- An argument that begins with a function or a call whose own list has too many items, or with
a call that has such an argument. -/
inductive InnerLimit : List Token → GrammarError → List Token → Prop
  | function {keyword opening mid items paren rest} (isFun : keyword.kind = .funWord)
      (opens : opening.kind = .leftParen)
      (closed : Closed (fun _ => require .parameterName) mid items paren rest)
      (many : 255 < items.length) :
      InnerLimit (keyword :: opening :: mid) ⟨.tooMany .parameters, items[255].1⟩ rest
  | call {ts callee opening mid items paren rest}
      (first : Outcome primary ts (.ok callee) (opening :: mid))
      (opens : opening.kind = .leftParen) (closed : Closed assignment mid items paren rest)
      (many : 255 < items.length) : InnerLimit ts ⟨.tooMany .arguments, items[255].1⟩ rest
  | argument {ts callee opening mid leading mid' e rest}
      (first : Outcome primary ts (.ok callee) (opening :: mid))
      (opens : opening.kind = .leftParen) (begun : Begun mid)
      (front : Leading assignment mid leading mid') (inner : InnerLimit mid' e rest) :
      InnerLimit ts e rest

/-- A production that begins with another one fails with it. -/
theorem Outcome.fails_with {part : Nat → Reader α} {whole : Nat → Reader β}
    {f : Nat → α → Reader β} {k c : Nat} (fails : Outcome part ts (.error halt) rest)
    (settles : ∀ d, Settles d k c (part d) (part (d + 1))) (small : k ≤ 23)
    (begins : ∀ d, whole (d + 1) = part d >>= f d) : Outcome whole ts (.error halt) rest := by
  intro d deep
  obtain ⟨n, rfl, enough⟩ := exists_depth deep
  rw [begins, read_bind, fails.read_eq settles (Nat.le_trans (by omega) enough)]

theorem operation_fails (fails : Outcome unary ts (.error halt) rest) (level : Level) :
    Outcome (operation · level) ts (.error halt) rest := by
  have atLevel (level) (fails : Outcome (operand · level) ts (.error halt) rest) :
      Outcome (operation · level) ts (.error halt) rest :=
    fails.fails_with (fun d => (settled d).operand level)
      (Nat.le_trans (steps_le level) (by decide)) fun d => by rw [operation]
  have looser (level tighter) (next : level.tighter = some tighter)
      (fails : Outcome (operation · tighter) ts (.error halt) rest) :
      Outcome (operation · level) ts (.error halt) rest := by
    refine atLevel level (fails.fails_with (f := fun _ => pure)
      (fun d => (settled d).operation tighter) ?_ fun d => ?_)
    · exact Nat.succ_le_succ (Nat.le_trans (steps_le tighter) (by decide))
    · rw [operand, next, bind_pure]
  have factor := atLevel .factor (fails.fails_with (f := fun _ => pure)
    (fun d => (settled d).unary) (by decide) fun d => by rw [bind_pure, operand]; rfl)
  have term := looser .term .factor rfl factor
  have comparison := looser .comparison .term rfl term
  have equality := looser .equality .comparison rfl comparison
  have and := looser .and .equality rfl equality
  have or := looser .or .and rfl and
  cases level <;> assumption

theorem assignment_fails (fails : Outcome unary ts (.error halt) rest) :
    Outcome assignment ts (.error halt) rest := by
  have conditional : Outcome conditional ts (.error halt) rest :=
    (operation_fails fails .or).fails_with (fun d => (settled d).operation .or) (by decide)
      fun d => by rw [conditional]
  exact conditional.fails_with (fun d => (settled d).conditional) (by decide)
    fun d => by rw [assignment]

/-- No operator stands before what begins with a primary expression. -/
theorem Outcome.noOperator (first : Outcome primary ts (.ok callee) rest) :
    NextNot [.bang, .minus] ts := by
  obtain ⟨n, same, -⟩ := exists_depth (le_refl (descent ts))
  have gives := read_eq_ok.1 (first _ le_rfl)
  rw [same] at gives
  obtain ⟨t, tl, rfl, made⟩ := primary_gives.1 gives
  refine nextNot_cons.2 fun isOperator => ?_
  obtain is | is : t.kind = .bang ∨ t.kind = .minus := by simpa using isOperator
  all_goals simp [is] at made

theorem assignment_fails_called (noOperator : NextNot [.bang, .minus] ts)
    (fails : ∀ n, 24 * ts.length + 22 ≤ n →
      (primary n >>= callTail n).read ts = (.error halt, rest)) :
    Outcome assignment ts (.error halt) rest := by
  refine assignment_fails fun d deep => ?_
  obtain ⟨n, rfl, enough⟩ := exists_depth deep
  rw [unary, read_acceptAny_bind_other noOperator]
  exact fails n (Nat.le_of_succ_le enough)

theorem function_fails (isFun : keyword.kind = .funWord) (opens : opening.kind = .leftParen)
    (fails : Outcome parameters mid (.error halt) rest) :
    Outcome assignment (keyword :: opening :: mid) (.error halt) rest := by
  refine assignment_fails_called (nextNot_cons.2 (by simp [isFun])) fun n enough => ?_
  obtain ⟨m, rfl, left⟩ : ∃ m, n = m + 1 ∧ descent mid ≤ m := by
    simp only [List.length_cons] at enough
    exact ⟨n - 1, by omega, by unfold descent; omega⟩
  rw [read_bind, primary, read_peek_bind]
  simp only [isFun]
  rw [read_advance_bind, read_require_bind opens, read_bind, fails m left]

theorem call_fails (first : Outcome primary ts (.ok callee) (opening :: mid))
    (opens : opening.kind = .leftParen)
    (fails : Outcome (finishCall · callee) mid (.error halt) rest) :
    Outcome assignment ts (.error halt) rest := by
  have completes := ((settled (descent ts)).primary ts (by unfold descent; omega)).2
  have gives : primary (descent ts) ts = .ok callee (opening :: mid) :=
    read_eq_ok.1 (first _ le_rfl)
  rw [gives] at completes
  have shorter : mid.length + 2 ≤ ts.length := completes
  refine assignment_fails_called first.noOperator fun n enough => ?_
  -- the list is read two steps deeper, and two tokens are taken before it
  obtain ⟨m, rfl, left⟩ : ∃ m, n = m + 1 ∧ descent mid ≤ m :=
    ⟨n - 1, by omega, by unfold descent; omega⟩
  rw [read_bind, first.read_eq (fun d => (settled d).primary) (Nat.le_trans (by omega) enough)]
  show (callTail (m + 1) callee).read (opening :: mid) = _
  unfold Reader.read
  rw [callTail_finishCall opens left]
  show (finishCall (descent mid) callee >>= callTail m).read mid = _
  rw [read_bind, fails _ le_rfl]

theorem InnerLimit.fails {e : GrammarError} (inner : InnerLimit ts e rest) :
    Outcome assignment ts (.error (.error e)) rest := by
  induction inner with
  | function isFun opens closed many =>
    exact function_fails isFun opens ((parameters_defersLimit _).refuses closed many)
  | call first opens closed many =>
    exact call_fails first opens ((finishCall_defersLimit _ _).refuses closed many)
  | argument first opens begun front _ ih =>
    exact call_fails first opens ((finishCall_defersLimit _ _).reports (.inItem begun front ih))

/-- Lists of parameters and of arguments are accepted with up to 255 items. Of more items the
first one too many is told of, and reading has come behind the closing parenthesis. Whatever is
malformed is told of instead, such as a list inside an argument that has too many items itself.
The arguments of a call are such a list behind the opening parenthesis. -/
theorem limit_waits_for_the_list (callee : Expr) (ts : List Token) :
    DefersLimit (fun _ => require .parameterName) .parenAfterParameters .parameters parameters
        (fun items _ => items.map Prod.snd) ts ∧
      DefersLimit assignment .parenAfterArguments .arguments (finishCall · callee)
        (fun items paren => .call callee paren (items.map Prod.snd)) ts ∧
      (∀ leading mid e rest, Begun ts → Leading assignment ts leading mid →
        InnerLimit mid e rest → Outcome (finishCall · callee) ts (.error (.error e)) rest) ∧
      (∀ opening d, opening.kind = .leftParen → descent ts ≤ d →
        callTail (d + 1) callee (opening :: ts) =
          (finishCall (descent ts) callee >>= callTail d) ts) ∧
      (GrammarCause.tooMany .parameters).message = "Can't have more than 255 parameters." ∧
      (GrammarCause.tooMany .arguments).message = "Can't have more than 255 arguments." := by
  have arguments := finishCall_defersLimit callee ts
  refine ⟨parameters_defersLimit ts, arguments, ?_, ?_, by decide, by decide⟩
  · intro leading mid e rest begun front inner
    exact arguments.reports (.inItem begun front inner.fails)
  · intro opening d opens deep
    exact callTail_finishCall opens deep

namespace ManyNames

theorem name_outcome (isName : t.kind = .identifier) :
    Outcome (fun _ => require .parameterName) (t :: ts) (.ok t) ts :=
  fun _ _ => read_eq_ok.2 (require_gives.2 ⟨rfl, isName⟩)

theorem leading_of_names {names : List Token} {comma : Token}
    (areNames : ∀ name ∈ names, name.kind = .identifier) (isComma : comma.kind = .comma) :
    Leading (fun _ => require .parameterName) (names.flatMap (fun name => [name, comma]) ++ rest)
      (names.map fun name => (name, name)) rest := by
  induction names with
  | nil => exact .nil
  | cons name names ih =>
    obtain ⟨isName, areNames⟩ := List.forall_mem_cons.1 areNames
    exact .cons (name_outcome isName) isComma (ih areNames)

/-- A name on a line. -/
def name (line : Nat) : Token := ⟨.identifier, "a", .nil, line⟩

def comma : Token := ⟨.comma, ",", .nil, 1⟩

def close : Token := ⟨.rightParen, ")", .nil, 1⟩

/-- The names on the first 255 lines. -/
def names : List Token := (List.range 255).map name

/-- `a, ..., a)` with 256 names, each on its own line. -/
def row : List Token := names.flatMap (fun name => [name, comma]) ++ [name 255, close]

theorem closed :
    Closed (fun _ => require .parameterName) row
      (names.map (fun name => (name, name)) ++ [(name 255, name 255)]) close [] := by
  have areNames : ∀ name ∈ names, name.kind = .identifier := by
    simp [names, ManyNames.name]
  refine .items ?_ (leading_of_names areNames rfl) (name_outcome rfl) rfl
  intro t first
  obtain rfl : name 0 = t := Option.some.inj first
  decide

/-- The last of the names is told of when the parenthesis behind it has been read. -/
theorem limit_waits_for_the_list_names :
    Closed (fun _ => require .parameterName) row
        (names.map (fun name => (name, name)) ++ [(name 255, name 255)]) close [] ∧
      Outcome parameters row (.error (.error ⟨.tooMany .parameters, name 255⟩)) [] := by
  have many : 255 < (names.map (fun name => (name, name)) ++ [(name 255, name 255)]).length := by
    simp [names]
  have refused := (limit_waits_for_the_list (.literal .nil) row).1.refuses closed many
  have last : (names.map (fun name => (name, name)) ++ [(name 255, name 255)])[255] =
      (name 255, name 255) := by
    simp [names]
  rw [last] at refused
  exact ⟨closed, refused⟩

end ManyNames

end TreeWalk.Grammar
