import TreeWalk.Proofs.Run.Blaming

/-!
# Which task breaks a rule

A run that breaks a rule of the language stops in one of its tasks, at a token of the node
that this task is about. The tasks on the way to it only hand on what they are told.

## Implementation notes

A task is taken apart by what it failed in: an operation of its own, or a task that it
started. As every task starts others with less fuel only, this comes to an end.
-/

namespace TreeWalk

open Eval

variable {m m' : Machine} {e : RuntimeError} {n : Nat}

/-- A visit stops for a broken rule. -/
def Visit.Raises (v : Visit) (e : RuntimeError) : Prop :=
  match v.task with
  | .evaluate expr => (evaluate v.fuel expr).Raises v.machine e
  | .evaluateEach items => (evaluateEach v.fuel items).Raises v.machine e
  | .apply callee arguments => (apply v.fuel callee arguments).Raises v.machine e
  | .enter closure arguments => (enter v.fuel closure arguments).Raises v.machine e
  | .execute s => (execute v.fuel s).Raises v.machine e
  | .executeEach body => (executeEach v.fuel body).Raises v.machine e

/-- A visit that is started stops for a broken rule. -/
def Visit.HandsOn (v : Visit) (e : RuntimeError) : Prop := ∃ v', Starts v v' ∧ v'.Raises e

/-- Where an expression breaks a rule. -/
theorem evaluate_raises {expr : Expr} (h : (evaluate (n + 1) expr).Raises m e) :
    .kept e.token ∈ expr.words ∨ Visit.HandsOn ⟨n + 1, .evaluate expr, m⟩ e := by
  cases expr with
  | literal =>
      rw [evaluate] at h
      cases pure_fails.1 h
  | «variable» reference | this reference =>
      rw [evaluate] at h
      left
      simpa [Expr.words] using readReference_blames reference m e h
  | assign reference value =>
      rw [evaluate] at h
      obtain inside | ⟨v, m₁, -, h⟩ := bind_fails.1 h
      · exact .inr ⟨_, .assigned, inside⟩
      · have own := Blames.bind (writeReference_blames reference v) (fun _ => .pure v) m₁ e h
        left
        simpa [Expr.words] using .inl (List.mem_singleton.1 own)
  | super reference method =>
      rw [evaluate] at h
      left
      simpa [Expr.words] using readSuper_blames reference method m e h
  | grouping inner =>
      rw [evaluate] at h
      exact .inr ⟨_, .grouping, h⟩
  | unary operator operand =>
      rw [evaluate] at h
      obtain inside | ⟨v, m₁, -, h⟩ := bind_fails.1 h
      · exact .inr ⟨_, .unary, inside⟩
      · left
        simp [Expr.words, Operators.unary_error (operate_raises h)]
  | binary left operator right =>
      rw [evaluate] at h
      obtain inside | ⟨v, m₁, run, h⟩ := bind_fails.1 h
      · exact .inr ⟨_, .binaryLeft, inside⟩
      obtain inside | ⟨w, m₂, -, h⟩ := bind_fails.1 h
      · exact .inr ⟨_, .binaryRight run, inside⟩
      · left
        simp [Expr.words, Operators.binary_error (operate_raises h)]
  | logical left operator right =>
      rw [evaluate] at h
      obtain inside | ⟨v, m₁, run, h⟩ := bind_fails.1 h
      · exact .inr ⟨_, .logicalLeft, inside⟩
      by_cases settled : (if operator.kind = .orWord then v.isTruthy else !v.isTruthy) = true
      · rw [if_pos settled] at h
        cases pure_fails.1 h
      · rw [if_neg settled] at h
        exact .inr ⟨_, .logicalRight run (Bool.eq_false_iff.2 settled), h⟩
  | conditional condition consequent alternative =>
      rw [evaluate] at h
      obtain inside | ⟨v, m₁, run, h⟩ := bind_fails.1 h
      · exact .inr ⟨_, .condition, inside⟩
      split at h
      next truthy => exact .inr ⟨_, .consequent run truthy, h⟩
      next falsy => exact .inr ⟨_, .alternative run (Bool.eq_false_iff.2 falsy), h⟩
  | comma items =>
      rw [evaluate] at h
      obtain inside | ⟨_, _, -, h⟩ := bind_fails.1 h
      · exact .inr ⟨_, .items, inside⟩
      · cases pure_fails.1 h
  | call callee paren arguments =>
      have own : .kept paren ∈ (Expr.call callee paren arguments).words := by simp [Expr.words]
      rw [evaluate] at h
      obtain inside | ⟨f, m₁, run, h⟩ := bind_fails.1 h
      · exact .inr ⟨_, .callee, inside⟩
      obtain refused | ⟨arity, m₂, takes, called⟩ := bind_fails.1 h
      · exact .inl (List.mem_singleton.1 (calleeArity_blames f paren m₁ e refused) ▸ own)
      obtain ⟨rfl, takes⟩ := calleeArity_of_gives takes
      by_cases many : arguments.length = arity
      · subst many
        rw [if_neg (not_not.2 rfl)] at called
        obtain inside | ⟨values, m₃, run', called⟩ := bind_fails.1 called
        · exact .inr ⟨_, .arguments run takes, inside⟩
        · exact .inr ⟨_, .called run takes run', called⟩
      · rw [if_pos many] at called
        cases throw_fails.1 called
        exact .inl own
  | get object name =>
      have own : .kept name ∈ (Expr.get object name).words := by simp [Expr.words]
      rw [evaluate] at h
      obtain inside | ⟨v, m₁, -, h⟩ := bind_fails.1 h
      · exact .inr ⟨_, .getObject, inside⟩
      split at h
      · exact .inl (List.mem_singleton.1 (readProperty_blames _ name m₁ e h) ▸ own)
      · cases throw_fails.1 h
        exact .inl own
  | set object name value =>
      have own : .kept name ∈ (Expr.set object name value).words := by simp [Expr.words]
      rw [evaluate] at h
      obtain inside | ⟨v, m₁, run, h⟩ := bind_fails.1 h
      · exact .inr ⟨_, .setObject, inside⟩
      split at h
      · obtain inside | ⟨w, m₂, -, h⟩ := bind_fails.1 h
        · exact .inr ⟨_, .setValue run, inside⟩
        · exact absurd h (Blames.bind (writeField_blames _ _ w) fun _ => .pure w).not_raises
      · cases throw_fails.1 h
        exact .inl own
  | lambda _ params body =>
      rw [evaluate] at h
      exact absurd h (closeOver_blames none params body).not_raises

/-- Where a row of expressions breaks a rule. -/
theorem evaluateEach_raises {items : List Expr} (h : (evaluateEach (n + 1) items).Raises m e) :
    Visit.HandsOn ⟨n + 1, .evaluateEach items, m⟩ e := by
  cases items with
  | nil =>
      rw [evaluateEach] at h
      cases pure_fails.1 h
  | cons item rest =>
      rw [evaluateEach] at h
      obtain inside | ⟨v, m₁, run, h⟩ := bind_fails.1 h
      · exact ⟨_, .item, inside⟩
      obtain inside | ⟨_, _, -, h⟩ := bind_fails.1 h
      · exact ⟨_, .otherItems run, inside⟩
      · cases pure_fails.1 h

/-- Where a call breaks a rule. -/
theorem apply_raises {callee : Value} {arguments : List Value}
    (h : (apply (n + 1) callee arguments).Raises m e) :
    Visit.HandsOn ⟨n + 1, .apply callee arguments, m⟩ e := by
  cases callee with
  | closure id =>
      rw [apply] at h
      obtain ⟨closure, m₁, run, entered⟩ := (closureOf_blames id).next h
      obtain ⟨rfl, found⟩ := closureOf_of_gives run
      exact ⟨_, .closure found, entered⟩
  | classRef id =>
      rw [apply] at h
      obtain ⟨object, m₁, made, rest⟩ := (newObject_blames id).next h
      obtain ⟨initializer, m₂, found, rest⟩ := (findMethod_blames id "init").next rest
      obtain ⟨found, rfl⟩ := inspect_gives.1 found
      cases initializer with
      | none => cases pure_fails.1 rest
      | some method =>
          obtain ⟨bound, m₃, binds, rest⟩ := (bind_blames method (.object object)).next rest
          obtain ⟨closure, m₄, run, entered⟩ := (closureOf_blames bound).next rest
          obtain ⟨rfl, isBound⟩ := closureOf_of_gives run
          obtain inside | ⟨_, _, -, ended⟩ := bind_fails.1 entered
          · exact ⟨_, .initializer made (Except.ok.inj found) binds isBound, inside⟩
          · cases pure_fails.1 ended
  | clock =>
      rw [apply] at h
      exact absurd h readClock_blames.not_raises
  | scalar | object =>
      rw [apply] at h
      cases throw_fails.1 h

/-- Where a body breaks a rule. -/
theorem enter_raises {closure : Closure} {arguments : List Value}
    (h : (enter (n + 1) closure arguments).Raises m e) :
    Visit.HandsOn ⟨n + 1, .enter closure arguments, m⟩ e := by
  rw [enter] at h
  obtain ⟨outer, m₁, first, h⟩ := (newFrame_blames closure.frame).next h
  obtain ⟨_, m₂, second, h⟩ := (defineEach_blames outer closure.params arguments).next h
  obtain ⟨inner, m₃, third, h⟩ := (newFrame_blames outer).next h
  obtain inside | ⟨completion, m₄, -, h⟩ := bind_fails.1 h
  · exact ⟨_, .body first second third, inFrame_fails.1 inside⟩
  split at h
  · exact absurd h (thisOf_blames closure.frame).not_raises
  · cases pure_fails.1 h

/-- Where a statement breaks a rule. -/
theorem execute_raises {s : Stmt} (h : (execute (n + 1) s).Raises m e) :
    .kept e.token ∈ s.words ∨ Visit.HandsOn ⟨n + 1, .execute s, m⟩ e := by
  rcases s with value | value | ⟨name, _ | initial⟩ | body |
    ⟨condition, consequent, _ | alternative⟩ | ⟨condition, body⟩ | function |
    ⟨name, parent, methods⟩ | ⟨keyword, _ | value⟩
  case expression =>
    rw [execute] at h
    obtain inside | ⟨_, _, -, h⟩ := bind_fails.1 h
    · exact .inr ⟨_, .value, inside⟩
    · cases pure_fails.1 h
  case print =>
    rw [execute] at h
    obtain inside | ⟨v, m₁, -, h⟩ := bind_fails.1 h
    · exact .inr ⟨_, .printed, inside⟩
    · exact absurd h (Blames.bind .get fun _ => .bind (print_blames _) fun _ => .pure _).not_raises
  case varDecl.none =>
    rw [execute] at h
    exact absurd h (Blames.bind (defineHere_blames _ _) fun _ => .pure _).not_raises
  case varDecl.some =>
    rw [execute] at h
    obtain inside | ⟨v, m₁, -, h⟩ := bind_fails.1 h
    · exact .inr ⟨_, .initial, inside⟩
    · exact absurd h (Blames.bind (defineHere_blames _ _) fun _ => .pure _).not_raises
  case block =>
    rw [execute] at h
    obtain ⟨frame, m₁, made, h⟩ := (newFrame_blames m.current).next (get_bind_fails.1 h)
    exact .inr ⟨_, .block made, inFrame_fails.1 h⟩
  case branch.none =>
    rw [execute] at h
    obtain inside | ⟨v, m₁, run, h⟩ := bind_fails.1 h
    · exact .inr ⟨_, .branchCondition, inside⟩
    split at h
    next truthy => exact .inr ⟨_, .branchConsequent run truthy, h⟩
    next => cases pure_fails.1 h
  case branch.some =>
    rw [execute] at h
    obtain inside | ⟨v, m₁, run, h⟩ := bind_fails.1 h
    · exact .inr ⟨_, .branchCondition, inside⟩
    split at h
    next truthy => exact .inr ⟨_, .branchConsequent run truthy, h⟩
    next falsy => exact .inr ⟨_, .branchAlternative run (Bool.eq_false_iff.2 falsy), h⟩
  case loop =>
    rw [execute] at h
    obtain inside | ⟨v, m₁, run, h⟩ := bind_fails.1 h
    · exact .inr ⟨_, .loopCondition, inside⟩
    split at h
    next truthy =>
      obtain inside | ⟨completion, m₂, run', h⟩ := bind_fails.1 h
      · exact .inr ⟨_, .loopBody run truthy, inside⟩
      cases completion with
      | normal => exact .inr ⟨_, .loopAgain run truthy run', h⟩
      | returned => cases pure_fails.1 h
    next => cases pure_fails.1 h
  case functionDecl =>
    rw [execute] at h
    exact absurd h (Blames.bind (closeOver_blames _ _ _) fun _ =>
      .bind (defineHere_blames _ _) fun _ => .pure _).not_raises
  case classDecl =>
    rw [execute] at h
    have own := Blames.bind (declareClass_blames name parent methods) (fun _ => .pure _) m e h
    left
    cases parent with
    | none => simp_all [Stmt.words]
    | some reference =>
        obtain same | same : e.token = name ∨ e.token = reference.name := by simpa using own
        all_goals simp [Stmt.words, same]
  case returns.none =>
    rw [execute] at h
    cases pure_fails.1 h
  case returns.some =>
    rw [execute] at h
    obtain inside | ⟨_, _, -, h⟩ := bind_fails.1 h
    · exact .inr ⟨_, .returned, inside⟩
    · cases pure_fails.1 h

/-- Where a row of statements breaks a rule. -/
theorem executeEach_raises {body : List Stmt} (h : (executeEach (n + 1) body).Raises m e) :
    Visit.HandsOn ⟨n + 1, .executeEach body, m⟩ e := by
  cases body with
  | nil =>
      rw [executeEach] at h
      cases pure_fails.1 h
  | cons s rest =>
      rw [executeEach] at h
      obtain inside | ⟨completion, m₁, run, h⟩ := bind_fails.1 h
      · exact ⟨_, .statement, inside⟩
      cases completion with
      | normal => exact ⟨_, .otherStatements run, h⟩
      | returned => cases pure_fails.1 h

variable {v v' : Visit}

/-- A token is a word of the node that a visit is about. -/
def Visit.Names (v : Visit) (t : Token) : Prop :=
  ∃ node, v.task.node? = some node ∧ .kept t ∈ node.words

/-- A visit that breaks a rule does so at a word of its node, or it hands it on. -/
theorem Visit.Raises.names_or_handsOn (h : v.Raises e) : v.Names e.token ∨ v.HandsOn e := by
  obtain ⟨_ | n, task, m⟩ := v
  · -- without fuel a task stops for the lack of it
    cases task <;> cases throw_fails.1 h
  cases task with
  | evaluate => exact (evaluate_raises h).imp_left fun own => ⟨_, rfl, own⟩
  | execute => exact (execute_raises h).imp_left fun own => ⟨_, rfl, own⟩
  | evaluateEach => exact .inr (evaluateEach_raises h)
  | apply => exact .inr (apply_raises h)
  | enter => exact .inr (enter_raises h)
  | executeEach => exact .inr (executeEach_raises h)

/-- Behind every broken rule there is a visit that breaks it at a word of its own node. -/
theorem Visit.Raises.exists_names (h : v.Raises e) :
    ∃ v', Relation.ReflTransGen Starts v v' ∧ v'.Raises e ∧ v'.Names e.token := by
  induction fuel : v.fuel generalizing v with
  | zero =>
      obtain own | ⟨v', starts, -⟩ := h.names_or_handsOn
      · exact ⟨v, .refl, h, own⟩
      · cases fuel.symm.trans starts.fuel
  | succ n ih =>
      obtain own | ⟨v', starts, raises⟩ := h.names_or_handsOn
      · exact ⟨v, .refl, h, own⟩
      · obtain ⟨v'', walks, culprit⟩ := ih raises (by have := starts.fuel; omega)
        exact ⟨v'', .head starts walks, culprit⟩

theorem interpret_raises {fuel : Nat} {body : List Stmt} (h : (interpret fuel body).Raises m e) :
    ∃ s mid, ComesTo fuel body m s mid ∧ (execute fuel s).Raises mid e := by
  induction body generalizing m with
  | nil => cases pure_fails.1 h
  | cons s rest ih =>
      rw [interpret_cons] at h
      obtain first | ⟨completion, m₁, run, others⟩ := bind_fails.1 h
      · exact ⟨s, m, comesTo_cons.2 (.inl ⟨rfl, rfl⟩), first⟩
      · obtain ⟨t, mid, comes, raises⟩ := ih others
        exact ⟨t, mid, comesTo_cons.2 (.inr ⟨completion, m₁, run, comes⟩), raises⟩

/-- A program that is run some times over breaks a rule in one of these rounds. -/
theorem interpretTimes_raises {fuel times : Nat} {program : List Stmt}
    (h : (Session.interpretTimes fuel program times).Raises m e) :
    ∃ round mid, round < times ∧ (Session.interpretTimes fuel program round).Gives m () mid ∧
      (interpret fuel program).Raises mid e := by
  induction times generalizing m with
  | zero => cases pure_fails.1 h
  | succ times ih =>
      obtain first | ⟨_, m₁, run, others⟩ := bind_fails.1 h
      · exact ⟨0, m, times.succ_pos, rfl, first⟩
      · obtain ⟨round, mid, inside, rounds, raises⟩ := ih others
        exact ⟨round + 1, mid, Nat.succ_lt_succ inside, bind_gives.2 ⟨(), m₁, run, rounds⟩, raises⟩

end TreeWalk
