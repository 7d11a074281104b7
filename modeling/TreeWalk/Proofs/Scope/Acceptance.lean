import TreeWalk.Proofs.Run.Sessions
import TreeWalk.Proofs.Scope.Bodies

/-!
# The scope rules accept the well-scoped programs

The walk of the scope rules gets through a program exactly if nothing in the program
violates a rule where it stands, and if it stops, then for a violation that is there.
-/

namespace TreeWalk

open Resolve Surroundings

variable {place place' : Surroundings} {Γ : Setting} {e : ScopeError}

theorem Resolved.obeys {o o' : Occurrence} {params : List Token} {body : List Stmt}
    (h : Resolved o o') (opened : o.node.opened? = some (params, body)) :
    Obeys (o.setting.inside o.node (.stmts body)) params body := by
  obtain ⟨node, Γ⟩ := o
  obtain ⟨node', Γ'⟩ := o'
  obtain ⟨-, place, place', at', made⟩ := h
  dsimp only at *
  cases made with
  | @expr e _ _ _ gives =>
      have parts := Expr.resolve_gives.1 gives
      cases e <;> cases opened
      obtain ⟨_, walk, rfl⟩ := parts
      exact routine_obeys nofun walk fun bound => at'.walks (.lambdaBody bound)
  | @exprs => cases opened
  | @stmt s _ _ _ gives =>
      have parts := Stmt.resolve_gives.1 gives
      rcases s with _ | _ | _ | body | _ | _ | ⟨⟨_, _, _⟩⟩ | _ | _ <;> cases opened
      case block.refl =>
        obtain ⟨_, _, walk, check, -⟩ := parts
        exact block_obeys (at'.walks .block) walk check
      case functionDecl.refl =>
        obtain ⟨_, _, declares, walk, -⟩ := parts
        exact routine_obeys nofun walk fun bound => at'.walks (.functionBody declares bound)
  | @stmts => cases opened
  | @methods members _ _ _ gives =>
      have parts := FunctionDecl.resolveEach_gives.1 gives
      rcases members with _ | ⟨⟨_, _, _⟩, _⟩ <;> cases opened
      obtain ⟨_, _, _, walk, -⟩ := parts
      exact routine_obeys (methodContext_ne_outside _) walk fun bound =>
        at'.walks (.methodBody bound)

/-- The walk over a statement that is got through. -/
theorem Resolved.walk {s : Stmt} {o' : Occurrence} (h : Resolved ⟨.stmt s, Γ⟩ o') :
    ∃ place s' place', Occurrence.At ⟨.stmt s, Γ⟩ place ∧ s.resolve.Gives place s' place' := by
  obtain ⟨node', Γ'⟩ := o'
  obtain ⟨-, place, place', at', made⟩ := h
  cases made with
  | stmt gives => exact ⟨place, _, place', at', gives⟩

/-- The walk over an expression that is got through. -/
theorem Resolved.walkExpr {expr : Expr} {o' : Occurrence} (h : Resolved ⟨.expr expr, Γ⟩ o') :
    ∃ place expr' place', Occurrence.At ⟨.expr expr, Γ⟩ place ∧
      expr.resolve.Gives place expr' place' := by
  obtain ⟨node', Γ'⟩ := o'
  obtain ⟨-, place, place', at', made⟩ := h
  cases made with
  | expr gives => exact ⟨place, _, place', at', gives⟩

/-- A statement declares a name that is not there yet. -/
theorem declares_fresh {s s' : Stmt} {name : Token} {names : List String}
    {outer : List (List String)} (agrees : Γ.Agrees place) (layered : s.Layered)
    (walk : s.resolve.Gives place s' place') (declared : s.declared? = some name)
    (cut : Γ.scopes = names :: outer) : name.lexeme ∉ names := by
  have after := Stmt.resolve_after layered walk
  rw [declared] at after
  have binds := after.binds
  have scopes := agrees.scopes
  rw [cut] at scopes
  obtain ⟨v, views, same, -, isViews⟩ := List.forall₂_cons_left_iff.1 scopes
  rw [isViews] at binds
  rw [← same, binds.1]
  simp

/-- A return that the walk gets through is checked. -/
theorem checkReturn_of_gives {s' : Stmt} {keyword : Token} {value : Option Expr}
    (walk : (Stmt.returns keyword value).resolve.Gives place s' place') :
    ¬(checkReturn keyword value.isSome).Fails place e := by
  have parts := Stmt.resolve_gives.1 walk
  cases value with
  | none => exact not_fails_of_gives parts.1
  | some value =>
      obtain ⟨_, _, check, -⟩ := parts
      exact not_fails_of_gives check

/-- The walk stops at a variable exactly if it belongs to its own initial value. -/
theorem Setting.Agrees.readVariable_fails {reference : Reference} (agrees : Γ.Agrees place) :
    (readVariable reference).Fails place e ↔ e = ⟨.readInOwnInitializer, reference.name⟩ ∧
      Γ.initializing = some reference.name.lexeme := by
  rw [Resolve.readVariable_fails, ← agrees.unready, views, List.head?_map]
  cases place.scopes.head? with
  | none => simp
  | some scope =>
      have ready (b : Binding) : b.read.isReady = b.isReady := by cases b <;> rfl
      simp [Scope.view, ready]

/-- What the walk gets through violates no rule. -/
theorem Resolved.not_violates {o o' : Occurrence} (h : Resolved o o') : ¬Violates o e := by
  intro violates
  cases violates with
  | repeatedParameter opened again => exact (h.obeys opened).parametersDiffer _ again
  | neverUsed opened same inside declared unused =>
      subst same
      exact unused ((h.obeys opened).used inside _ declared)
  | conflictsWithParameter opened declared isParam alike =>
      exact (h.obeys opened).differs _ declared _ isParam alike
  | returnAtTopLevel outside =>
      obtain ⟨place, _, _, at', walk⟩ := h.walk
      exact checkReturn_of_gives walk (checkReturn_fails.2
        (.inl ⟨at'.agrees.functionContext.trans outside, rfl⟩))
  | valueFromInitializer inside =>
      obtain ⟨place, _, _, at', walk⟩ := h.walk
      exact checkReturn_of_gives walk (checkReturn_fails.2
        (.inr ⟨rfl, at'.agrees.functionContext.trans inside, rfl⟩))
  | thisOutsideClass outside =>
      obtain ⟨place, _, _, at', walk⟩ := h.walkExpr
      obtain ⟨_, inside, -⟩ := Expr.resolve_gives.1 walk
      exact inside (at'.agrees.classContext.trans outside)
  | superOutsideClass outside =>
      obtain ⟨place, _, _, at', walk⟩ := h.walkExpr
      obtain ⟨_, derived, -⟩ := Expr.resolve_gives.1 walk
      cases derived.symm.trans (at'.agrees.classContext.trans outside)
  | superWithoutSuperclass base =>
      obtain ⟨place, _, _, at', walk⟩ := h.walkExpr
      obtain ⟨_, derived, -⟩ := Expr.resolve_gives.1 walk
      cases derived.symm.trans (at'.agrees.classContext.trans base)
  | inheritsFromItself same =>
      obtain ⟨place, _, _, at', walk⟩ := h.walk
      obtain ⟨_, _, _, _, _, -, parents, -⟩ := Stmt.resolve_gives.1 walk
      exact (superclass_gives.1 parents).1 same
  | redeclared declared cut among =>
      obtain ⟨place, _, _, at', walk⟩ := h.walk
      exact declares_fresh at'.agrees (at'.sane id).layered walk declared cut among
  | readInOwnInitializer initializing =>
      obtain ⟨place, _, _, at', walk⟩ := h.walkExpr
      obtain ⟨_, read, -⟩ := Expr.resolve_gives.1 walk
      exact not_fails_of_gives read (at'.agrees.readVariable_fails.2 ⟨rfl, initializing⟩)

/-- A declaration at which the walk stops repeats a name of its scope. -/
theorem Setting.Agrees.redeclared {s : Stmt} {name : Token} (agrees : Γ.Agrees place)
    (declared : s.declared? = some name) (stops : (Resolve.declare name).Fails place e) :
    Stopped ⟨.stmt s, Γ⟩ e := by
  obtain ⟨rfl, scope, isHead, contains⟩ := declare_fails.1 stops
  have scopes := agrees.scopes
  cases cut : place.views with
  | nil =>
      rw [views, List.map_eq_nil_iff] at cut
      rw [cut] at isHead
      cases isHead
  | cons v outer =>
      rw [cut] at scopes
      obtain ⟨names, others, same, -, split⟩ := List.forall₂_cons_right_iff.1 scopes
      rw [← Scope.isSome_view, ← view_of_head isHead cut, same] at contains
      exact .inl (.redeclared declared split contains)

/-- If the walk over an expression stops, it violates a rule or the walk stops at a part. -/
theorem Occurrence.At.stopped_expr {expr : Expr} (h : At ⟨.expr expr, Γ⟩ place)
    (fails : expr.resolve.Fails place e) : Stopped ⟨.expr expr, Γ⟩ e := by
  have parts := Expr.resolve_fails.1 fails
  cases expr with
  | literal => exact parts.elim
  | «variable» =>
      obtain ⟨rfl, initializing⟩ := h.agrees.readVariable_fails.1 parts
      exact .inl (.readInOwnInitializer initializing)
  | assign => exact .inr ⟨_, .head _, _, h.walks .assignValue, .expr parts⟩
  | this =>
      obtain ⟨outside, rfl⟩ := checkThis_fails.1 parts
      exact .inl (.thisOutsideClass (h.agrees.classContext.symm.trans outside))
  | super =>
      obtain ⟨outside, rfl⟩ | ⟨base, rfl⟩ := checkSuper_fails.1 parts
      · exact .inl (.superOutsideClass (h.agrees.classContext.symm.trans outside))
      · exact .inl (.superWithoutSuperclass (h.agrees.classContext.symm.trans base))
  | grouping => exact .inr ⟨_, .head _, _, h.walks .grouping, .expr parts⟩
  | unary => exact .inr ⟨_, .head _, _, h.walks .unary, .expr parts⟩
  | binary =>
      obtain first | ⟨_, _, walk, second⟩ := parts
      · exact .inr ⟨_, .head _, _, h.walks .binaryLeft, .expr first⟩
      · exact .inr ⟨_, .tail _ (.head _), _, h.walks (.binaryRight walk), .expr second⟩
  | logical =>
      obtain first | ⟨_, _, walk, second⟩ := parts
      · exact .inr ⟨_, .head _, _, h.walks .logicalLeft, .expr first⟩
      · exact .inr ⟨_, .tail _ (.head _), _, h.walks (.logicalRight walk), .expr second⟩
  | conditional =>
      obtain first | ⟨_, _, walk, second | ⟨_, _, walk', third⟩⟩ := parts
      · exact .inr ⟨_, .head _, _, h.walks .condition, .expr first⟩
      · exact .inr ⟨_, .tail _ (.head _), _, h.walks (.consequent walk), .expr second⟩
      · exact .inr ⟨_, .tail _ (.tail _ (.head _)), _, h.walks (.alternative walk walk'),
          .expr third⟩
  | comma => exact .inr ⟨_, .head _, _, h.walks .items, .exprs parts⟩
  | call =>
      obtain first | ⟨_, _, walk, second⟩ := parts
      · exact .inr ⟨_, .head _, _, h.walks .callee, .expr first⟩
      · exact .inr ⟨_, .tail _ (.head _), _, h.walks (.arguments walk), .exprs second⟩
  | get => exact .inr ⟨_, .head _, _, h.walks .getObject, .expr parts⟩
  | set =>
      obtain first | ⟨_, _, walk, second⟩ := parts
      · exact .inr ⟨_, .head _, _, h.walks .setValue, .expr first⟩
      · exact .inr ⟨_, .tail _ (.head _), _, h.walks (.setObject walk), .expr second⟩
  | lambda =>
      exact routine_stops parts nofun rfl rfl (.head _) fun bound =>
        h.walks (.lambdaBody bound)

/-- If the walk over a statement stops, it violates a rule or the walk stops at a part. -/
theorem Occurrence.At.stopped_stmt {s : Stmt} (h : At ⟨.stmt s, Γ⟩ place)
    (fails : s.resolve.Fails place e) : Stopped ⟨.stmt s, Γ⟩ e := by
  have parts := Stmt.resolve_fails.1 fails
  rcases s with _ | _ | ⟨_, _ | _⟩ | _ | ⟨_, _, alternative⟩ | _ | ⟨⟨_, _, _⟩⟩ |
    ⟨_, parent, _⟩ | ⟨_, value⟩
  case expression => exact .inr ⟨_, .head _, _, h.walks .value, .expr parts⟩
  case print => exact .inr ⟨_, .head _, _, h.walks .printed, .expr parts⟩
  case varDecl.none => exact h.agrees.redeclared rfl parts
  case varDecl.some =>
    obtain again | ⟨_, declares, initial⟩ := parts
    · exact h.agrees.redeclared rfl again
    · exact .inr ⟨_, .head _, _, h.walks (.initial declares), .expr initial⟩
  case block =>
    obtain body | ⟨_, _, walk, check⟩ := parts
    · exact .inr ⟨_, .head _, _, h.walks .block, .stmts body⟩
    · exact .inl (block_stops (h.walks .block) walk check)
  case branch =>
    obtain first | ⟨_, _, walk, second | ⟨other, rfl, _, _, walk', third⟩⟩ := parts
    · cases alternative <;> exact .inr ⟨_, .head _, _, h.walks .branchCondition, .expr first⟩
    · cases alternative <;>
        exact .inr ⟨_, .tail _ (.head _), _, h.walks (.branchConsequent walk), .stmt second⟩
    · exact .inr ⟨_, .tail _ (.tail _ (.head _)), _,
        h.walks (.branchAlternative walk walk'), .stmt third⟩
  case loop =>
    obtain first | ⟨_, _, walk, second⟩ := parts
    · exact .inr ⟨_, .head _, _, h.walks .loopCondition, .expr first⟩
    · exact .inr ⟨_, .tail _ (.head _), _, h.walks (.loopBody walk), .stmt second⟩
  case functionDecl =>
    obtain again | ⟨_, declares, routine⟩ := parts
    · exact h.agrees.redeclared rfl again
    · exact routine_stops routine nofun rfl rfl (.head _) fun bound =>
        h.walks (.functionBody declares bound)
  case classDecl =>
    obtain again | ⟨_, declares, self | ⟨_, _, parents, members⟩⟩ := parts
    · have again := declare_fails.1 again
      exact h.agrees.redeclared rfl (declare_fails.2 again)
    · obtain ⟨reference, rfl, ⟨same, rfl⟩ | ⟨-, read⟩⟩ := superclass_fails.1 self
      · exact .inl (.inheritsFromItself same)
      · exact .inr ⟨_, .head _, _, h.superclass declares, .expr (Expr.resolve_fails.2 read)⟩
    · have walks := h.walks (.methods declares parents)
      have parents := superclass_gives.1 parents
      cases parent with
      | none =>
          obtain ⟨rfl, rfl⟩ := parents
          exact .inr ⟨_, .head _, _, walks, .methods (inClassScopes_fails.1 members)⟩
      | some reference =>
          obtain ⟨-, _, -, rfl⟩ := parents
          exact .inr ⟨_, .tail _ (.head _), _, walks, .methods (inClassScopes_fails.1 members)⟩
  case returns =>
    obtain check | ⟨other, rfl, _, check, walk⟩ := parts
    · obtain ⟨outside, rfl⟩ | ⟨hasValue, inside, rfl⟩ := checkReturn_fails.1 check
      · exact .inl (.returnAtTopLevel (h.agrees.functionContext.symm.trans outside))
      · obtain ⟨_, rfl⟩ := Option.isSome_iff_exists.1 hasValue
        exact .inl (.valueFromInitializer (h.agrees.functionContext.symm.trans inside))
    · obtain rfl := checkReturn_gives check
      exact .inr ⟨_, .head _, _, h.walks .returned, .expr walk⟩

/-- If the walk over a node stops, the node violates a rule or the walk stops at a part. -/
theorem Occurrence.At.stopped {node : Node} (h : At ⟨node, Γ⟩ place)
    (stops : Stops ⟨node, place⟩ e) : Stopped ⟨node, Γ⟩ e := by
  cases stops with
  | expr fails => exact h.stopped_expr fails
  | @exprs items _ _ fails =>
      have parts := Expr.resolveEach_fails.1 fails
      cases items with
      | nil => exact parts.elim
      | cons =>
          obtain first | ⟨_, _, walk, others⟩ := parts
          · exact .inr ⟨_, .head _, _, h.walks .item, .expr first⟩
          · exact .inr ⟨_, .tail _ (.head _), _, h.walks (.otherItems walk), .exprs others⟩
  | stmt fails => exact h.stopped_stmt fails
  | @stmts body _ _ fails =>
      have parts := Stmt.resolveEach_fails.1 fails
      cases body with
      | nil => exact parts.elim
      | cons =>
          obtain first | ⟨_, _, walk, others⟩ := parts
          · exact .inr ⟨_, .head _, _, h.walks .statement, .stmt first⟩
          · exact .inr ⟨_, .tail _ (.head _), _, h.walks (.otherStatements walk), .stmts others⟩
  | @methods members _ _ fails =>
      have parts := FunctionDecl.resolveEach_fails.1 fails
      rcases members with _ | ⟨⟨_, _, _⟩, _⟩
      case nil => exact parts.elim
      case cons =>
        obtain first | ⟨_, _, walk, others⟩ := parts
        · exact routine_stops first (methodContext_ne_outside _) rfl rfl (.head _) fun bound =>
            h.walks (.methodBody bound)
        · exact .inr ⟨_, .tail _ (.head _), _, h.walks (.otherMethods walk), .methods others⟩

/-- If the walk over a node stops, something inside violates a rule, and that is why. -/
theorem Occurrence.At.violation {node : Node} {Γ : Setting} {place : Surroundings}
    (h : At ⟨node, Γ⟩ place) (stops : Stops ⟨node, place⟩ e) :
    ∃ o, Contains ⟨node, Γ⟩ o ∧ Violates o e := by
  obtain violates | ⟨part, among, start, at', stops⟩ := h.stopped stops
  · exact ⟨_, .refl, violates⟩
  · have _ : sizeOf part.node < sizeOf node := by
      obtain ⟨_, isPart, rfl⟩ := List.mem_map.1 among
      exact node.sizeOf_part _ isPart
    obtain ⟨o, contains, violates⟩ := at'.violation stops
    exact ⟨o, .part among contains, violates⟩
termination_by sizeOf node

theorem resolveProgram_scope {program : List Stmt} :
    (resolveProgram program).result = .error (.scope e) ↔
      (Stmt.resolveEach program).Fails .initial e := by
  rw [← walk_eq_error]
  unfold resolveProgram
  split
  next walk => simp [walk, Noted.done]
  next walk => simp [walk, Noted.failed]

/-- The scope rules reject a program exactly if something in it violates a rule where it
stands, and the violation that they tell is one of these. -/
theorem rejects_exactly_violations {source : String} {program : List Stmt}
    (parsed : (parseSource source).result = .ok program) :
    ((∃ e, (resolveProgram program).result = .error (.scope e)) ↔
      ∃ o e, (Occurrence.ofProgram program).Contains o ∧ Violates o e) ∧
    ∀ e, (resolveProgram program).result = .error (.scope e) →
      ∃ o, (Occurrence.ofProgram program).Contains o ∧ Violates o e := by
  have start := Occurrence.At.top (Root.program parsed : Root (.run 1) _ _).sane
  have stops (e) (rejected : (resolveProgram program).result = .error (.scope e)) :
      ∃ o, (Occurrence.ofProgram program).Contains o ∧ Violates o e :=
    start.violation (.stmts (resolveProgram_scope.1 rejected))
  refine ⟨⟨fun ⟨e, rejected⟩ => ?_, fun ⟨o, e, contains, violates⟩ => ?_⟩, stops⟩
  · obtain ⟨o, contains, violates⟩ := stops e rejected
    exact ⟨o, e, contains, violates⟩
  · cases walk : (Stmt.resolveEach program).walk .initial with
    | mk result after =>
        cases result with
        | error e => exact ⟨e, by simp [resolveProgram, walk, Noted.failed]⟩
        | ok program' =>
            have made : Resolves ⟨.stmts program, .initial⟩ (.stmts program') after :=
              .stmts (walk_eq_ok.1 walk)
            obtain ⟨o', resolved⟩ := (start.resolved made).contains contains
            exact absurd violates resolved.not_violates

/-- A source with a function that does not use its variable. -/
def idleFunction : String := "fun f() \x7b var a; \x7d"

namespace IdleFunction

open TokenKind (word)

/-- The name of the variable. -/
def a : Token := word .identifier "a"

/-- The program of the source. -/
def program : List Stmt := [.functionDecl (.mk (word .identifier "f") [] [.varDecl a none])]

theorem parsed : (parseSource idleFunction).result = .ok program := by
  let tokens : List Token :=
    [word .funWord "fun", word .identifier "f", word .leftParen "(", word .rightParen ")",
      word .leftBrace "\x7b", word .varWord "var", a, word .semicolon ";",
      word .rightBrace "\x7d", .endOfText 1]
  have scanned : (scanSource idleFunction).result = .ok tokens := by decide +kernel
  have read : (Grammar.program tokens).1 = .ok program := rfl
  simp only [parseSource, Noted.andThen, scanned, read, Noted.done]

/-- The function is rejected, and its variable is what violates a rule. -/
theorem rejects_exactly_violations_a :
    (parseSource idleFunction).result = .ok program ∧
      (resolveProgram program).result = .error (.scope ⟨.neverUsed, a⟩) ∧
      ∃ o, (Occurrence.ofProgram program).Contains o ∧ Violates o ⟨.neverUsed, a⟩ := by
  have rejected : (resolveProgram program).result = .error (.scope ⟨.neverUsed, a⟩) := rfl
  exact ⟨parsed, rejected, (rejects_exactly_violations parsed).2 _ rejected⟩

end IdleFunction

end TreeWalk
