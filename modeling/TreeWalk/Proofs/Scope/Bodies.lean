import TreeWalk.Proofs.Scope.Failing
import TreeWalk.Proofs.Scope.Stages
import TreeWalk.Proofs.Scope.Violations

/-!
# The scopes of functions and blocks

When the walk has come to the end of the statements of a function or a block, their scope
binds the names that the statements declare, each to its declaration, and those names are
marked that a variable inside is bound to. So the checks of the scope find a fault exactly
if a rule about its names is violated.
-/

namespace TreeWalk

open Resolve Surroundings

variable {place place' mid : Surroundings} {Γ : Setting}

theorem Scope.isSome_view (scope : Scope) (name : String) :
    (scope.view name).isSome = scope.contains name := by
  simp [Scope.view, Bindings.contains]

/-- The innermost view is that of the innermost scope. -/
theorem view_of_head {scope : Scope} {v : View} {outer : List View}
    (isHead : scope ∈ place.scopes.head?) (cut : place.views = v :: outer) : v = scope.view := by
  have head := congrArg List.head? cut
  rw [views, List.head?_map, Option.mem_def.1 isHead] at head
  exact (Option.some.inj head).symm

/-- Parameters that the walk gets through differ from each other. -/
theorem params_differ {params : List Token} {v : View} {outer : List View} {u : Unit}
    (bound : (params.forM declareReady).Gives place u place') (cut : place.views = v :: outer)
    {before later : List Token} {name : Token} (split : params = before ++ name :: later) :
    v name.lexeme = none ∧ ∀ other ∈ before, other.lexeme ≠ name.lexeme := by
  induction params generalizing place v before with
  | nil => simp at split
  | cons param params ih =>
      rw [List.forM_eq_forM, List.forM_cons, bind_gives] at bound
      obtain ⟨_, mid, first, others⟩ := bound
      have binds := (declareReady_declares first).binds
      rw [cut] at binds
      cases before with
      | nil =>
          obtain ⟨rfl, -⟩ := List.cons.inj split
          exact ⟨binds.1, by simp⟩
      | cons head before =>
          simp only [List.cons_append, List.cons.injEq] at split
          obtain ⟨rfl, rest⟩ := split
          obtain ⟨fresh, differ⟩ := ih others binds.2 rest
          have other : param.lexeme ≠ name.lexeme := by
            rintro same
            simp [View.bind, same] at fresh
          refine ⟨?_, by simpa [other] using differ⟩
          simpa [View.bind, Function.update_apply, other.symm] using fresh

/-- The walk stops at a parameter for one before it, or for a name that is there already. -/
theorem params_stop {params : List Token} {v : View} {outer : List View} {e : ScopeError}
    (stops : (params.forM declareReady).Fails place e) (cut : place.views = v :: outer) :
    ∃ before name later, params = before ++ name :: later ∧ e = ⟨.redeclared, name⟩ ∧
      ((v name.lexeme).isSome ∨ ∃ other ∈ before, other.lexeme = name.lexeme) := by
  induction params generalizing place v with
  | nil => exact absurd stops pure_fails.1
  | cons param params ih =>
      rw [List.forM_eq_forM, List.forM_cons, bind_fails] at stops
      obtain stops | ⟨_, mid, first, stops⟩ := stops
      · obtain ⟨rfl, scope, isHead, contains⟩ := declare_fails.1 (declareReady_fails.1 stops)
        rw [← Scope.isSome_view, ← view_of_head isHead cut] at contains
        exact ⟨[], param, params, rfl, rfl, .inl contains⟩
      · have binds := (declareReady_declares first).binds
        rw [cut] at binds
        obtain ⟨before, name, later, rfl, rfl, again⟩ := ih stops binds.2
        refine ⟨param :: before, name, later, rfl, rfl, ?_⟩
        by_cases same : param.lexeme = name.lexeme
        · exact .inr ⟨param, by simp, same⟩
        · refine again.imp (fun bound => ?_) fun ⟨other, among, alike⟩ =>
            ⟨other, by simp [among], alike⟩
          simpa [View.bind, Function.update_apply, Ne.symm same] using bound

/-- Statements bind what they declare in the innermost scope, and nothing else. -/
theorem Stmt.resolveEach_view {body body' : List Stmt} {v : View} {outer : List View}
    (layered : Stmt.AllLayered body) (walk : (Stmt.resolveEach body).Gives place body' place')
    (cut : place.views = v :: outer) :
    ∃ v', place'.views = v' :: outer ∧ ∀ x b, v' x = some b ↔ v x = some b ∨
      ∃ name ∈ Stmt.declarations body, name.lexeme = x ∧ b = .declared name true true := by
  induction body generalizing place body' v with
  | nil =>
      obtain ⟨rfl, rfl⟩ := Stmt.resolveEach_gives.1 walk
      exact ⟨v, cut, fun x b => by simp [Stmt.declarations]⟩
  | cons s rest ih =>
      obtain ⟨_, mid, _, first, others, -⟩ := Stmt.resolveEach_gives.1 walk
      have after := Stmt.resolve_after layered.1 first
      cases declared : s.declared? with
      | none =>
          rw [declared] at after
          obtain ⟨v', views, binds⟩ := ih layered.2 others (after.views.trans cut)
          exact ⟨v', views, by simpa [Stmt.declarations, declared] using binds⟩
      | some name =>
          rw [declared] at after
          have bound := after.binds
          rw [cut] at bound
          obtain ⟨fresh, here⟩ := bound
          obtain ⟨v', views, binds⟩ := ih layered.2 others here
          refine ⟨v', views, fun x b => ?_⟩
          rw [binds, View.bind, Function.update_apply]
          simp only [Stmt.declarations, List.filterMap_cons, declared, List.mem_cons,
            exists_eq_or_imp]
          by_cases same : x = name.lexeme
          · subst same
            simp [fresh, eq_comm]
          · simp [same, Ne.symm same]

/-- The scope of statements at the end of them. -/
structure BodyScope (Γ : Setting) (body : List Stmt) (locals : Scope) : Prop where
  tidy : locals.IsTidy
  binds : ∀ x b, locals.view x = some b ↔
    ∃ name ∈ Stmt.declarations body, name.lexeme = x ∧ b = .declared name true true
  uses : ∀ name ∈ Stmt.declarations body, (locals.Uses name.lexeme ↔
    Occurrence.Reads ⟨.stmts body, Γ⟩ Γ.scopes.tail.length name.lexeme)

/-- What statements declare is neither `this` nor `super`. -/
theorem Spot.Sane.declarations_plain {body : List Stmt} (layered : Stmt.AllLayered body)
    (proper : (Node.stmts body).Proper) : ∀ name ∈ Stmt.declarations body, name.IsPlain := by
  induction body with
  | nil => simp [Stmt.declarations]
  | cons s rest ih =>
      intro name declared
      obtain ⟨one, among, isName⟩ := List.mem_filterMap.1 declared
      obtain rfl | among := List.mem_cons.1 among
      · obtain ⟨isIdentifier, kept⟩ := Stmt.declared_kept layered.1 isName
        exact (proper name (List.mem_append_left _ kept)).identifier isIdentifier
      · exact ih layered.2 (fun t kept => proper t (List.mem_append_right _ kept)) name
          (List.mem_filterMap.2 ⟨one, among, isName⟩)

/-- The walk over the statements of a new scope. -/
theorem Occurrence.At.bodyScope {body body' : List Stmt} {outer : List Scope}
    (h : At ⟨.stmts body, Γ⟩ place) (fresh : place.scopes = .empty :: outer)
    (walk : (Stmt.resolveEach body).Gives place body' place') :
    ∃ locals outer', place'.scopes = locals :: outer' ∧
      outer'.map Scope.view = outer.map Scope.view ∧ BodyScope Γ body locals := by
  have cut : place.views = View.empty :: outer.map Scope.view := by
    rw [views, fresh]
    rfl
  obtain ⟨v, views', binds⟩ := Stmt.resolveEach_view (h.sane id).layered walk cut
  obtain ⟨locals, outer', isScopes, rfl, isOuter⟩ := List.map_eq_cons_iff.1 views'
  have marks := h.marks (.stmts walk)
  have level : Γ.scopes.tail.length = outer.length := by
    rw [List.length_tail, h.agrees.scopes.length_eq, cut]
    simp
  have level' : outer'.length = outer.length := by simpa using congrArg List.length isOuter
  refine ⟨locals, outer', isScopes, isOuter, ?_, by simpa [View.empty] using binds,
    fun name declared => ?_⟩
  · have tidy := marks.tidy
    rw [fresh, isScopes] at tidy
    cases tidy with
    | cons keeps _ => exact keeps .empty
  · have plain := Spot.Sane.declarations_plain (h.sane id).layered (h.sane id).proper name declared
    have used := marks.used outer.length (by simp [fresh]) name.lexeme plain
    have unused : ¬place.IsUsed outer.length name.lexeme := by
      rw [isUsed_head fresh]
      rintro ⟨_, bound, -⟩
      cases bound
    rw [level, ← isUsed_head isScopes, level', used]
    simp [unused]

/-- The parameters of a function are the names of a scope. -/
def Scope.IsOf (parameters : Scope) (params : List Token) : Prop :=
  ∀ x, parameters.contains x ↔ ∃ param ∈ params, param.lexeme = x

namespace BodyScope

variable {body : List Stmt} {locals parameters : Scope} {params : List Token}

/-- What a declared name is bound to. -/
theorem entry (h : BodyScope Γ body locals) {name : Token}
    (declared : name ∈ Stmt.declarations body) :
    ∃ used, (name.lexeme, .declared name true used) ∈ locals.entries := by
  have bound := (h.binds name.lexeme _).2 ⟨name, declared, rfl, rfl⟩
  obtain ⟨b, found, isRead⟩ := Option.map_eq_some_iff.1 bound
  obtain ⟨before, later, cut, -⟩ := List.lookup_eq_some_iff.1 found
  cases b with
  | implicit => cases isRead
  | declared site ready used =>
      cases isRead
      exact ⟨used, by rw [cut]; simp⟩

/-- What an entry stands for. -/
theorem of_entry (h : BodyScope Γ body locals) {x : String} {b : Binding}
    (among : (x, b) ∈ locals.entries) : ∃ name ∈ Stmt.declarations body, name.lexeme = x ∧
      ∃ used, b = .declared name true used ∧ (locals.Uses x ↔ used) := by
  have found := h.tidy.get?_of_mem among
  have bound : locals.view x = some b.read := by rw [Scope.view, found]; rfl
  obtain ⟨name, declared, rfl, same⟩ := (h.binds x _).1 bound
  cases b with
  | implicit => cases same
  | declared site ready used =>
      cases same
      exact ⟨name, declared, rfl, used, rfl, by simp [Scope.Uses, found, Binding.isUsed]⟩

/-- A scope in which no fault is found. -/
theorem faultless (h : BodyScope Γ body locals) (isOf : parameters.IsOf params)
    (fault : Scope.fault? locals parameters = none) {name : Token}
    (declared : name ∈ Stmt.declarations body) :
    (∀ param ∈ params, param.lexeme ≠ name.lexeme) ∧ locals.Uses name.lexeme := by
  obtain ⟨used, among⟩ := h.entry declared
  obtain ⟨name', -, -, used', same, uses⟩ := h.of_entry among
  cases same
  have sound := List.findSome?_eq_none_iff.1 fault _ among
  dsimp only at sound
  split at sound
  next => cases sound
  next plain =>
    split at sound
    next isUsed =>
      refine ⟨fun param isParam same => plain ((isOf _).2 ⟨param, isParam, same⟩), uses.2 isUsed⟩
    next => cases sound

/-- A fault that is found in a scope. -/
theorem fault (h : BodyScope Γ body locals) (isOf : parameters.IsOf params) {e : ScopeError}
    (fault : Scope.fault? locals parameters = some e) :
    ∃ name ∈ Stmt.declarations body,
      (∃ param ∈ params, param.lexeme = name.lexeme) ∧ e = ⟨.conflictsWithParameter, name⟩ ∨
        ¬locals.Uses name.lexeme ∧ e = ⟨.neverUsed, name⟩ := by
  obtain ⟨⟨x, b⟩, among, found⟩ := List.exists_of_findSome?_eq_some fault
  obtain ⟨name, declared, rfl, used, rfl, uses⟩ := h.of_entry among
  refine ⟨name, declared, ?_⟩
  dsimp only at found
  split at found
  next contains =>
    cases found
    exact .inl ⟨(isOf _).1 contains, rfl⟩
  next =>
    split at found
    next => cases found
    next unused =>
      cases found
      exact .inr ⟨mt uses.1 unused, rfl⟩

end BodyScope

theorem Setting.foldl_declare_scopes (params : List Token) {names : List String}
    {outer : List (List String)} (cut : Γ.scopes = names :: outer) :
    (params.foldl declare Γ).scopes = ((params.map Token.lexeme).reverse ++ names) :: outer := by
  induction params generalizing Γ names with
  | nil => exact cut
  | cons param params ih =>
      have next : (Γ.declare param).scopes = (param.lexeme :: names) :: outer := by
        simp [Setting.declare, cut]
      simp [ih next]

@[simp] theorem Setting.routine_functionContext (context : FunctionContext)
    (params : List Token) : (Γ.routine context params).functionContext = context := by
  have kept (Γ' : Setting) : (params.foldl declare Γ').functionContext = Γ'.functionContext := by
    induction params generalizing Γ' with
    | nil => rfl
    | cons param params ih => exact ih _
  exact kept _

/-- The scopes of a function at the end of its body. -/
theorem Occurrence.At.routineScopes {context : FunctionContext} {params : List Token}
    {body body' : List Stmt} (h : At ⟨.stmts body, Γ.routine context params⟩ (blockPlace mid))
    (walk : (Stmt.resolveEach body).Gives (blockPlace mid) body' place') :
    ∃ locals parameters outer, place'.scopes = locals :: parameters :: outer ∧
      BodyScope (Γ.routine context params) body locals ∧ parameters.IsOf params := by
  obtain ⟨locals, outer, isScopes, isOuter, scope⟩ := h.bodyScope rfl walk
  have agrees := h.agrees.scopes
  have names : (Γ.routine context params).scopes =
      [] :: ((params.map Token.lexeme).reverse ++ []) :: Γ.scopes := by
    rw [Setting.routine, Setting.enter, Setting.foldl_declare_scopes params rfl]
  have cut : (blockPlace mid).views = View.empty :: outer.map Scope.view :=
    congrArg (View.empty :: ·) isOuter.symm
  rw [names, cut] at agrees
  obtain ⟨-, agrees⟩ := List.forall₂_cons.1 agrees
  obtain ⟨v, views, binds, -, isViews⟩ := List.forall₂_cons_left_iff.1 agrees
  obtain ⟨parameters, outer, rfl, rfl, rfl⟩ := List.map_eq_cons_iff.1 isViews
  refine ⟨locals, parameters, outer, isScopes, scope, fun x => ?_⟩
  rw [← Scope.isSome_view, binds]
  simp

/-- The walk over the node of a spot stops for a violation. -/
inductive Stops : Spot → ScopeError → Prop
  | expr {expr place e} : expr.resolve.Fails place e → Stops ⟨.expr expr, place⟩ e
  | exprs {items place e} : (Expr.resolveEach items).Fails place e → Stops ⟨.exprs items, place⟩ e
  | stmt {s place e} : s.resolve.Fails place e → Stops ⟨.stmt s, place⟩ e
  | stmts {body place e} : (Stmt.resolveEach body).Fails place e → Stops ⟨.stmts body, place⟩ e
  | methods {members place e} : (FunctionDecl.resolveEach members).Fails place e →
      Stops ⟨.methods members, place⟩ e

/-- A node violates a rule itself, or the walk stops at one of its parts. -/
def Stopped (o : Occurrence) (e : ScopeError) : Prop :=
  Violates o e ∨ ∃ part ∈ o.parts, ∃ start, part.At start ∧ Stops ⟨part.node, start⟩ e

theorem methodContext_ne_outside (name : Token) : methodContext name ≠ .outside := by
  unfold methodContext
  split <;> decide

/-- A fault of the scope of a function or block is a violation of a rule. -/
theorem Violates.of_fault {o : Occurrence} {params : List Token} {body : List Stmt}
    {locals parameters : Scope} {e : ScopeError} (opened : o.node.opened? = some (params, body))
    (same : Γ = o.setting.inside o.node (.stmts body)) (inside : Γ.functionContext ≠ .outside)
    (scope : BodyScope Γ body locals) (isOf : parameters.IsOf params)
    (fault : Scope.fault? locals parameters = some e) : Violates o e := by
  obtain ⟨name, declared, ⟨⟨param, isParam, alike⟩, rfl⟩ | ⟨unused, rfl⟩⟩ := scope.fault isOf fault
  · exact .conflictsWithParameter opened declared isParam alike
  · exact .neverUsed opened same inside declared (mt (scope.uses name declared).2 unused)

/-- The function or block that a node is obeys the rules about its names. -/
structure Obeys (Γ : Setting) (params : List Token) (body : List Stmt) : Prop where
  parametersDiffer : ∀ name, ¬Repeats params name
  differs : ∀ name ∈ Stmt.declarations body, ∀ param ∈ params, param.lexeme ≠ name.lexeme
  used : Γ.functionContext ≠ .outside → ∀ name ∈ Stmt.declarations body,
    Occurrence.Reads ⟨.stmts body, Γ⟩ Γ.scopes.tail.length name.lexeme

theorem BodyScope.obeys {params : List Token} {body : List Stmt} {locals parameters : Scope}
    (scope : BodyScope Γ body locals) (isOf : parameters.IsOf params)
    (differ : ∀ name, ¬Repeats params name) (checked : params = [] ∨ Γ.functionContext ≠ .outside)
    (faultless : Γ.functionContext ≠ .outside → Scope.fault? locals parameters = none) :
    Obeys Γ params body := by
  refine ⟨differ, fun name declared param isParam => ?_, fun inside name declared => ?_⟩
  · obtain rfl | inside := checked
    · cases isParam
    · exact (scope.faultless isOf (faultless inside) declared).1 param isParam
  · exact (scope.uses name declared).1 (scope.faultless isOf (faultless inside) declared).2

/-- A function that the walk gets through obeys the rules about its names. -/
theorem routine_obeys {context : FunctionContext} {params : List Token} {body body' : List Stmt}
    (inside : context ≠ .outside)
    (walk : (routine context params (Stmt.resolveEach body)).Gives place body' place')
    (inner : ∀ {mid}, (params.forM declareReady).Gives (bodyPlace context place) () mid →
      Occurrence.At ⟨.stmts body, Γ.routine context params⟩ (blockPlace mid)) :
    Obeys (Γ.routine context params) params body := by
  obtain ⟨mid, after, bound, walk, check, -⟩ := routine_gives.1 walk
  obtain ⟨locals, parameters, outer, isScopes, scope, isOf⟩ := (inner bound).routineScopes walk
  refine scope.obeys isOf (fun name again => ?_) (.inr (by simpa using inside)) fun _ => ?_
  · obtain ⟨before, later, rfl, other, among, alike⟩ := again
    exact (params_differ bound rfl rfl).2 other among alike
  · exact Option.eq_none_iff_forall_ne_some.2 fun e fault =>
      not_fails_of_gives check ((checkBody_fails isScopes).2 fault)

/-- Where the walk over a function stops. -/
theorem routine_stops {context : FunctionContext} {params : List Token} {body : List Stmt}
    {o : Occurrence} {e : ScopeError}
    (stops : (routine context params (Stmt.resolveEach body)).Fails place e)
    (inside : context ≠ .outside) (opened : o.node.opened? = some (params, body))
    (same : Γ.routine context params = o.setting.inside o.node (.stmts body))
    (isPart : ⟨.stmts body, Γ.routine context params⟩ ∈ o.parts)
    (inner : ∀ {mid}, (params.forM declareReady).Gives (bodyPlace context place) () mid →
      Occurrence.At ⟨.stmts body, Γ.routine context params⟩ (blockPlace mid)) :
    Stopped o e := by
  obtain stops | ⟨mid, bound, stops | ⟨body', after, walk, stops⟩⟩ := routine_fails.1 stops
  · obtain ⟨before, name, later, rfl, rfl, bound | again⟩ := params_stop stops rfl
    · cases bound
    · exact .inl (.repeatedParameter opened ⟨before, later, rfl, again⟩)
  · exact .inr ⟨_, isPart, _, inner bound, .stmts stops⟩
  · obtain ⟨locals, parameters, outer, isScopes, scope, isOf⟩ := (inner bound).routineScopes walk
    have fault := (checkBody_fails isScopes).1 stops
    exact .inl (.of_fault opened same (by simpa using inside) scope isOf fault)

/-- The walk stops at the end of a block for a fault of its scope, inside of functions. -/
theorem checkBlock_stops {locals : Scope} {outer : List Scope} {e : ScopeError}
    (cut : place.scopes = locals :: outer) :
    checkBlock.Fails place e ↔
      place.functionContext ≠ .outside ∧ Scope.fault? locals .empty = some e := by
  rw [checkBlock_fails, cut]
  simp

theorem Scope.empty_isOf : Scope.IsOf .empty [] := fun x => by
  simp [Bindings.contains]

/-- A block that the walk gets through obeys the rules about its names. -/
theorem block_obeys {body body' : List Stmt}
    (h : Occurrence.At ⟨.stmts body, Γ.enter []⟩ (blockPlace place))
    (walk : (Stmt.resolveEach body).Gives (blockPlace place) body' place')
    (check : checkBlock.Gives place' () place') : Obeys (Γ.enter []) [] body := by
  obtain ⟨locals, outer, isScopes, -, scope⟩ := h.bodyScope rfl walk
  have context : place'.functionContext = (Γ.enter []).functionContext :=
    (Stmt.resolveEach_alike (h.sane id).layered walk).functionContext.trans h.agrees.functionContext
  refine scope.obeys Scope.empty_isOf (fun name again => ?_) (.inl rfl) fun inside => ?_
  · obtain ⟨before, later, split, -⟩ := again
    simp at split
  · exact Option.eq_none_iff_forall_ne_some.2 fun e fault =>
      not_fails_of_gives check ((checkBlock_stops isScopes).2 ⟨context ▸ inside, fault⟩)

/-- Where the walk over a block stops behind its statements. -/
theorem block_stops {body body' : List Stmt} {e : ScopeError}
    (h : Occurrence.At ⟨.stmts body, Γ.enter []⟩ (blockPlace place))
    (walk : (Stmt.resolveEach body).Gives (blockPlace place) body' place')
    (stops : checkBlock.Fails place' e) : Violates ⟨.stmt (.block body), Γ⟩ e := by
  obtain ⟨locals, outer, isScopes, -, scope⟩ := h.bodyScope rfl walk
  obtain ⟨inside, fault⟩ := (checkBlock_stops isScopes).1 stops
  have context : place'.functionContext = (Γ.enter []).functionContext :=
    (Stmt.resolveEach_alike (h.sane id).layered walk).functionContext.trans h.agrees.functionContext
  rw [context] at inside
  exact .of_fault rfl rfl inside scope Scope.empty_isOf fault

end TreeWalk
