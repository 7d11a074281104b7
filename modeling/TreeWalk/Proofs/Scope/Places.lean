import TreeWalk.Proofs.Scope.Spots

/-!
# The places of the parts of a program

A node of a program with its distances is placed if the walk of the scope rules came to
a spot and gave the node there. The parts of a placed node are placed as well, and the
distance of a reference is the one that the views at its place give.

## Implementation notes

A function that is called later is entered with the frames that it was made in. What is
known of its body is therefore put in terms of views, not of a place.
-/

namespace TreeWalk

open Resolve Surroundings

/-- The walk over the node of a spot gives a node with its distances. -/
inductive Resolves : Spot → Node → Surroundings → Prop
  | expr {e e' place place'} : e.resolve.Gives place e' place' →
      Resolves ⟨.expr e, place⟩ (.expr e') place'
  | exprs {items items' place place'} : (Expr.resolveEach items).Gives place items' place' →
      Resolves ⟨.exprs items, place⟩ (.exprs items') place'
  | stmt {s s' place place'} : s.resolve.Gives place s' place' →
      Resolves ⟨.stmt s, place⟩ (.stmt s') place'
  | stmts {body body' place place'} : (Stmt.resolveEach body).Gives place body' place' →
      Resolves ⟨.stmts body, place⟩ (.stmts body') place'
  | methods {members members' place place'} :
      (FunctionDecl.resolveEach members).Gives place members' place' →
      Resolves ⟨.methods members, place⟩ (.methods members') place'

/-- Sane spots from which the walk comes directly to none but these. -/
structure Leads (W W' : Spot → Prop) : Prop where
  walks : ∀ {spot spot'}, W spot → Walks spot spot' → W' spot'
  sane : ∀ {spot}, W spot → spot.Sane

/-- Sane spots among which are all that the walk comes to from one of them. -/
abbrev Known (W : Spot → Prop) : Prop := Leads W W

/-- A node with its distances, as the walk over a known spot gives it. -/
def Placed (W : Spot → Prop) (node : Node) (place place' : Surroundings) : Prop :=
  ∃ original, W ⟨original, place⟩ ∧ Resolves ⟨original, place⟩ node place'

/-- A function with distinct parameters whose body is placed inside of a view of them and
the views around it. -/
def PlacedRoutine (W : Spot → Prop) (outer : List View) (params : List Token)
    (body : List Stmt) : Prop :=
  (∀ param ∈ params, param.IsPlain) ∧ (params.map Token.lexeme).Nodup ∧
    ∃ v mid after, mid.views = v :: outer ∧ v.IsPlain ∧
      (∀ x, (v x).isSome → ∃ param ∈ params, param.lexeme = x) ∧
      Placed W (.stmts body) (blockPlace mid) after

/-- The distance of a reference is that of the nearest view that binds its name. -/
def Reference.IsLocated (reference : Reference) (views : List View) : Prop :=
  reference.distance = views.findIdx? fun v => (v reference.name.lexeme).isSome

variable {W W' : Spot → Prop} {place place' : Surroundings}

theorem Placed.mono {node : Node} (h : Placed W node place place')
    (more : ∀ spot, W spot → W' spot) : Placed W' node place place' := by
  obtain ⟨original, inside, made⟩ := h
  exact ⟨original, more _ inside, made⟩

theorem PlacedRoutine.mono {outer : List View} {params : List Token} {body : List Stmt}
    (h : PlacedRoutine W outer params body) (more : ∀ spot, W spot → W' spot) :
    PlacedRoutine W' outer params body := by
  obtain ⟨plain, distinct, v, mid, after, cut, isPlain, names, placed⟩ := h
  exact ⟨plain, distinct, v, mid, after, cut, isPlain, names, placed.mono more⟩

/-- Parameters bind their own names and no others. -/
theorem params_views {params : List Token} {v : View} {outer : List View} {u : Unit}
    (bound : (params.forM declareReady).Gives place u place') (cut : place.views = v :: outer)
    (plain : ∀ param ∈ params, param.IsPlain) (isPlain : v.IsPlain) :
    ∃ v', place'.views = v' :: outer ∧ v'.IsPlain ∧
      ∀ x, (v' x).isSome → (v x).isSome ∨ ∃ param ∈ params, param.lexeme = x := by
  induction params generalizing place v with
  | nil =>
      obtain ⟨-, rfl⟩ := pure_gives.1 bound
      exact ⟨v, cut, isPlain, fun _ => .inl⟩
  | cons param params ih =>
      rw [List.forM_eq_forM, List.forM_cons, bind_gives] at bound
      obtain ⟨_, mid, first, others⟩ := bound
      have binds := (declareReady_declares first).binds
      rw [cut] at binds
      have still : (v.bind param true).IsPlain := by
        obtain ⟨this, super⟩ := View.bind_this v true (plain param (by simp))
        rwa [View.IsPlain, this, super]
      obtain ⟨v', views, isPlain', names⟩ :=
        ih others binds.2 (fun other inside => plain other (by simp [inside])) still
      refine ⟨v', views, isPlain', fun x bound => ?_⟩
      obtain bound | ⟨other, inside, same⟩ := names x bound
      · by_cases same : x = param.lexeme
        · exact .inr ⟨param, by simp, same.symm⟩
        · simp only [View.bind, Function.update_apply, same, if_false] at bound
          exact .inl bound
      · exact .inr ⟨other, by simp [inside], same⟩

/-- No two parameters have the same name, since each is declared in the scope of those
before it. -/
theorem params_distinct {params : List Token} {v : View} {outer : List View} {u : Unit}
    (bound : (params.forM declareReady).Gives place u place') (cut : place.views = v :: outer) :
    (params.map Token.lexeme).Nodup ∧ ∀ param ∈ params, v param.lexeme = none := by
  induction params generalizing place v with
  | nil => exact ⟨.nil, nofun⟩
  | cons param params ih =>
      rw [List.forM_eq_forM, List.forM_cons, bind_gives] at bound
      obtain ⟨_, mid, first, others⟩ := bound
      have binds := (declareReady_declares first).binds
      rw [cut] at binds
      obtain ⟨fresh, views⟩ := binds
      obtain ⟨distinct, absent⟩ := ih others views
      have apart : ∀ other ∈ params, other.lexeme ≠ param.lexeme ∧ v other.lexeme = none := by
        intro other among
        have := absent other among
        simp only [View.bind, Function.update_apply] at this
        split at this
        next => cases this
        next differs => exact ⟨differs, this⟩
      constructor
      · rw [List.map_cons, List.nodup_cons]
        refine ⟨fun among => ?_, distinct⟩
        obtain ⟨other, among, same⟩ := List.mem_map.1 among
        exact (apart other among).1 same
      · intro other among
        obtain rfl | among := List.mem_cons.1 among
        · exact fresh
        · exact (apart other among).2

theorem placedRoutine_of_gives {context : FunctionContext} {params : List Token}
    {body body' : List Stmt} (plain : ∀ param ∈ params, param.IsPlain)
    (inner : ∀ mid, (params.forM declareReady).Gives (bodyPlace context place) () mid →
      W ⟨.stmts body, blockPlace mid⟩)
    (walk : (Resolve.routine context params (Stmt.resolveEach body)).Gives place body' place') :
    PlacedRoutine W place.views params body' := by
  obtain ⟨mid, after, bound, walk, -, -⟩ := routine_gives.1 walk
  have start : (bodyPlace context place).views = View.empty :: place.views := rfl
  obtain ⟨v, views, isPlain, names⟩ := params_views bound start plain ⟨rfl, rfl⟩
  obtain ⟨distinct, -⟩ := params_distinct bound start
  refine ⟨plain, distinct, v, mid, after, views, isPlain, fun x bound => ?_, _, inner mid bound,
    .stmts walk⟩
  obtain bound | found := names x bound
  · cases bound
  · exact found

/-- Where `super` and `this` lie for a use of `super`. -/
structure Reference.IsSuperOf (reference : Reference) (views : List View) : Prop where
  located : reference.IsLocated views
  word : reference.name.lexeme = "super"
  inside : ∃ distance this super, reference.distance = some (distance + 1) ∧
    views[distance]? = some this ∧ this.BindsThis ∧
    views[distance + 1]? = some super ∧ super.BindsSuper

theorem Reference.isSuperOf {reference : Reference} {views : List View}
    (located : reference.IsLocated views) (word : reference.name.lexeme = "super")
    (enclosed : Enclosed .derived views) : reference.IsSuperOf views := by
  obtain ⟨inner, this, super, outer, rfl, plain, bindsThis, bindsSuper⟩ := enclosed
  refine ⟨located, word, inner.length, this, super, ?_, by simp, bindsThis, ?_, bindsSuper⟩
  · rw [located, word]
    have skipped : inner.findIdx? (fun v => (v "super").isSome) = none :=
      List.findIdx?_eq_none_iff.2 fun v inside => by rw [(plain v inside).2]; rfl
    simp [List.findIdx?_append, List.findIdx?_cons, skipped, bindsThis.2, bindsSuper.1,
      Nat.add_comm]
  · simp

namespace Placed

variable {e : Expr} {s : Stmt}

/-- Walking over an expression changes no view. -/
theorem expr_alike (leads : Leads W W') (h : Placed W (.expr e) place place') :
    Alike place place' := by
  obtain ⟨_, inside, made⟩ := h
  cases made with
  | expr walk => exact Expr.resolve_alike (leads.sane inside).layered walk

/-- The parts of a placed expression are placed. -/
theorem expr_parts (leads : Leads W W') (h : Placed W (.expr e) place place') :
    match e with
    | .literal _ => True
    | .variable reference => reference.IsLocated place.views
    | .assign reference value => ∃ mid, Placed W' (.expr value) place mid ∧
        reference.IsLocated mid.views ∧ reference.name.IsPlain
    | .this reference => reference.IsLocated place.views
    | .super reference _ => reference.IsSuperOf place.views
    | .grouping inner => ∃ after, Placed W' (.expr inner) place after
    | .unary _ operand => ∃ after, Placed W' (.expr operand) place after
    | .binary left _ right | .logical left _ right => ∃ mid after,
        Placed W' (.expr left) place mid ∧ Placed W' (.expr right) mid after
    | .conditional condition consequent alternative => ∃ mid mid' after,
        Placed W' (.expr condition) place mid ∧ Placed W' (.expr consequent) mid mid' ∧
        Placed W' (.expr alternative) mid' after
    | .comma items => ∃ after, Placed W' (.exprs items) place after
    | .call callee _ arguments => ∃ mid after,
        Placed W' (.expr callee) place mid ∧ Placed W' (.exprs arguments) mid after
    | .get object _ => ∃ after, Placed W' (.expr object) place after
    | .set object _ value => ∃ mid after,
        Placed W' (.expr value) place mid ∧ Placed W' (.expr object) mid after
    | .lambda _ params body => PlacedRoutine W' place.views params body := by
  obtain ⟨_, inside, made⟩ := h
  cases made with
  | @expr original _ _ _ gives =>
  have sane := leads.sane inside
  have layered := sane.layered
  have parts := Expr.resolve_gives.1 gives
  cases original with
  | literal =>
      obtain ⟨rfl, -⟩ := parts
      trivial
  | «variable» =>
      obtain ⟨_, read, rfl⟩ := parts
      obtain ⟨-, rfl⟩ := readVariable_alike read
      exact distance?_eq _ _
  | assign reference value =>
      obtain ⟨_, mid, _, walk, found, rfl⟩ := parts
      obtain ⟨-, rfl⟩ := locate_alike found
      exact ⟨mid, ⟨_, leads.walks inside .assignValue, .expr walk⟩, distance?_eq _ _,
        sane.plainName (by simp [Node.words, Expr.words]) layered.1.1⟩
  | this =>
      obtain ⟨_, -, found, rfl⟩ := parts
      obtain ⟨-, rfl⟩ := locate_alike found
      exact distance?_eq _ _
  | super reference =>
      obtain ⟨_, derived, found, rfl⟩ := parts
      obtain ⟨-, rfl⟩ := locate_alike found
      have word := (sane.proper reference.name (by simp [Node.words, Expr.words])).super
        layered.1.1
      have enclosed := sane.enclosed
      rw [derived] at enclosed
      exact Reference.isSuperOf (distance?_eq _ _) word enclosed
  | grouping =>
      obtain ⟨_, walk, rfl⟩ := parts
      exact ⟨_, _, leads.walks inside .grouping, .expr walk⟩
  | unary =>
      obtain ⟨_, walk, rfl⟩ := parts
      exact ⟨_, _, leads.walks inside .unary, .expr walk⟩
  | binary =>
      obtain ⟨_, _, _, first, second, rfl⟩ := parts
      exact ⟨_, _, ⟨_, leads.walks inside .binaryLeft, .expr first⟩,
        ⟨_, leads.walks inside (.binaryRight first), .expr second⟩⟩
  | logical =>
      obtain ⟨_, _, _, first, second, rfl⟩ := parts
      exact ⟨_, _, ⟨_, leads.walks inside .logicalLeft, .expr first⟩,
        ⟨_, leads.walks inside (.logicalRight first), .expr second⟩⟩
  | conditional =>
      obtain ⟨_, _, _, _, _, first, second, third, rfl⟩ := parts
      exact ⟨_, _, _, ⟨_, leads.walks inside .condition, .expr first⟩,
        ⟨_, leads.walks inside (.consequent first), .expr second⟩,
        ⟨_, leads.walks inside (.alternative first second), .expr third⟩⟩
  | comma =>
      obtain ⟨_, walk, rfl⟩ := parts
      exact ⟨_, _, leads.walks inside .items, .exprs walk⟩
  | call =>
      obtain ⟨_, _, _, first, second, rfl⟩ := parts
      exact ⟨_, _, ⟨_, leads.walks inside .callee, .expr first⟩,
        ⟨_, leads.walks inside (.arguments first), .exprs second⟩⟩
  | get =>
      obtain ⟨_, walk, rfl⟩ := parts
      exact ⟨_, _, leads.walks inside .getObject, .expr walk⟩
  | set =>
      obtain ⟨_, _, _, first, second, rfl⟩ := parts
      exact ⟨_, _, ⟨_, leads.walks inside .setValue, .expr first⟩,
        ⟨_, leads.walks inside (.setObject first), .expr second⟩⟩
  | lambda keyword params body =>
      obtain ⟨_, walk, rfl⟩ := parts
      have plain := sane.plainParams
        (fun param inside => by simp [Node.words, Expr.words, mem_nameWords inside]) layered.2.1
      exact placedRoutine_of_gives plain
        (fun _ bound => leads.walks inside (.lambdaBody bound)) walk

theorem exprs_parts (leads : Leads W W') {item : Expr} {rest : List Expr}
    (h : Placed W (.exprs (item :: rest)) place place') :
    ∃ mid, Placed W' (.expr item) place mid ∧ Placed W' (.exprs rest) mid place' := by
  obtain ⟨_, inside, made⟩ := h
  cases made with
  | @exprs original _ _ _ gives =>
  have parts := Expr.resolveEach_gives.1 gives
  cases original with
  | nil => cases parts.1
  | cons =>
      obtain ⟨_, mid, _, first, others, same⟩ := parts
      cases same
      exact ⟨mid, ⟨_, leads.walks inside .item, .expr first⟩,
        ⟨_, leads.walks inside (.otherItems first), .exprs others⟩⟩

/-- A statement declares what it declared before it got its distances. -/
theorem resolve_declared {s' : Stmt} (h : s.resolve.Gives place s' place') :
    s'.declared? = s.declared? := by
  have parts := Stmt.resolve_gives.1 h
  rcases s with _ | _ | ⟨_, _ | _⟩ | _ | ⟨_, _, _ | _⟩ | _ | ⟨⟨_, _, _⟩⟩ | _ | ⟨_, _ | _⟩ <;>
    grind [Stmt.declared?, FunctionDecl.name]

/-- Walking over a statement changes the innermost view by what the statement declares. -/
theorem stmt_after (leads : Leads W W') (h : Placed W (.stmt s) place place') :
    After s.declared? place place' := by
  obtain ⟨_, inside, made⟩ := h
  cases made with
  | stmt walk =>
      rw [resolve_declared walk]
      exact Stmt.resolve_after (leads.sane inside).layered walk

/-- What a placed statement declares is neither `this` nor `super`. -/
theorem declared_plain (leads : Leads W W') (h : Placed W (.stmt s) place place') :
    ∀ name ∈ s.declared?, name.IsPlain := by
  intro name declares
  obtain ⟨_, inside, made⟩ := h
  cases made with
  | stmt walk =>
      have sane := leads.sane inside
      obtain ⟨isName, kept⟩ := Stmt.declared_kept sane.layered
        ((resolve_declared walk).symm.trans declares)
      exact sane.plainName kept isName

/-- The parts of a placed statement are placed. -/
theorem stmt_parts (leads : Leads W W') (h : Placed W (.stmt s) place place') :
    match s with
    | .expression value | .print value | .returns _ (some value) =>
      ∃ after, Placed W' (.expr value) place after
    | .varDecl name none => name.IsPlain
    | .varDecl name (some initial) => name.IsPlain ∧ ∃ mid after,
        Declares name false place mid ∧ Placed W' (.expr initial) mid after
    | .block body => ∃ after, Placed W' (.stmts body) (blockPlace place) after
    | .branch condition consequent alternative => ∃ mid mid',
        Placed W' (.expr condition) place mid ∧ Placed W' (.stmt consequent) mid mid' ∧
        consequent.declared? = none ∧ ∀ other ∈ alternative,
          ∃ after, Placed W' (.stmt other) mid' after ∧ other.declared? = none
    | .loop condition body => ∃ mid after, Placed W' (.expr condition) place mid ∧
        Placed W' (.stmt body) mid after ∧ body.declared? = none
    | .functionDecl (.mk name params body) => name.IsPlain ∧ ∃ mid : Surroundings,
        Declares name true place mid ∧ PlacedRoutine W' mid.views params body
    | .classDecl name parent methods => name.IsPlain ∧ ∃ mid mid' after : Surroundings,
        Binds name true place.views mid.views ∧ mid'.views = mid.views ∧
        (∀ reference ∈ parent, reference.IsLocated mid.views) ∧
        Placed W' (.methods methods) (methodsPlace parent.isSome mid') after
    | .returns _ none => True := by
  obtain ⟨_, inside, made⟩ := h
  cases made with
  | @stmt original _ _ _ gives =>
  have sane := leads.sane inside
  have layered := sane.layered
  have parts := Stmt.resolve_gives.1 gives
  rcases original with value | value | ⟨name, _ | initial⟩ | body |
    ⟨condition, consequent, _ | alternative⟩ | ⟨condition, body⟩ | ⟨⟨name, params, body⟩⟩ |
    ⟨name, parent, methods⟩ | ⟨keyword, _ | value⟩
  case expression =>
    obtain ⟨_, walk, rfl⟩ := parts
    exact ⟨_, _, leads.walks inside .value, .expr walk⟩
  case print =>
    obtain ⟨_, walk, rfl⟩ := parts
    exact ⟨_, _, leads.walks inside .printed, .expr walk⟩
  case varDecl.none =>
    obtain ⟨-, rfl⟩ := parts
    exact sane.plainName (by simp [Node.words, Stmt.words]) layered
  case varDecl.some =>
    obtain ⟨_, _, _, declares, walk, -, rfl⟩ := parts
    exact ⟨sane.plainName (by simp [Node.words, Stmt.words]) layered.1, _, _,
      declare_declares declares, _, leads.walks inside (.initial declares), .expr walk⟩
  case block =>
    obtain ⟨_, _, walk, -, -, rfl⟩ := parts
    exact ⟨_, _, leads.walks inside .block, .stmts walk⟩
  case branch.none =>
    obtain ⟨_, _, _, first, second, rfl⟩ := parts
    exact ⟨_, _, ⟨_, leads.walks inside .branchCondition, .expr first⟩,
      ⟨_, leads.walks inside (.branchConsequent first), .stmt second⟩,
      (resolve_declared second).trans layered.2.2, by simp⟩
  case branch.some =>
    obtain ⟨_, _, _, _, other, first, second, third, rfl⟩ := parts
    refine ⟨_, _, ⟨_, leads.walks inside .branchCondition, .expr first⟩,
      ⟨_, leads.walks inside (.branchConsequent first), .stmt second⟩,
      (resolve_declared second).trans layered.2.2.1, ?_⟩
    rintro _ ⟨⟩
    exact ⟨_, ⟨_, leads.walks inside (.branchAlternative first second), .stmt third⟩,
      (resolve_declared third).trans layered.2.2.2.2.2⟩
  case loop =>
    obtain ⟨_, _, _, first, second, rfl⟩ := parts
    exact ⟨_, _, ⟨_, leads.walks inside .loopCondition, .expr first⟩,
      ⟨_, leads.walks inside (.loopBody first), .stmt second⟩,
      (resolve_declared second).trans layered.2.2⟩
  case functionDecl =>
    obtain ⟨_, _, declares, walk, rfl⟩ := parts
    have plain := sane.plainParams (fun param inside => by
      simp [Node.words, Stmt.words, FunctionDecl.words, mem_nameWords inside]) layered.2.1
    exact ⟨sane.plainName (by simp [Node.words, Stmt.words, FunctionDecl.words]) layered.1, _,
      declareReady_declares declares, placedRoutine_of_gives plain
        (fun _ bound => leads.walks inside (.functionBody declares bound)) walk⟩
  case classDecl =>
    obtain ⟨mid, parent', mid', _, after, declares, parents, walk, -, rfl⟩ := parts
    obtain ⟨isName, kept⟩ := Stmt.declared_kept layered rfl
    have declared := declareReady_declares declares
    obtain ⟨_, walk, -⟩ := inClassScopes_gives.1 walk
    have placed := leads.walks inside (.methods declares parents)
    have parents := superclass_gives.1 parents
    cases parent with
    | none =>
        obtain ⟨rfl, rfl⟩ := parents
        exact ⟨sane.plainName kept isName, _, _, _, declared.binds, rfl, by simp, _, placed,
          .methods walk⟩
    | some reference =>
        obtain ⟨-, _, read, rfl⟩ := parents
        obtain ⟨alike, rfl⟩ := readVariable_alike read
        refine ⟨sane.plainName kept isName, _, _, _, declared.binds, alike.views, ?_, _, placed,
          .methods walk⟩
        rintro _ ⟨⟩
        exact distance?_eq _ _
  case returns.none =>
    obtain ⟨-, rfl⟩ := parts
    trivial
  case returns.some =>
    obtain ⟨_, _, check, walk, rfl⟩ := parts
    obtain rfl := checkReturn_gives check
    exact ⟨_, _, leads.walks inside .returned, .expr walk⟩

theorem stmts_parts (leads : Leads W W') {rest : List Stmt}
    (h : Placed W (.stmts (s :: rest)) place place') :
    ∃ mid, Placed W' (.stmt s) place mid ∧ Placed W' (.stmts rest) mid place' := by
  obtain ⟨_, inside, made⟩ := h
  cases made with
  | @stmts original _ _ _ gives =>
  have parts := Stmt.resolveEach_gives.1 gives
  cases original with
  | nil => cases parts.1
  | cons =>
      obtain ⟨_, mid, _, first, others, same⟩ := parts
      cases same
      exact ⟨mid, ⟨_, leads.walks inside .statement, .stmt first⟩,
        ⟨_, leads.walks inside (.otherStatements first), .stmts others⟩⟩

theorem methods_parts (leads : Leads W W') {name : Token} {params : List Token} {body : List Stmt}
    {rest : List FunctionDecl}
    (h : Placed W (.methods (.mk name params body :: rest)) place place') :
    PlacedRoutine W' place.views params body ∧
      ∃ mid : Surroundings, mid.views = place.views ∧ Placed W' (.methods rest) mid place' := by
  obtain ⟨_, inside, made⟩ := h
  cases made with
  | @methods original _ _ _ gives =>
  have sane := leads.sane inside
  have parts := FunctionDecl.resolveEach_gives.1 gives
  cases original with
  | nil => cases parts.1
  | cons method others =>
      obtain ⟨name, params, body⟩ := method
      obtain ⟨_, mid, _, first, others, same⟩ := parts
      cases same
      have layered := sane.layered.1
      have plain := sane.plainParams (fun param inside => by
        simp [Node.words, FunctionDecl.rowWords, FunctionDecl.words, mem_nameWords inside])
        layered.2.1
      have alike := routine_alike first fun walk => Stmt.resolveEach_alike layered.2.2 walk
      exact ⟨placedRoutine_of_gives plain
          (fun _ bound => leads.walks inside (.methodBody bound)) first,
        mid, alike.views, _, leads.walks inside (.otherMethods first), .methods others⟩

end Placed

end TreeWalk
