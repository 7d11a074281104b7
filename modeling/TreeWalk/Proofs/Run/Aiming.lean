import TreeWalk.Proofs.Run.Sequels
import TreeWalk.Proofs.Run.ThisAndSuper

/-!
# Where uses of `super` aim

A tree aims at a depth if every use of `super` in it that has a distance looks just past the
nearest frame that binds `this`, which lies at that depth outward, and if no name that the
tree binds is `this` or `super`. Trees that went through the scope rules aim at the depth of
their place, and trees that did not aim at any depth, since none of their uses has a distance.

## Implementation notes

A function adds two frames, for its parameters and its body. Around the methods of a class the
nearest frame that binds `this` is the one that binds them to their receiver, so they aim at a
depth of their own.
-/

namespace TreeWalk

open Surroundings

/-- A use looks past the frame at a depth, if it has a distance. -/
def Reference.AimsPast (reference : Reference) (depth : Option Nat) : Prop :=
  ∀ distance ∈ reference.distance, ∃ near, depth = some near ∧ distance = near + 1

mutual

/-- An expression aims at a depth. -/
def Expr.Aims (depth : Option Nat) : Expr → Prop
  | .literal _ | .variable _ | .this _ => True
  | .assign reference value => reference.name.IsPlain ∧ value.Aims depth
  | .super reference _ => reference.AimsPast depth
  | .grouping inner => inner.Aims depth
  | .unary _ operand => operand.Aims depth
  | .binary left _ right | .logical left _ right => left.Aims depth ∧ right.Aims depth
  | .conditional condition consequent alternative =>
    condition.Aims depth ∧ consequent.Aims depth ∧ alternative.Aims depth
  | .comma items => Expr.AllAim depth items
  | .call callee _ arguments => callee.Aims depth ∧ Expr.AllAim depth arguments
  | .get object _ => object.Aims depth
  | .set object _ value => object.Aims depth ∧ value.Aims depth
  | .lambda _ params body =>
    (∀ param ∈ params, param.IsPlain) ∧ Stmt.AllAim (depth.map (· + 2)) body

/-- Expressions each of which aims at a depth. -/
def Expr.AllAim (depth : Option Nat) : List Expr → Prop
  | [] => True
  | item :: others => item.Aims depth ∧ Expr.AllAim depth others

/-- A statement aims at a depth. -/
def Stmt.Aims (depth : Option Nat) : Stmt → Prop
  | .expression value | .print value | .returns _ (some value) => value.Aims depth
  | .varDecl name none => name.IsPlain
  | .varDecl name (some initial) => name.IsPlain ∧ initial.Aims depth
  | .block body => Stmt.AllAim (depth.map (· + 1)) body
  | .branch condition consequent none => condition.Aims depth ∧ consequent.Aims depth
  | .branch condition consequent (some alternative) =>
    condition.Aims depth ∧ consequent.Aims depth ∧ alternative.Aims depth
  | .loop condition body => condition.Aims depth ∧ body.Aims depth
  | .functionDecl function => function.name.IsPlain ∧ function.Aims depth
  | .classDecl name _ methods => name.IsPlain ∧ FunctionDecl.AllAim methods
  | .returns _ none => True

/-- Statements each of which aims at a depth. -/
def Stmt.AllAim (depth : Option Nat) : List Stmt → Prop
  | [] => True
  | statement :: others => statement.Aims depth ∧ Stmt.AllAim depth others

/-- A function that stands at a depth: its body aims two frames further. -/
def FunctionDecl.Aims (depth : Option Nat) : FunctionDecl → Prop
  | .mk _ params body =>
    (∀ param ∈ params, param.IsPlain) ∧ Stmt.AllAim (depth.map (· + 2)) body

/-- Methods each of which is made for a frame that binds `this`. -/
def FunctionDecl.AllAim : List FunctionDecl → Prop
  | [] => True
  | method :: others => method.Aims (some 0) ∧ FunctionDecl.AllAim others

end

theorem AreParameters.plain {params : List Token} (names : AreParameters params)
    (proper : ∀ t ∈ params, t.IsProper) : ∀ param ∈ params, param.IsPlain :=
  fun param among => (proper param among).identifier (names.2 param among)

mutual

/-- As it is read, an expression aims at any depth. -/
theorem Expr.Layered.aims {depth : Option Nat} : ∀ {e : Expr}, e.Layered →
    (∀ t, .kept t ∈ e.words → t.IsProper) → e.Aims depth
  | .literal _, _, _ | .variable _, _, _ | .this _, _, _ => trivial
  | .assign _ _, h, proper =>
    ⟨(proper _ (by simp [Expr.words])).identifier h.1.1,
      h.2.1.aims fun t among => proper t (by simp [Expr.words, among])⟩
  | .super _ _, h, _ => by
    intro distance located
    rw [h.1.2] at located
    cases located
  | .grouping inner, h, proper =>
    Expr.Layered.aims (e := inner) h fun t among => proper t (by simp [Expr.words, among])
  | .unary _ _, h, proper => h.2.1.aims fun t among => proper t (by simp [Expr.words, among])
  | .binary _ _ _, h, proper | .logical _ _ _, h, proper =>
    ⟨h.2.1.aims fun t among => proper t (by simp [Expr.words, among]),
      h.2.2.aims fun t among => proper t (by simp [Expr.words, among])⟩
  | .conditional _ _ _, h, proper =>
    ⟨h.1.aims fun t among => proper t (by simp [Expr.words, among]),
      h.2.2.1.aims fun t among => proper t (by simp [Expr.words, among]),
      h.2.2.2.aims fun t among => proper t (by simp [Expr.words, among])⟩
  | .comma _, h, proper => h.2.2.allAim proper
  | .call _ _ _, h, proper =>
    ⟨h.1.aims fun t among => proper t (by simp [Expr.words, among]),
      h.2.2.2.2.2.allAim fun t among => proper t (by simp [Expr.words, among])⟩
  | .get _ _, h, proper => h.1.aims fun t among => proper t (by simp [Expr.words, among])
  | .set _ _ _, h, proper =>
    ⟨h.1.aims fun t among => proper t (by simp [Expr.words, among]),
      h.2.2.2.1.aims fun t among => proper t (by simp [Expr.words, among])⟩
  | .lambda _ _ _, h, proper =>
    ⟨h.2.1.plain fun t among => proper t (by simp [Expr.words, mem_nameWords among]),
      h.2.2.allAim fun t among => proper t (by simp [Expr.words, among])⟩

theorem Expr.AllLayered.allAim {depth : Option Nat} : ∀ {items : List Expr},
    Expr.AllLayered items → (∀ t, .kept t ∈ Expr.listWords items → t.IsProper) →
    Expr.AllAim depth items
  | [], _, _ => trivial
  | _ :: _, h, proper =>
    ⟨h.1.aims fun t among => proper t (by simp [Expr.listWords, among]),
      h.2.allAim fun t among => proper t
        (by simp [Expr.listWords, Expr.kept_moreWords among])⟩

theorem Stmt.Layered.aims {depth : Option Nat} : ∀ {s : Stmt}, s.Layered →
    (∀ t, .kept t ∈ s.words → t.IsProper) → s.Aims depth
  | .expression _, h, proper | .print _, h, proper =>
    Expr.Layered.aims h fun t among => proper t (by simp [Stmt.words, among])
  | .varDecl _ none, h, proper => (proper _ (by simp [Stmt.words])).identifier h
  | .varDecl _ (some _), h, proper =>
    ⟨(proper _ (by simp [Stmt.words])).identifier h.1,
      h.2.aims fun t among => proper t (by simp [Stmt.words, among])⟩
  | .block _, h, proper =>
    Stmt.AllLayered.allAim h fun t among => proper t (by simp [Stmt.words, among])
  | .branch _ _ none, h, proper =>
    ⟨h.1.aims fun t among => proper t (by simp [Stmt.words, among]),
      h.2.1.aims fun t among => proper t (by simp [Stmt.words, among])⟩
  | .branch _ _ (some _), h, proper =>
    ⟨h.1.aims fun t among => proper t (by simp [Stmt.words, among]),
      h.2.1.aims fun t among => proper t (by simp [Stmt.words, among]),
      h.2.2.2.2.1.aims fun t among => proper t (by simp [Stmt.words, among])⟩
  | .loop _ _, h, proper =>
    ⟨h.1.aims fun t among => proper t (by simp [Stmt.words, among]),
      h.2.1.aims fun t among => proper t (by simp [Stmt.words, among])⟩
  | .functionDecl (.mk _ _ _), h, proper =>
    ⟨(proper _ (by simp [Stmt.words, FunctionDecl.words, FunctionDecl.name])).identifier h.1,
      FunctionDecl.Layered.aims h fun t among => proper t (by simp [Stmt.words, among])⟩
  | .classDecl _ none _, h, proper =>
    ⟨(proper _ (by simp [Stmt.words])).identifier h.1,
      h.2.allAim fun t among => proper t (by simp [Stmt.words, among])⟩
  | .classDecl _ (some _) _, h, proper =>
    ⟨(proper _ (by simp [Stmt.words])).identifier h.1,
      h.2.2.allAim fun t among => proper t (by simp [Stmt.words, among])⟩
  | .returns _ none, _, _ => trivial
  | .returns _ (some _), h, proper =>
    h.2.aims fun t among => proper t (by simp [Stmt.words, among])

theorem Stmt.AllLayered.allAim {depth : Option Nat} : ∀ {body : List Stmt},
    Stmt.AllLayered body → (∀ t, .kept t ∈ Stmt.rowWords body → t.IsProper) →
    Stmt.AllAim depth body
  | [], _, _ => trivial
  | _ :: _, h, proper =>
    ⟨h.1.aims fun t among => proper t (by simp [Stmt.rowWords, among]),
      h.2.allAim fun t among => proper t (by simp [Stmt.rowWords, among])⟩

theorem FunctionDecl.Layered.aims {depth : Option Nat} : ∀ {f : FunctionDecl}, f.Layered →
    (∀ t, .kept t ∈ f.words → t.IsProper) → f.Aims depth
  | .mk _ _ _, h, proper =>
    ⟨h.2.1.plain fun t among => proper t (by simp [FunctionDecl.words, mem_nameWords among]),
      h.2.2.allAim fun t among => proper t (by simp [FunctionDecl.words, among])⟩

theorem FunctionDecl.AllLayered.allAim : ∀ {methods : List FunctionDecl},
    FunctionDecl.AllLayered methods → (∀ t, .kept t ∈ FunctionDecl.rowWords methods → t.IsProper) →
    FunctionDecl.AllAim methods
  | [], _, _ => trivial
  | _ :: _, h, proper =>
    ⟨h.1.aims fun t among => proper t (by simp [FunctionDecl.rowWords, among]),
      h.2.allAim fun t among => proper t (by simp [FunctionDecl.rowWords, among])⟩

end

/-- How far outward the nearest view lies that binds `this`. -/
def thisDepth (views : List View) : Option Nat := views.findIdx? fun v => (v "this").isSome

variable {W : Spot → Prop} {place place' : Surroundings}

theorem thisDepth_cons {v : View} {views : List View} (unbound : v "this" = none) :
    thisDepth (v :: views) = (thisDepth views).map (· + 1) := by
  simp [thisDepth, List.findIdx?_cons, unbound]

theorem thisDepth_methods (hasSuperclass : Bool) (place : Surroundings) :
    thisDepth (methodsPlace hasSuperclass place).views = some 0 := by
  rw [methodsPlace_views]
  rfl

theorem thisDepth_block (place : Surroundings) :
    thisDepth (blockPlace place).views = (thisDepth place.views).map (· + 1) :=
  thisDepth_cons rfl

/-- Binding a name that is not `this` moves nothing. -/
theorem Binds.thisDepth_eq {name : Token} {ready : Bool} {views views' : List View}
    (binds : Binds name ready views views') (plain : name.IsPlain) :
    thisDepth views' = thisDepth views := by
  cases views with
  | nil => rw [show views' = [] from binds]
  | cons v outer =>
      obtain ⟨-, rfl⟩ := binds
      obtain ⟨same, -⟩ := View.bind_this v ready plain
      simp [thisDepth, List.findIdx?_cons, same]

/-- A use of `super` aims past the view that binds `this`. -/
theorem Placed.aimsPast {reference : Reference} {method : Token} (known : Known W)
    (placed : Placed W (.expr (.super reference method)) place place') :
    reference.AimsPast (thisDepth place.views) := by
  obtain ⟨inner, this, super, outer, cut, plain, bindsThis, -, -, located⟩ :=
    placed.super_parts known
  intro distance found
  have near : thisDepth place.views = some inner.length := by
    rw [cut]
    exact findIdx?_view (fun v among => (plain v among).1) (by rw [bindsThis.1]; rfl)
  cases located.symm.trans found
  exact ⟨_, near, rfl⟩

/-- A function aims where its place says if its body does. -/
theorem PlacedRoutine.aims {params : List Token} {body : List Stmt} {views : List View}
    (routine : PlacedRoutine W views params body)
    (inside : ∀ {place place'}, Placed W (.stmts body) place place' →
      Stmt.AllAim (thisDepth place.views) body) :
    (∀ param ∈ params, param.IsPlain) ∧ Stmt.AllAim ((thisDepth views).map (· + 2)) body := by
  obtain ⟨plain, -, v, mid, after, cut, isPlain, -, placed⟩ := routine
  have aims := inside placed
  rw [thisDepth_block, cut, thisDepth_cons isPlain.1, Option.map_map] at aims
  exact ⟨plain, aims⟩

theorem Placed.thisDepth_expr {e : Expr} (known : Known W)
    (placed : Placed W (.expr e) place place') :
    thisDepth place'.views = thisDepth place.views := by
  rw [(placed.expr_alike known).views]

theorem Placed.thisDepth_stmt {s : Stmt} (known : Known W)
    (placed : Placed W (.stmt s) place place') :
    thisDepth place'.views = thisDepth place.views := by
  have after := placed.stmt_after known
  cases declared : s.declared? with
  | none =>
      rw [declared] at after
      rw [after.views]
  | some name =>
      rw [declared] at after
      exact after.binds.thisDepth_eq (placed.declared_plain known name declared)

mutual

/-- An expression with its distances aims at the depth of its place. -/
theorem Placed.expr_aims (known : Known W) : ∀ {e : Expr} {place place' : Surroundings},
    Placed W (.expr e) place place' → e.Aims (thisDepth place.views)
  | .literal _, _, _, _ | .variable _, _, _, _ | .this _, _, _, _ => trivial
  | .assign _ _, _, _, placed => by
    obtain ⟨mid, value, -, plain⟩ := placed.expr_parts known
    exact ⟨plain, Placed.expr_aims known value⟩
  | .super _ _, _, _, placed => placed.aimsPast known
  | .grouping inner, _, _, placed => by
    obtain ⟨after, inside⟩ := placed.expr_parts known
    exact Placed.expr_aims (e := inner) known inside
  | .unary _ operand, _, _, placed => by
    obtain ⟨after, inside⟩ := placed.expr_parts known
    exact Placed.expr_aims (e := operand) known inside
  | .binary _ _ _, _, _, placed | .logical _ _ _, _, _, placed => by
    obtain ⟨mid, after, left, right⟩ := placed.expr_parts known
    have second := Placed.expr_aims known right
    rw [left.thisDepth_expr known] at second
    exact ⟨Placed.expr_aims known left, second⟩
  | .conditional _ _ _, _, _, placed => by
    obtain ⟨mid, mid', after, first, second, third⟩ := placed.expr_parts known
    have consequent := Placed.expr_aims known second
    have alternative := Placed.expr_aims known third
    rw [second.thisDepth_expr known, first.thisDepth_expr known] at alternative
    rw [first.thisDepth_expr known] at consequent
    exact ⟨Placed.expr_aims known first, consequent, alternative⟩
  | .comma _, _, _, placed => by
    obtain ⟨after, items⟩ := placed.expr_parts known
    exact Placed.exprs_aim known items
  | .call _ _ _, _, _, placed => by
    obtain ⟨mid, after, callee, arguments⟩ := placed.expr_parts known
    have others := Placed.exprs_aim known arguments
    rw [callee.thisDepth_expr known] at others
    exact ⟨Placed.expr_aims known callee, others⟩
  | .get object _, _, _, placed => by
    obtain ⟨after, inside⟩ := placed.expr_parts known
    exact Placed.expr_aims (e := object) known inside
  | .set _ _ _, _, _, placed => by
    obtain ⟨mid, after, value, object⟩ := placed.expr_parts known
    have second := Placed.expr_aims known object
    rw [value.thisDepth_expr known] at second
    exact ⟨second, Placed.expr_aims known value⟩
  | .lambda _ _ _, _, _, placed =>
    PlacedRoutine.aims (placed.expr_parts known) fun body => Placed.stmts_aim known body

theorem Placed.exprs_aim (known : Known W) : ∀ {items : List Expr} {place place' : Surroundings},
    Placed W (.exprs items) place place' → Expr.AllAim (thisDepth place.views) items
  | [], _, _, _ => trivial
  | _ :: _, _, _, placed => by
    obtain ⟨mid, first, others⟩ := placed.exprs_parts known
    have rest := Placed.exprs_aim known others
    rw [first.thisDepth_expr known] at rest
    exact ⟨Placed.expr_aims known first, rest⟩

theorem Placed.stmt_aims (known : Known W) : ∀ {s : Stmt} {place place' : Surroundings},
    Placed W (.stmt s) place place' → s.Aims (thisDepth place.views)
  | .expression value, _, _, placed | .print value, _, _, placed
  | .returns _ (some value), _, _, placed => by
    obtain ⟨after, inside⟩ := placed.stmt_parts known
    exact Placed.expr_aims (e := value) known inside
  | .varDecl _ none, _, _, placed => placed.stmt_parts known
  | .varDecl _ (some _), _, _, placed => by
    obtain ⟨plain, mid, after, declares, initial⟩ := placed.stmt_parts known
    have inside := Placed.expr_aims known initial
    rw [declares.binds.thisDepth_eq plain] at inside
    exact ⟨plain, inside⟩
  | .block body, _, _, placed => by
    obtain ⟨after, inside⟩ := placed.stmt_parts known
    have aims : Stmt.AllAim _ body := Placed.stmts_aim known inside
    rwa [thisDepth_block] at aims
  | .branch _ _ alternative, _, _, placed => by
    obtain ⟨mid, mid', first, second, -, others⟩ := placed.stmt_parts known
    have condition := Placed.expr_aims known first
    have consequent := Placed.stmt_aims known second
    rw [first.thisDepth_expr known] at consequent
    match alternative with
    | none => exact ⟨condition, consequent⟩
    | some _ =>
      obtain ⟨after, third, -⟩ := others _ rfl
      have alternative := Placed.stmt_aims known third
      rw [second.thisDepth_stmt known, first.thisDepth_expr known] at alternative
      exact ⟨condition, consequent, alternative⟩
  | .loop _ _, _, _, placed => by
    obtain ⟨mid, after, first, second, -⟩ := placed.stmt_parts known
    have body := Placed.stmt_aims known second
    rw [first.thisDepth_expr known] at body
    exact ⟨Placed.expr_aims known first, body⟩
  | .functionDecl (.mk _ _ _), _, _, placed => by
    obtain ⟨plain, mid, declares, routine⟩ := placed.stmt_parts known
    have inside := routine.aims fun body => Placed.stmts_aim known body
    rw [declares.binds.thisDepth_eq plain] at inside
    exact ⟨plain, inside⟩
  | .classDecl _ _ _, _, _, placed => by
    obtain ⟨plain, mid, mid', after, -, -, -, methods⟩ := placed.stmt_parts known
    exact ⟨plain, Placed.methods_aim known methods (thisDepth_methods _ _)⟩
  | .returns _ none, _, _, _ => trivial

theorem Placed.stmts_aim (known : Known W) : ∀ {body : List Stmt} {place place' : Surroundings},
    Placed W (.stmts body) place place' → Stmt.AllAim (thisDepth place.views) body
  | [], _, _, _ => trivial
  | _ :: _, _, _, placed => by
    obtain ⟨mid, first, others⟩ := placed.stmts_parts known
    have rest := Placed.stmts_aim known others
    rw [first.thisDepth_stmt known] at rest
    exact ⟨Placed.stmt_aims known first, rest⟩

theorem Placed.methods_aim (known : Known W) :
    ∀ {methods : List FunctionDecl} {place place' : Surroundings},
    Placed W (.methods methods) place place' → thisDepth place.views = some 0 →
    FunctionDecl.AllAim methods
  | [], _, _, _, _ => trivial
  | .mk _ _ _ :: _, _, _, placed, near => by
    obtain ⟨routine, mid, same, others⟩ := placed.methods_parts known
    have inside := routine.aims fun body => Placed.stmts_aim known body
    rw [near] at inside
    exact ⟨inside, Placed.methods_aim known others (by rw [same, near])⟩

end

theorem Stmt.allAim_iff {depth : Option Nat} {body : List Stmt} :
    Stmt.AllAim depth body ↔ ∀ s ∈ body, s.Aims depth := by
  induction body with
  | nil => simp [Stmt.AllAim]
  | cons s rest ih => simp [Stmt.AllAim, ih]

theorem prepareSource_aims {source : String} {program : List Stmt} {uses : Nat}
    (prepared : (prepareSource source).result = .ok (program, uses)) :
    ∀ s ∈ program, s.Aims none := by
  obtain ⟨after, placed⟩ : ∃ after,
      Placed (WalkedIn [(.run 1, source)]) (.stmts program) .initial after :=
    placed_prepared prepared
  exact Stmt.allAim_iff.1 (placed.stmts_aim (walkedIn_known _))

theorem parseSource_aims {source : String} {program : List Stmt}
    (parsed : (parseSource source).result = .ok program) : ∀ s ∈ program, s.Aims none := by
  obtain ⟨tokens, rest, scanned, read⟩ := parseSource_ok parsed
  obtain ⟨accounts, layered, -⟩ := Grammar.items_accounts (Grammar.read_eq_ok.1 read)
  exact Stmt.allAim_iff.1 (layered.allAim (accounts.proper (scanSource_proper scanned)))

theorem prepareExpression_aims {source : String} {e : Expr} {uses : Nat}
    (prepared : parseExpression source >>= resolveExpression = .ok (e, uses)) : e.Aims none := by
  obtain ⟨after, placed⟩ : ∃ after,
      Placed (WalkedIn [(.evaluate, source)]) (.expr e) .initial after := placed_expression prepared
  exact placed.expr_aims (walkedIn_known _)

theorem parseExpression_aims {source : String} {e : Expr}
    (parsed : parseExpression source = .ok e) : e.Aims none := by
  obtain ⟨tokens, rest, scanned, read⟩ := parseExpression_ok parsed
  obtain ⟨accounts, layered, -⟩ := Grammar.loneExpression_accounts (Grammar.read_eq_ok.1 read)
  exact layered.aims (accounts.proper (scanSource_proper scanned))

/-- What a step runs stands outside of every method. -/
theorem Step.statements_aim {step : Step} {body : List Stmt} (work : step.work = .statements body) :
    ∀ s ∈ body, s.Aims none :=
  step.forall_statements prepareSource_aims parseSource_aims work

theorem Step.expression_aims {step : Step} {e : Expr} (work : step.work = .expression e) :
    e.Aims none :=
  step.of_expression prepareExpression_aims parseExpression_aims work

end TreeWalk
