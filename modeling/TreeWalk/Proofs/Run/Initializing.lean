import TreeWalk.Proofs.Run.Maintaining
import TreeWalk.Proofs.Run.Passing

/-!
# Runs keep initializers bound

Whatever tree is run on a bound machine, if it aims at the depth of the current frame, leaves a
bound machine, and what an initializer gives is what its frame binds to `this`.

## Implementation notes

The body of an initializer may do anything: it may run to its end or return a value from
within blocks and loops. What its frame binds to `this` is retained by all of it, so the
value of the call is the object that it was bound to.
-/

namespace TreeWalk

open Eval

variable {n : Nat} {m m' m₁ : Machine}

/-- Trees that aim at the depth of a frame aim there on the machines that go on from it. -/
theorem Machine.Onward.exprAims {e : Expr} (onward : m.Onward m₁) (bound : m.Bound)
    (aims : e.Aims m.thisDepth) : e.Aims m₁.thisDepth := by
  rwa [onward.thisDepth_eq bound]

theorem Machine.Onward.exprsAim {items : List Expr} (onward : m.Onward m₁) (bound : m.Bound)
    (aims : Expr.AllAim m.thisDepth items) : Expr.AllAim m₁.thisDepth items := by
  rwa [onward.thisDepth_eq bound]

theorem Machine.Onward.stmtAims {s : Stmt} (onward : m.Onward m₁) (bound : m.Bound)
    (aims : s.Aims m.thisDepth) : s.Aims m₁.thisDepth := by
  rwa [onward.thisDepth_eq bound]

theorem Machine.Onward.stmtsAim {body : List Stmt} (onward : m.Onward m₁) (bound : m.Bound)
    (aims : Stmt.AllAim m.thisDepth body) : Stmt.AllAim m₁.thisDepth body := by
  rwa [onward.thisDepth_eq bound]

/-- The postcondition of a statement: the value that it returns may be called. -/
abbrev ReturnsReady (completion : Completion) (m' : Machine) : Prop :=
  m'.heap.Ready completion.value

/-- The postcondition of a function: its value may be called, and that of an initializer is what
its frame binds to `this`. -/
def GivesReceiver (closure : Closure) (m : Machine) (v : Value) (m' : Machine) : Prop :=
  m'.heap.Ready v ∧
    (closure.isInitializer = true → m.heap.frames.local? closure.frame "this" = some v)

/-- The frame in which the body of a closure runs, inside of one that binds the parameters. -/
def bodyFrame (closure : Closure) (arguments : List Value) : Eval FrameId := do
  let outer ← newFrame closure.frame
  defineEach outer closure.params arguments
  newFrame outer

/-- The frame of a body is two further from the nearest `this` than the frame of its closure. -/
theorem bodyFrame_maintains {closure : Closure} {arguments : List Value} (bound : m.Bound)
    (run : m.heap.CanRun closure) (each : ∀ v ∈ arguments, m.heap.Ready v) :
    (bodyFrame closure arguments).Maintains m fun inner m' => inner < m'.heap.frames.size ∧
      Stmt.AllAim (Machine.thisDepth { m' with current := inner }) closure.body := by
  refine (newFrame_maintains bound run.inside).bind fun {outer m₁} bound₁ onward₁ made₁ => ?_
  have each₁ : ∀ v ∈ arguments, m₁.heap.Ready v := fun v among =>
    (each v among).later onward₁.retains
  refine (defineEach_maintains bound₁ run.aims.params each₁ outer).bind
    fun {_ m₂} bound₂ onward₂ _ => ?_
  have inside₂ := Nat.lt_of_lt_of_le made₁.1 onward₂.retains.frames.size
  refine (newFrame_maintains bound₂ inside₂).mono fun inner m₃ made₃ => ⟨made₃.1, ?_⟩
  have depth : m₃.heap.frames.thisDepth inner =
      (m.heap.frames.thisDepth closure.frame).map (· + 2) := by
    rw [made₃.2, onward₂.retains.frames.thisDepth_eq made₁.1, made₁.2, Option.map_map]
    rfl
  rw [Machine.thisDepth, depth]
  exact run.aims.body

/-- With this much fuel the evaluator keeps initializers bound. -/
structure MaintainsAt (n : Nat) : Prop where
  evaluate : ∀ {m e}, m.Bound → e.Aims m.thisDepth → (evaluate n e).MaintainsValue m
  evaluateEach : ∀ {m items}, m.Bound → Expr.AllAim m.thisDepth items →
    (evaluateEach n items).Maintains m fun values m' => ∀ v ∈ values, m'.heap.Ready v
  apply : ∀ {m callee arguments}, m.Bound → m.heap.Ready callee →
    (∀ v ∈ arguments, m.heap.Ready v) → (apply n callee arguments).MaintainsValue m
  enter : ∀ {m closure arguments}, m.Bound → m.heap.CanRun closure →
    (∀ v ∈ arguments, m.heap.Ready v) →
    (enter n closure arguments).Maintains m (GivesReceiver closure m)
  execute : ∀ {m s}, m.Bound → s.Aims m.thisDepth → (execute n s).Maintains m ReturnsReady
  executeEach : ∀ {m body}, m.Bound → Stmt.AllAim m.thisDepth body →
    (executeEach n body).Maintains m ReturnsReady

namespace MaintainsAt

theorem evaluate_succ (ih : MaintainsAt n) {e : Expr} (bound : m.Bound)
    (aims : e.Aims m.thisDepth) : (TreeWalk.evaluate (n + 1) e).MaintainsValue m := by
  cases e with
  | literal => exact .pure bound trivial
  | «variable» | this => exact readReference_maintains bound _
  | assign reference value =>
      obtain ⟨plain, aims⟩ := aims
      refine (ih.evaluate bound aims).bind fun bound₁ _ ready => ?_
      refine (writeReference_maintains bound₁ plain ready).bind fun bound₂ onward _ => ?_
      exact .pure bound₂ (ready.later onward.retains)
  | super reference method =>
      exact (readSuper_maintains bound aims method).mono fun _ _ ⟨_, _, isBound⟩ => isBound.ready
  | grouping inner => exact ih.evaluate (e := inner) bound aims
  | unary _ operand =>
      exact (ih.evaluate (e := operand) bound aims).bind fun bound₁ _ _ =>
        operate_maintains bound₁ (Operators.unary_fair _ _)
  | binary left _ right =>
      obtain ⟨first, second⟩ := aims
      exact (ih.evaluate bound first).bind fun bound₁ onward _ =>
        (ih.evaluate bound₁ (onward.exprAims bound second)).bind fun bound₂ _ _ =>
        operate_maintains bound₂ (Operators.binary_fair _ _ _)
  | logical left operator right =>
      obtain ⟨first, second⟩ := aims
      refine (ih.evaluate bound first).bind fun {v _} bound₁ onward ready => ?_
      cases (if operator.kind = .orWord then v.isTruthy else !v.isTruthy) with
      | true => exact .pure bound₁ ready
      | false => exact ih.evaluate bound₁ (onward.exprAims bound second)
  | conditional condition consequent alternative =>
      obtain ⟨first, second, third⟩ := aims
      refine (ih.evaluate bound first).bind fun {v _} bound₁ onward _ => ?_
      cases v.isTruthy with
      | true => exact ih.evaluate bound₁ (onward.exprAims bound second)
      | false => exact ih.evaluate bound₁ (onward.exprAims bound third)
  | comma items =>
      refine (ih.evaluateEach bound aims).bind fun {values _} bound₁ _ ready => ?_
      refine .pure bound₁ ?_
      rw [List.getLastD_eq_getLast?]
      cases last : values.getLast? with
      | none => trivial
      | some v => exact ready v (List.mem_of_getLast? last)
  | call callee paren arguments =>
      obtain ⟨first, others⟩ := aims
      refine (ih.evaluate bound first).bind fun {f _} bound₁ onward ready => ?_
      refine .inspect_bind bound₁ fun {arity} _ => ?_
      by_cases same : arguments.length = arity
      · rw [if_neg (not_not.2 same)]
        refine (ih.evaluateEach bound₁ (onward.exprsAim bound others)).bind
          fun bound₂ onward' each => ?_
        exact ih.apply bound₂ (ready.later onward'.retains) each
      · rw [if_pos same]
        exact .throw bound₁ _
  | get object name =>
      refine (ih.evaluate (e := object) bound aims).bind fun {v _} bound₁ _ _ => ?_
      cases v with
      | object id => exact (readProperty_maintains bound₁ _ _).mono fun _ _ post => post.1
      | scalar | closure | classRef | clock => exact .throw bound₁ _
  | set object name value =>
      obtain ⟨first, second⟩ := aims
      refine (ih.evaluate bound first).bind fun {v _} bound₁ onward _ => ?_
      cases v with
      | object id =>
          refine (ih.evaluate bound₁ (onward.exprAims bound second)).bind
            fun bound₂ _ ready => ?_
          refine (writeField_maintains bound₂ ready _ _).bind fun bound₃ onward' _ => ?_
          exact .pure bound₃ (ready.later onward'.retains)
      | scalar | closure | classRef | clock => exact .throw bound₁ _
  | lambda keyword params body => exact closeOver_maintains bound aims.1 aims.2 none

theorem evaluateEach_succ (ih : MaintainsAt n) {items : List Expr} (bound : m.Bound)
    (aims : Expr.AllAim m.thisDepth items) :
    (TreeWalk.evaluateEach (n + 1) items).Maintains m fun values m' =>
      ∀ v ∈ values, m'.heap.Ready v := by
  cases items with
  | nil => exact .pure bound nofun
  | cons item rest =>
      obtain ⟨first, others⟩ := aims
      refine (ih.evaluate bound first).bind fun {v _} bound₁ onward ready => ?_
      refine (ih.evaluateEach bound₁ (onward.exprsAim bound others)).bind
        fun bound₂ onward' each => .pure bound₂ ?_
      rintro w (_ | ⟨_, among⟩)
      · exact ready.later onward'.retains
      · exact each w among

theorem apply_succ (ih : MaintainsAt n) {callee : Value} {arguments : List Value}
    (bound : m.Bound) (ready : m.heap.Ready callee) (each : ∀ v ∈ arguments, m.heap.Ready v) :
    (TreeWalk.apply (n + 1) callee arguments).MaintainsValue m := by
  cases callee with
  | closure id =>
      obtain ⟨closure, found, run⟩ := ready
      refine (closureOf_maintains bound id).bind fun {entered _} bound₁ onward again => ?_
      have same := again.symm.trans (onward.retains.closures found)
      cases same
      have each₁ := fun v among => (each v among).later onward.retains
      exact (ih.enter bound₁ (run.later onward.retains) each₁).mono fun _ _ post => post.1
  | classRef id =>
      refine (newObject_maintains bound id).bind fun {object _} bound₁ onward₁ _ => ?_
      refine .inspect_bind bound₁ fun {initializer} looked => ?_
      have looked := Except.ok.inj looked
      cases initializer with
      | none => exact .pure bound₁ trivial
      | some method =>
          obtain ⟨closure, found, isMethod⟩ := method_of_bound bound₁.heap looked
          refine (bind_maintains bound₁ found isMethod object).bind
            fun {id' _} bound₂ onward₂ post => ?_
          obtain ⟨closure', made, binds⟩ := post
          refine (closureOf_maintains bound₂ id').bind fun {entered _} bound₃ onward₃ again => ?_
          have same := again.symm.trans (onward₃.retains.closures made)
          cases same
          have onward := (onward₁.trans onward₂).trans onward₃
          refine (ih.enter bound₃ (binds.run.later onward₃.retains)
            fun v among => (each v among).later onward.retains).bind fun bound₄ _ _ => ?_
          exact .pure bound₄ trivial
  | clock => exact readClock_maintains bound
  | scalar | object => exact .throw bound _

/-- What the body of an initializer does, its frame binds `this` to the same object behind it. -/
theorem enter_succ (ih : MaintainsAt n) {closure : Closure} {arguments : List Value}
    (bound : m.Bound) (run : m.heap.CanRun closure) (each : ∀ v ∈ arguments, m.heap.Ready v) :
    (TreeWalk.enter (n + 1) closure arguments).Maintains m (GivesReceiver closure m) := by
  have framed : TreeWalk.enter (n + 1) closure arguments =
      bodyFrame closure arguments >>= fun inner => do
        let completion ← inFrame inner (TreeWalk.executeEach n closure.body)
        if closure.isInitializer then thisOf closure.frame else return completion.value := by
    simp only [TreeWalk.enter, Clauses.enter, bodyFrame, bind_assoc]
  rw [framed]
  refine (bodyFrame_maintains bound run each).bind fun {inner m₁} bound₁ onward₁ post => ?_
  obtain ⟨inside, aims⟩ := post
  have body := ih.executeEach (m := { m₁ with current := inner }) ⟨bound₁.heap, inside⟩ aims
  refine (Maintains.inFrame (Q := ReturnsReady) bound₁ body).bind
    fun {completion m₂} bound₂ onward₂ returns => ?_
  have retains := (onward₁.trans onward₂).retains
  cases initializer : closure.isInitializer with
  | true =>
      refine (thisOf_maintains bound₂ closure.frame).mono fun v m' post => ?_
      obtain ⟨rfl, o, rfl, held⟩ := post
      refine ⟨trivial, fun _ => ?_⟩
      rwa [← retains.frames.implicit _ run.inside _ not_isPlainName_this]
  | false => exact .pure bound₂ ⟨returns, fun other => by rw [initializer] at other; cases other⟩

theorem execute_succ (ih : MaintainsAt n) {s : Stmt} (bound : m.Bound) (aims : s.Aims m.thisDepth) :
    (TreeWalk.execute (n + 1) s).Maintains m ReturnsReady := by
  rcases s with value | value | ⟨_, _ | initial⟩ | body | ⟨condition, consequent, alternative⟩ |
    ⟨condition, body⟩ | ⟨⟨_, params, body⟩⟩ | ⟨_, parent, _⟩ | ⟨_, _ | value⟩
  case expression =>
    exact (ih.evaluate (e := value) bound aims).bind fun bound₁ _ _ => .pure bound₁ trivial
  case print =>
    refine (ih.evaluate (e := value) bound aims).bind fun bound₁ _ _ => .get_bind ?_
    exact (print_maintains bound₁ _).bind fun bound₂ _ _ => .pure bound₂ trivial
  case varDecl.none =>
    exact (defineHere_maintains (v := .nil) bound aims trivial).bind fun bound₁ _ _ =>
      .pure bound₁ trivial
  case varDecl.some =>
    obtain ⟨plain, aims⟩ := aims
    refine (ih.evaluate bound aims).bind fun bound₁ _ ready => ?_
    exact (defineHere_maintains bound₁ plain ready).bind fun bound₂ _ _ => .pure bound₂ trivial
  case block =>
    refine .get_bind ((newFrame_maintains bound bound.inside).bind
      fun {frame m₁} bound₁ _ made => ?_)
    have aims : Stmt.AllAim (Machine.thisDepth { m₁ with current := frame }) body := by
      rw [Machine.thisDepth, made.2]
      exact aims
    exact .inFrame bound₁ (ih.executeEach (m := { m₁ with current := frame })
      ⟨bound₁.heap, made.1⟩ aims)
  case branch =>
    cases alternative with
    | none =>
        obtain ⟨first, second⟩ := aims
        refine (ih.evaluate bound first).bind fun {v _} bound₁ onward _ => ?_
        cases v.isTruthy with
        | true => exact ih.execute bound₁ (onward.stmtAims bound second)
        | false => exact .pure bound₁ trivial
    | some statement =>
        obtain ⟨first, second, third⟩ := aims
        refine (ih.evaluate bound first).bind fun {v _} bound₁ onward _ => ?_
        cases v.isTruthy with
        | true => exact ih.execute bound₁ (onward.stmtAims bound second)
        | false => exact ih.execute bound₁ (onward.stmtAims bound third)
  case loop =>
    have again := aims
    obtain ⟨first, second⟩ := aims
    refine (ih.evaluate bound first).bind fun {v _} bound₁ onward _ => ?_
    cases v.isTruthy with
    | false => exact .pure bound₁ trivial
    | true =>
        refine (ih.execute bound₁ (onward.stmtAims bound second)).bind
          fun {completion _} bound₂ onward' returns => ?_
        cases completion with
        | normal => exact ih.execute bound₂ ((onward.trans onward').stmtAims bound again)
        | returned => exact .pure bound₂ returns
  case functionDecl =>
    obtain ⟨plain, params, aims⟩ := aims
    refine (closeOver_maintains bound params aims _).bind fun bound₁ _ ready => ?_
    exact (defineHere_maintains bound₁ plain ready).bind fun bound₂ _ _ => .pure bound₂ trivial
  case classDecl =>
    exact (declareClass_maintains bound aims.1 aims.2 parent).bind fun bound₁ _ _ =>
      .pure bound₁ trivial
  case returns.none => exact .pure bound trivial
  case returns.some =>
    exact (ih.evaluate (e := value) bound aims).bind fun bound₁ _ ready => .pure bound₁ ready

theorem executeEach_succ (ih : MaintainsAt n) {body : List Stmt} (bound : m.Bound)
    (aims : Stmt.AllAim m.thisDepth body) :
    (TreeWalk.executeEach (n + 1) body).Maintains m ReturnsReady := by
  cases body with
  | nil => exact .pure bound trivial
  | cons s rest =>
      obtain ⟨first, others⟩ := aims
      refine (ih.execute bound first).bind fun {completion _} bound₁ onward returns => ?_
      cases completion with
      | normal => exact ih.executeEach bound₁ (onward.stmtsAim bound others)
      | returned => exact .pure bound₁ returns

end MaintainsAt

/-- Whatever the fuel is, the evaluator keeps initializers bound. -/
theorem maintainsAt (fuel : Nat) : MaintainsAt fuel := by
  induction fuel with
  | zero =>
      exact ⟨fun bound _ => .throw bound _, fun bound _ => .throw bound _,
        fun bound _ _ => .throw bound _, fun bound _ _ => .throw bound _,
        fun bound _ => .throw bound _, fun bound _ => .throw bound _⟩
  | succ n ih =>
      exact ⟨ih.evaluate_succ, ih.evaluateEach_succ, ih.apply_succ, ih.enter_succ,
        ih.execute_succ, ih.executeEach_succ⟩

end TreeWalk
