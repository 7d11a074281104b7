import TreeWalk.Proofs.Run.Programs
import TreeWalk.Proofs.Run.ThisAndSuper

/-!
# Whole runs mirror each other

If a scene is faithful and a task is admitted on its machine, the run that keeps book does
to the machine what the evaluator does, and every comparison on the way comes out right.

## Implementation notes

The induction is on the fuel. That what is started is admitted comes from the safety of
the evaluator; that the frame of what is started knows its home comes from the book.
-/

namespace TreeWalk

open Eval Frames

variable {W : Spot → Prop} {P : Pending} {n : Nat} {s : Scene}

/-- A new frame knows what the frame around it knows, and does not bind `super`. -/
theorem newFrame_knows {p i : FrameId} {home : Home} {m m' : Machine} (h : m.frames.Knows p home)
    (inside : p < m.frames.size) (run : (newFrame p).Gives m i m') :
    i < m'.frames.size ∧ m'.frames.Knows i home ∧ m'.frames.local? i "super" = none := by
  cases run
  refine ⟨?_, h.push inside, ?_⟩
  · show m.frames.size < (m.frames.push (some p)).size
    rw [size_push]
    exact Nat.lt_succ_self _
  · show (m.frames.push (some p)).local? m.frames.size "super" = none
    rw [local?_push, if_pos rfl]

/-- The frame of an initializer binds `this` to the receiver of its home. -/
theorem initializer_mirrors {closure : Closure} {home : Home} (h : s.Faithful)
    (knows : s.machine.frames.Knows closure.frame home)
    (has : s.machine.frames.Has closure.frame "this") :
    Mirrors (thisOf closure.frame) (Told.receiverOf home) s := by
  obtain ⟨receiver, bound⟩ := Option.isSome_iff_exists.1 has
  have known : home.receiver = some receiver := by
    rw [← knows.receiver, get?_of_has has, bound]
  exact (Mirrors.pure h receiver).congr (thisOf_gives bound) (Told.receiverOf_gives known)

/-- What is bound is a closure. -/
theorem closure_of_bind {method bound : ClosureId} {receiver : Value} {m m' : Machine}
    (run : (Eval.bind method receiver).Gives m bound m') :
    ∃ closure, m'.heap.closures[bound]? = some closure := by
  simp only [Eval.bind, bind_gives] at run
  obtain ⟨closure, _, -, frame, _, -, _, m₁, -, last⟩ := run
  cases last.symm.trans (newClosure_gives _)
  exact ⟨_, Array.getElem?_push_size ..⟩

/-- With this much fuel the runs of all admitted tasks mirror each other. -/
structure MirrorsAt (W : Spot → Prop) (n : Nat) : Prop where
  evaluate : ∀ {P e s}, s.Faithful → Visit.Admitted W P ⟨n, .evaluate e, s.machine⟩ →
    Mirrors (evaluate n e) (Told.evaluate n e) s
  evaluateEach : ∀ {P items s}, s.Faithful →
    Visit.Admitted W P ⟨n, .evaluateEach items, s.machine⟩ →
    Mirrors (evaluateEach n items) (Told.evaluateEach n items) s
  apply : ∀ {P callee arguments s}, s.Faithful →
    Visit.Admitted W P ⟨n, .apply callee arguments, s.machine⟩ →
    Mirrors (apply n callee arguments) (Told.apply n callee arguments) s
  enter : ∀ {P closure home arguments s}, s.Faithful →
    closure.frame < s.machine.frames.size → s.machine.frames.Knows closure.frame home →
    Visit.Admitted W P ⟨n, .enter closure arguments, s.machine⟩ →
    Mirrors (enter n closure arguments) (Told.enter n closure home arguments) s
  execute : ∀ {P statement s}, s.Faithful →
    Visit.Admitted W P ⟨n, .execute statement, s.machine⟩ →
    Mirrors (execute n statement) (Told.execute n statement) s
  executeEach : ∀ {P body s}, s.Faithful →
    Visit.Admitted W P ⟨n, .executeEach body, s.machine⟩ →
    Mirrors (executeEach n body) (Told.executeEach n body) s

namespace MirrorsAt

theorem evaluate_succ {e : Expr} (known : Known W) (ih : MirrorsAt W n) (h : s.Faithful)
    (admitted : Visit.Admitted W P ⟨n + 1, .evaluate e, s.machine⟩) :
    Mirrors (TreeWalk.evaluate (n + 1) e) (Told.evaluate (n + 1) e) s := by
  have start {v : Visit} (starts : Starts ⟨n + 1, .evaluate e, s.machine⟩ v) : v.Admitted W P :=
    starts.admits known (keeps known n) admitted
  obtain ⟨place, place', placed, fits⟩ := admitted.admits
  refine Mirrors.check ?_
  replace h := h.checked
  cases e with
  | literal value => exact .pure h _
  | «variable» reference => exact .lift h (readReference_calm _)
  | assign reference value =>
      obtain ⟨-, -, -, plain⟩ := placed.expr_parts known
      refine (ih.evaluate h (start .assigned)).bind fun v s₁ _ _ _ h₁ => ?_
      exact (Mirrors.lift h₁ (writeReference_calm plain v)).bind fun _ _ _ _ _ h₂ => .pure h₂ _
  | this reference => exact (this_mirrors known h placed fits).compared
  | super reference method => exact (super_mirrors known h admitted.sound placed fits).compared
  | grouping inner => exact ih.evaluate h (start .grouping)
  | unary operator operand =>
      refine (ih.evaluate h (start .unary)).bind fun _ _ _ _ _ h₁ => ?_
      exact .lift h₁ (operate_calm _)
  | binary left operator right =>
      refine (ih.evaluate h (start .binaryLeft)).bind fun _ _ _ run _ h₁ => ?_
      refine (ih.evaluate h₁ (start (.binaryRight run))).bind fun _ _ _ _ _ h₂ => ?_
      exact .lift h₂ (operate_calm _)
  | logical left operator right =>
      refine (ih.evaluate h (start .logicalLeft)).bind fun v _ _ run _ h₁ => ?_
      dsimp only
      cases settled : if operator.kind = .orWord then v.isTruthy else !v.isTruthy with
      | true => exact .pure h₁ v
      | false => exact ih.evaluate h₁ (start (.logicalRight run settled))
  | conditional condition consequent alternative =>
      refine (ih.evaluate h (start .condition)).bind fun v _ _ run _ h₁ => ?_
      cases truthy : v.isTruthy with
      | true => exact ih.evaluate h₁ (start (.consequent run truthy))
      | false => exact ih.evaluate h₁ (start (.alternative run truthy))
  | comma items =>
      exact (ih.evaluateEach h (start .items)).bind fun _ _ _ _ _ h₁ => .pure h₁ _
  | call callee paren arguments =>
      refine (ih.evaluate h (start .callee)).bind fun f s₁ _ run _ h₁ => ?_
      refine (Mirrors.lift h₁ (calleeArity_calm f paren)).bind fun arity s₂ _ run₂ _ h₂ => ?_
      obtain ⟨same, takes⟩ := calleeArity_of_gives run₂
      split
      next => exact .lift h₂ (raise_calm _ _)
      next enough =>
        rw [← not_ne_iff.1 enough] at takes
        rw [← same] at run takes
        refine (ih.evaluateEach h₂ (start (.arguments run takes))).bind fun _ _ _ run₃ _ h₃ => ?_
        exact ih.apply h₃ (start (.called run takes run₃))
  | get object name =>
      refine (ih.evaluate h (start .getObject)).bind fun v _ _ _ _ h₁ => ?_
      cases v with
      | object id => exact (property_mirrors h₁ id name).compared
      | scalar | closure | classRef | clock => exact .lift h₁ (raise_calm _ _)
  | set object name value =>
      refine (ih.evaluate h (start .setObject)).bind fun v _ _ run _ h₁ => ?_
      cases v with
      | object id =>
          refine (ih.evaluate h₁ (start (.setValue run))).bind fun _ _ _ _ _ h₂ => ?_
          exact (Mirrors.lift h₂ (writeField_calm _ _ _)).bind fun _ _ _ _ _ h₃ => .pure h₃ _
      | scalar | closure | classRef | clock => exact .lift h₁ (raise_calm _ _)
  | lambda keyword params body => exact closeOver_mirrors h _ _ _

theorem evaluateEach_succ {items : List Expr} (known : Known W) (ih : MirrorsAt W n)
    (h : s.Faithful) (admitted : Visit.Admitted W P ⟨n + 1, .evaluateEach items, s.machine⟩) :
    Mirrors (TreeWalk.evaluateEach (n + 1) items) (Told.evaluateEach (n + 1) items) s := by
  have start {v : Visit} (starts : Starts ⟨n + 1, .evaluateEach items, s.machine⟩ v) :
      v.Admitted W P :=
    starts.admits known (keeps known n) admitted
  cases items with
  | nil => exact .pure h _
  | cons item rest =>
      refine (ih.evaluate h (start .item)).bind fun _ _ _ run _ h₁ => ?_
      exact (ih.evaluateEach h₁ (start (.otherItems run))).bind fun _ _ _ _ _ h₂ => .pure h₂ _

/-- A closure is entered at the home that the book has for it. -/
theorem enter_closure {id : ClosureId} {closure : Closure} {arguments : List Value}
    (ih : MirrorsAt W n) (h : s.Faithful)
    (found : s.machine.heap.closures[id]? = some closure)
    (admitted : Visit.Admitted W P ⟨n, .enter closure arguments, s.machine⟩) :
    Mirrors (closureOf id >>= fun closure => TreeWalk.enter n closure arguments)
      (Told.lift (closureOf id) >>= fun closure => Told.homeOf id >>= fun home =>
        Told.enter n closure home arguments) s := by
  obtain ⟨inside, home, noted, knows⟩ := h.closures found
  have own := closureOf_gives found
  refine (ih.enter h inside knows admitted).congr (bind_of_gives own) ?_
  rw [bind_of_gives (Told.lift_gives own)]
  exact bind_of_gives (Told.homeOf_gives noted)

theorem apply_succ {callee : Value} {arguments : List Value} (known : Known W)
    (ih : MirrorsAt W n) (h : s.Faithful)
    (admitted : Visit.Admitted W P ⟨n + 1, .apply callee arguments, s.machine⟩) :
    Mirrors (TreeWalk.apply (n + 1) callee arguments) (Told.apply (n + 1) callee arguments) s := by
  have start {v : Visit} (starts : Starts ⟨n + 1, .apply callee arguments, s.machine⟩ v) :
      v.Admitted W P :=
    starts.admits known (keeps known n) admitted
  cases callee with
  | closure id =>
      obtain ⟨closure, found, -⟩ := admitted.admits.1
      exact ih.enter_closure h found (start (.closure found))
  | classRef id =>
      refine (Mirrors.lift h (newObject_calm id)).bind fun object s₁ _ made _ h₁ => ?_
      have own : (findMethod id "init").Gives s₁.machine _ s₁.machine := findMethod_gives id "init"
      obtain ⟨none, told⟩ | ⟨method, superclass, declared, bound, told⟩ :=
        boundMethod_cases h₁ id "init" (.object object)
      · rw [none] at own
        exact (Mirrors.pure h₁ (Value.object object)).congr (bind_of_gives own)
          (bind_of_gives told)
      · rw [declared] at own
        refine (bound.bind fun bound s₂ _ made₂ _ h₂ => ?_).congr (bind_of_gives own)
          (bind_of_map told)
        obtain ⟨closure, found⟩ := closure_of_bind made₂
        have entered := ih.enter_closure h₂ found (start (.initializer made declared made₂ found))
        refine (entered.bind fun _ _ _ _ _ h₃ => .pure h₃ (Value.object object)).congr ?_ ?_
        · rw [bind_assoc]
        · simp only [bind_assoc]
  | clock => exact .lift h readClock_calm
  | scalar | object => exact .throw h _

theorem enter_succ {closure : Closure} {home : Home} {arguments : List Value} (known : Known W)
    (ih : MirrorsAt W n) (h : s.Faithful) (inside : closure.frame < s.machine.frames.size)
    (knows : s.machine.frames.Knows closure.frame home)
    (admitted : Visit.Admitted W P ⟨n + 1, .enter closure arguments, s.machine⟩) :
    Mirrors (TreeWalk.enter (n + 1) closure arguments)
      (Told.enter (n + 1) closure home arguments) s := by
  have start {v : Visit} (starts : Starts ⟨n + 1, .enter closure arguments, s.machine⟩ v) :
      v.Admitted W P :=
    starts.admits known (keeps known n) admitted
  obtain ⟨⟨⟨_, ⟨plain, -⟩, -⟩, initializer⟩, -, -⟩ := admitted.admits
  refine (Mirrors.lift h (newFrame_calm _)).bind fun outer s₁ _ run₁ grows₁ h₁ => ?_
  obtain ⟨inside₁, knows₁, -⟩ := newFrame_knows knows inside run₁
  refine (Mirrors.lift h₁ (defineEach_calm plain outer arguments)).bind
    fun _ s₂ _ run₂ grows₂ h₂ => ?_
  have knows₂ := knows₁.keep grows₂.keeps inside₁
  have inside₂ := Nat.lt_of_lt_of_le inside₁ grows₂.keeps.size
  refine (Mirrors.lift h₂ (newFrame_calm _)).bind fun inner s₃ _ run₃ grows₃ h₃ => ?_
  obtain ⟨inside₃, knows₃, unbound⟩ := newFrame_knows knows₂ inside₂ run₃
  have body := ih.executeEach (h₃.at inside₃ knows₃ unbound) (start (.body run₁ run₂ run₃))
  refine (body.inside h₃).bind fun completion s₄ _ _ grows₄ h₄ => ?_
  have keeps := (grows₁.keeps.trans grows₂.keeps).trans (grows₃.keeps.trans grows₄.keeps)
  cases isInitializer : closure.isInitializer with
  | false => exact .pure h₄ _
  | true =>
      have has : s₄.machine.frames.Has closure.frame "this" := by
        rw [Has, keeps.implicit _ inside _ not_isPlainName_this]
        exact initializer isInitializer
      exact (initializer_mirrors h₄ (knows.keep keeps inside) has).compared

/-- The frame of a block knows the home of the code around it. -/
theorem block_mirrors {body : List Stmt} (ih : MirrorsAt W n) (h : s.Faithful)
    (admitted : ∀ frame m, (newFrame s.machine.current).Gives s.machine frame m →
      Visit.Admitted W P ⟨n, .executeEach body, { m with current := frame }⟩) :
    Mirrors (TreeWalk.execute (n + 1) (.block body)) (do
      let s ← get
      let frame ← Told.lift (newFrame s.machine.current)
      Told.inside frame s.home (Told.executeEach n body)) s := by
  have run : Mirrors
      (newFrame s.machine.current >>= fun frame => inFrame frame (TreeWalk.executeEach n body))
      (Told.lift (newFrame s.machine.current) >>= fun frame =>
        Told.inside frame s.home (Told.executeEach n body)) s := by
    refine (Mirrors.lift h (newFrame_calm _)).bind fun frame s₁ _ made grows h₁ => ?_
    obtain ⟨inside, knows, unbound⟩ := newFrame_knows h.here h.inside made
    exact (ih.executeEach (h₁.at inside knows unbound) (admitted _ _ made)).inside h₁
  exact run.congr rfl rfl

theorem execute_succ {statement : Stmt} (known : Known W) (ih : MirrorsAt W n) (h : s.Faithful)
    (admitted : Visit.Admitted W P ⟨n + 1, .execute statement, s.machine⟩) :
    Mirrors (TreeWalk.execute (n + 1) statement) (Told.execute (n + 1) statement) s := by
  have start {v : Visit} (starts : Starts ⟨n + 1, .execute statement, s.machine⟩ v) :
      v.Admitted W (Task.opens s.machine.current (.execute statement) ++ P) :=
    starts.admits known (keeps known n) admitted
  obtain ⟨place, place', placed, -⟩ := admitted.admits
  have plain := placed.declared_plain known
  refine Mirrors.check ?_
  replace h := h.checked
  rcases statement with value | value | ⟨name, _ | initial⟩ | body |
    ⟨condition, consequent, alternative⟩ | ⟨condition, body⟩ | ⟨name, params, body⟩ |
    ⟨name, parent, methods⟩ | ⟨keyword, _ | value⟩
  case expression => exact (ih.evaluate h (start .value)).bind fun _ _ _ _ _ h₁ => .pure h₁ _
  case print =>
    refine (ih.evaluate h (start .printed)).bind fun v s₁ _ _ _ h₁ => ?_
    have printed : Mirrors (do Eval.print ((← get).heap.text v))
        (.lift do Eval.print ((← get).heap.text v)) s₁ :=
      .lift h₁ (.bind .get fun _ => print_calm _)
    exact (printed.bind fun _ _ _ _ _ h₂ => .pure h₂ Completion.normal).congr rfl rfl
  case varDecl.none =>
    exact (Mirrors.lift h (defineHere_calm (plain name rfl) _)).bind
      fun _ _ _ _ _ h₁ => .pure h₁ _
  case varDecl.some =>
    refine (ih.evaluate h (start .initial)).bind fun v s₁ _ _ _ h₁ => ?_
    exact (Mirrors.lift h₁ (defineHere_calm (plain name rfl) v)).bind
      fun _ _ _ _ _ h₂ => .pure h₂ _
  case block => exact ih.block_mirrors h fun _ _ made => start (.block made)
  case branch =>
    refine (ih.evaluate h (start .branchCondition)).bind fun v s₁ _ run _ h₁ => ?_
    cases truthy : v.isTruthy with
    | true => exact ih.execute h₁ (start (.branchConsequent run truthy))
    | false =>
        cases alternative with
        | none => exact .pure h₁ _
        | some other => exact ih.execute h₁ (start (.branchAlternative run truthy))
  case loop =>
    refine (ih.evaluate h (start .loopCondition)).bind fun v s₁ _ run _ h₁ => ?_
    cases truthy : v.isTruthy with
    | false => exact .pure h₁ _
    | true =>
        refine (ih.execute h₁ (start (.loopBody run truthy))).bind
          fun completion _ _ run₂ _ h₂ => ?_
        cases completion with
        | normal => exact ih.execute h₂ (start (.loopAgain run truthy run₂))
        | returned value => exact .pure h₂ _
  case functionDecl =>
    refine (closeOver_mirrors h (some name.lexeme) params body).bind fun v s₁ _ _ _ h₁ => ?_
    exact (Mirrors.lift h₁ (defineHere_calm (plain name rfl) v)).bind
      fun _ _ _ _ _ h₂ => .pure h₂ _
  case classDecl =>
    have bound {j x} {id : ClassId}
        (found : s.machine.frames.local? j x = some (.classRef id)) :
        id < s.machine.heap.classes.size := admitted.sound.locals found
    exact (declareClass_mirrors h (plain name rfl) bound).bind fun _ _ _ _ _ h₁ => .pure h₁ _
  case returns.none => exact .pure h _
  case returns.some => exact (ih.evaluate h (start .returned)).bind fun _ _ _ _ _ h₁ => .pure h₁ _

theorem executeEach_succ {body : List Stmt} (known : Known W) (ih : MirrorsAt W n)
    (h : s.Faithful) (admitted : Visit.Admitted W P ⟨n + 1, .executeEach body, s.machine⟩) :
    Mirrors (TreeWalk.executeEach (n + 1) body) (Told.executeEach (n + 1) body) s := by
  have start {v : Visit} (starts : Starts ⟨n + 1, .executeEach body, s.machine⟩ v) :
      v.Admitted W P :=
    starts.admits known (keeps known n) admitted
  cases body with
  | nil => exact .pure h _
  | cons statement rest =>
      refine (ih.execute h (start .statement)).bind fun completion _ _ run _ h₁ => ?_
      cases completion with
      | normal => exact ih.executeEach h₁ (start (.otherStatements run))
      | returned value => exact .pure h₁ _

end MirrorsAt

/-- Whatever the fuel is, the run that keeps book mirrors the evaluator. -/
theorem mirrorsAt (known : Known W) (fuel : Nat) : MirrorsAt W fuel := by
  induction fuel with
  | zero =>
      exact ⟨fun h _ => .throw h _, fun h _ => .throw h _, fun h _ => .throw h _,
        fun h _ _ _ => .throw h _, fun h _ => .throw h _, fun h _ => .throw h _⟩
  | succ n ih =>
      exact ⟨ih.evaluate_succ known, ih.evaluateEach_succ known, ih.apply_succ known,
        ih.enter_succ known, ih.execute_succ known, ih.executeEach_succ known⟩

end TreeWalk
