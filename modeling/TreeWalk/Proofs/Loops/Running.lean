import TreeWalk.Proofs.Loops.Classes
import TreeWalk.Proofs.Loops.Evaluators

/-!
# Counting loops run as they are written

A tree runs on a machine as its thinned tree runs without the frames of passes, if there counting
loops are run as such: both come to the same value or completion, or stop for the same reason,
and afterwards the one machine is again the other one without the frames of passes.

## Implementation notes

The induction is on the fuel, which is the same on both sides. Of a pass the frame is left out,
and the two steps of fuel that went into its block are spent as well, so the increment is three
steps below and all smaller amounts of fuel are needed.
-/

namespace TreeWalk

namespace Erasure

open Eval

variable {α β : Type} {E E' : Erasure} {m m' d : Machine} {Q : Knowing α β} {n : Nat}

/-- The completions are the same. -/
def SameCompletion : Knowing Completion Completion := fun E h c c' => c' = c ∧ E.Ready h c.value

/-- The completions of two runs are one completion. -/
theorem Agrees.completed {a b : Eval Completion} {f : Completion → Eval α} {g : Completion → Eval β}
    (first : E.Agrees m SameCompletion a b)
    (next : ∀ {E' m'} completion, E.Onward m E' m' → E'.Ready m'.heap completion.value →
      E'.Agrees m' Q (f completion) (g completion)) :
    E.Agrees m Q (a >>= f) (b >>= g) := by
  refine first.bind fun onward known => ?_
  obtain ⟨rfl, ready⟩ := known
  exact next _ onward ready

theorem Agrees.gives {v : Value} (ready : E.Ready m.heap v) :
    E.Agrees m Same (return v) (return v) :=
  .pure fun onward => ⟨rfl, onward.heap.ready ready⟩

theorem Agrees.completes {completion : Completion} (ready : E.Ready m.heap completion.value) :
    E.Agrees m SameCompletion (return completion) (return completion) :=
  .pure fun onward => ⟨rfl, onward.heap.ready ready⟩

/-- What runs in a new frame that is that of a pass runs without it where the pass is. -/
theorem Agrees.inPass {x : Eval α} {y : Eval β}
    (act : ∀ E' m', E.Later m.heap E' m'.heap → E'.isPass m'.current = true →
      E'.shape m'.heap.frames m'.current = true :: E.shape m.heap.frames m.current →
      E'.Agrees m' Q x y) :
    E.Agrees m Q (do Eval.inFrame (← newFrame (← get).current) x) y := by
  intro E' m' d' onward strips
  let i := m'.heap.frames.size
  let h := { m'.heap with frames := m'.heap.frames.push (some m'.current) }
  let inner : Machine := { m' with heap := h, current := i }
  have later : E'.Later m'.heap (E'.withFrame i (E'.place m'.current) true) h := by
    apply Later.ofFrames
    · simp
    · intro k old
      rw [Frames.parent?_push, if_neg (Nat.ne_of_lt old)]
  have heap := strips.heap.ofFrames later (strips.heap.frames.pushPass strips.inside) (by
    intro k y w found
    rw [Frames.local?_push] at found
    split at found
    · cases found
    · exact .inl found)
  have link : h.frames.parent? i = some m'.current := by
    rw [Frames.parent?_push, if_pos rfl]
  have shape : (E'.withFrame i (E'.place m'.current) true).shape h.frames i =
      true :: E.shape m.heap.frames m.current := by
    rw [Erases.shape_of_some link strips.inside, isPass_new, later.shape_eq strips.inside,
      onward.shape_eq]
  have start : (E'.withFrame i (E'.place m'.current) true).StripsMachine inner d' :=
    { strips with
      heap := heap
      inside := by simp [inner, h, i]
      current := strips.current.trans (place_new E').symm }
  have both := act _ inner (onward.heap.trans later) (isPass_new E') shape
    (.refl _ start.inside) start
  have back {E'' : Erasure} {after after' : Machine}
      (further : (E'.withFrame i (E'.place m'.current) true).Onward inner E'' after)
      (strips' : E''.StripsMachine after after') :
      E'.Onward m' E'' { after with current := m'.current } ∧
        E''.StripsMachine { after with current := m'.current } after' := by
    have whole := later.trans further.heap
    refine ⟨⟨whole, rfl, strips.inside⟩, { strips' with inside := ?_, current := ?_ }⟩
    · exact Nat.lt_of_lt_of_le strips.inside whole.size
    · rw [strips'.current, further.current]
      calc E''.place i = E'.place m'.current :=
            (further.heap.place i start.inside).trans (place_new E')
        _ = E''.place m'.current := (whole.place _ strips.inside).symm
  show E'.Outcome m' Q (Eval.inFrame i x { m' with heap := h }) (y d')
  unfold Eval.inFrame
  generalize x inner = one, y d' = other at both
  cases both with
  | ok further strips' known =>
      obtain ⟨further, strips'⟩ := back further strips'
      exact .ok further strips' known
  | error further strips' =>
      obtain ⟨further, strips'⟩ := back further strips'
      exact .error further strips'
  | fault => exact .fault

theorem operate_agrees {result : Except Stop Value} (fair : Operators.Fair result) :
    E.Agrees m Same (operate result) (operate result) := by
  cases result with
  | ok v =>
      obtain ⟨s, rfl⟩ := fair
      exact .gives trivial
  | error stop => exact .throw stop

theorem calleeArity_agrees (callee : Value) (paren : Token) :
    E.Agrees m Equal (calleeArity callee paren) (calleeArity callee paren) := by
  apply Agrees.inspect
  intro E' m' d' _ strips
  rw [strips.heap.arity?]
  cases m'.heap.arity? callee with
  | none => exact .error
  | some arity => exact .ok rfl

/-- With some fuel trees run as the thinned ones run without the frames of passes. Where the
current frame is that of a pass only what declares nothing is run. -/
structure RunsAgree (n : Nat) : Prop where
  evaluate {E : Erasure} {m : Machine} (e : Expr) :
    E.Agrees m Same (evaluate n e) (Counting.evaluate n (e.thin (E.shape m.heap.frames m.current)))
  evaluateEach {E : Erasure} {m : Machine} (items : List Expr) :
    E.Agrees m SameEach (evaluateEach n items)
      (Counting.evaluateEach n (Expr.thinEach (E.shape m.heap.frames m.current) items))
  apply {E : Erasure} {m : Machine} {callee : Value} {arguments : List Value} :
    E.Ready m.heap callee → (∀ v ∈ arguments, E.Ready m.heap v) →
    E.Agrees m Same (apply n callee arguments) (Counting.apply n callee arguments)
  enter {E : Erasure} {m : Machine} {c c' : Closure} {arguments : List Value} :
    Stripped false E m.heap c c' → (∀ v ∈ arguments, E.Ready m.heap v) →
    E.Agrees m Same (enter n c arguments) (Counting.enter n c' arguments)
  execute {E : Erasure} {m : Machine} {s : Stmt} : (E.isPass m.current = true → s.IsPlain) →
    E.Agrees m SameCompletion (execute n s)
      (Counting.execute n (s.thin (E.shape m.heap.frames m.current)))
  executeEach {E : Erasure} {m : Machine} (items : List Stmt) : E.isPass m.current = false →
    E.Agrees m SameCompletion (executeEach n items)
      (Counting.executeEach n (Stmt.thinEach (E.shape m.heap.frames m.current) items))
  pass {E : Erasure} {m : Machine} {body : Stmt} (step : Expr) : body.IsPlain →
    E.Agrees m SameCompletion (TreeWalk.execute n (.block [body, .expression step]))
      (Counting.pass n (body.thin (true :: E.shape m.heap.frames m.current))
        (step.thin (true :: E.shape m.heap.frames m.current)))

section

variable (ih : RunsAgree n)

include ih

theorem evaluate_agrees (e : Expr) :
    E.Agrees m Same (evaluate (n + 1) e)
      (Counting.evaluate (n + 1) (e.thin (E.shape m.heap.frames m.current))) := by
  cases e with
  | literal value => exact .gives trivial
  | «variable» reference => exact readReference_agrees reference
  | assign reference value =>
      refine (ih.evaluate value).value fun v onward ready => ?_
      have write := writeReference_agrees reference ready
      rw [onward.shape_eq] at write
      exact write.bind fun onward' _ => .gives (onward'.heap.ready ready)
  | this reference => exact readReference_agrees reference
  | super reference method => exact readSuper_agrees reference method
  | grouping inner => exact ih.evaluate inner
  | unary operator operand =>
      refine (ih.evaluate operand).value fun v _ _ => ?_
      exact operate_agrees (Operators.unary_fair operator v)
  | binary left operator right =>
      refine (ih.evaluate left).value fun v onward _ => ?_
      refine ((ih.evaluate right).later onward).value fun w _ _ => ?_
      exact operate_agrees (Operators.binary_fair operator v w)
  | logical left operator right =>
      refine (ih.evaluate left).value fun v onward ready => ?_
      exact .ite (.gives ready) ((ih.evaluate right).later onward)
  | conditional condition consequent alternative =>
      refine (ih.evaluate condition).value fun v onward _ => ?_
      exact .ite ((ih.evaluate consequent).later onward) ((ih.evaluate alternative).later onward)
  | comma items =>
      refine (ih.evaluateEach items).bind fun {_ _ _ values} _ known => ?_
      obtain ⟨rfl, each⟩ := known
      apply Agrees.gives
      rw [List.getLastD_eq_getLast?]
      cases last : values.getLast? with
      | none => trivial
      | some v => exact each v (List.mem_of_getLast? last)
  | call callee paren arguments =>
      refine (ih.evaluate callee).value fun v onward₁ ready => ?_
      refine (calleeArity_agrees v paren).bind fun {E₂ m₂ _ arity} onward₂ same => ?_
      obtain rfl := same
      rw [Expr.length_thinEach]
      refine .ite (.throw _) ?_
      refine ((ih.evaluateEach arguments).later (onward₁.trans onward₂)).bind
        fun {E₃ m₃ _ values} onward₃ known => ?_
      obtain ⟨rfl, each⟩ := known
      exact ih.apply ((onward₂.trans onward₃).heap.ready ready) each
  | get object name =>
      refine (ih.evaluate object).value fun v _ _ => ?_
      cases v with
      | object o => exact readProperty_agrees o name
      | scalar | closure | classRef | clock => exact .throw _
  | set object name value =>
      refine (ih.evaluate object).value fun v onward _ => ?_
      cases v with
      | object o =>
          refine ((ih.evaluate value).later onward).value fun w _ ready => ?_
          exact (writeField_agrees ready o name.lexeme).bind fun onward' _ =>
            .gives (onward'.heap.ready ready)
      | scalar | closure | classRef | clock => exact .throw _
  | lambda keyword params body => exact closeOver_agrees none params body

theorem evaluateEach_agrees (items : List Expr) :
    E.Agrees m SameEach (evaluateEach (n + 1) items)
      (Counting.evaluateEach (n + 1) (Expr.thinEach (E.shape m.heap.frames m.current) items)) := by
  cases items with
  | nil => exact .pure fun _ => ⟨rfl, nofun⟩
  | cons item rest =>
      refine (ih.evaluate item).value fun v onward₁ ready => ?_
      refine ((ih.evaluateEach rest).later onward₁).bind fun {E₂ m₂ _ vs} onward₂ known =>
        .pure fun onward₃ => ?_
      obtain ⟨rfl, each⟩ := known
      refine ⟨rfl, fun w among => ?_⟩
      obtain rfl | among := List.mem_cons.1 among
      · exact (onward₂.trans onward₃).heap.ready ready
      · exact onward₃.heap.ready (each w among)

theorem apply_agrees {callee : Value} {arguments : List Value} (ready : E.Ready m.heap callee)
    (each : ∀ v ∈ arguments, E.Ready m.heap v) :
    E.Agrees m Same (apply (n + 1) callee arguments)
      (Counting.apply (n + 1) callee arguments) := by
  cases callee with
  | closure id =>
      refine (closureOf_agrees ready.1 ready.2).bind fun onward stripped => ?_
      exact ih.enter stripped fun v among => onward.heap.ready (each v among)
  | classRef c =>
      refine (newObject_agrees c).bind fun {E₁ m₁ _ o} onward₁ same => ?_
      obtain rfl := same
      refine (findMethod_agrees c "init").bind fun {E₂ m₂ _ found} onward₂ known => ?_
      obtain ⟨rfl, methods⟩ := known
      cases found with
      | none => exact .gives trivial
      | some initializer =>
          obtain ⟨inside, isMethod⟩ := methods initializer (Option.mem_toList.2 rfl)
          refine (bind_agrees (v := .object o) inside isMethod trivial).bind
            fun {E₃ m₃ id id'} onward₃ known => ?_
          obtain ⟨same, within, isBound⟩ := known
          cases same
          refine (closureOf_agrees within isBound).bind fun {E₄ m₄ closure _} onward₄ stripped => ?_
          have onward := onward₁.trans (onward₂.trans (onward₃.trans onward₄))
          have call := ih.enter stripped fun v among => onward.heap.ready (each v among)
          exact call.bind fun _ _ => .gives trivial
  | clock => exact readClock_agrees
  | scalar | object => exact .fault _

theorem enter_agrees {c c' : Closure} {arguments : List Value}
    (stripped : Stripped false E m.heap c c') (each : ∀ v ∈ arguments, E.Ready m.heap v) :
    E.Agrees m Same (enter (n + 1) c arguments) (Counting.enter (n + 1) c' arguments) := by
  obtain ⟨inside, rfl⟩ := stripped
  refine (newFrame_agrees inside).bind fun {E₁ m₁ i j} onward₁ outer => ?_
  have each₁ : ∀ v ∈ arguments, E₁.Ready m₁.heap v :=
    fun v among => onward₁.heap.ready (each v among)
  refine (defineEach_agrees outer c.params each₁).bind fun {E₂ m₂ _ _} onward₂ _ => ?_
  have outer₂ := outer.later onward₂.heap
  rw [outer₂.place]
  refine (newFrame_agrees outer₂.inside).bind fun {E₃ m₃ k l} onward₃ inner => ?_
  obtain rfl := inner.place
  have run := ih.executeEach (m := { m₃ with current := k }) c.body (isPass_of_shape inner.shape)
  rw [inner.shape, outer₂.shape] at run
  refine (run.inFrame inner.inside).completed fun completion onward₄ ready => ?_
  refine .ite ?_ (.gives ready)
  exact (thisOf_agrees inside).later (onward₁.trans (onward₂.trans (onward₃.trans onward₄)))

/-- What a loop runs in one pass, and the same counted. -/
theorem body_agrees (body : Stmt) (plain : E.isPass m.current = true → body.IsPlain) :
    E.Agrees m SameCompletion (execute n body)
      (match (body.thinPass (E.shape m.heap.frames m.current)).counted? with
        | some (body, step) => Counting.pass n body step
        | none => Counting.execute n (body.thinPass (E.shape m.heap.frames m.current))) := by
  by_cases block : ∃ items, body = .block items
  · obtain ⟨items, rfl⟩ := block
    rw [Stmt.thinPass, Stmt.counted?, Stmt.pass?_thinEach]
    cases passed : Stmt.pass? items with
    | none =>
        exact ih.execute plain
    | some pair =>
        obtain ⟨body, step⟩ := pair
        obtain ⟨rfl, isPlain⟩ := Stmt.pass?_eq_some.1 passed
        exact ih.pass step isPlain
  · have other : ∀ items, body ≠ .block items := fun items same => block ⟨items, same⟩
    rw [Stmt.thinPass_other other, Stmt.counted?_thin other]
    exact ih.execute plain

theorem execute_agrees {s : Stmt} (plain : E.isPass m.current = true → s.IsPlain) :
    E.Agrees m SameCompletion (execute (n + 1) s)
      (Counting.execute (n + 1) (s.thin (E.shape m.heap.frames m.current))) := by
  have kept (declares : ¬s.IsPlain) : E.isPass m.current = false := by
    rw [Bool.eq_false_iff]
    exact mt plain declares
  cases s with
  | expression value =>
      exact (ih.evaluate value).bind fun _ _ => .completes trivial
  | print value =>
      refine (ih.evaluate value).value fun v _ _ => ?_
      apply Agrees.look (fun strips => strips.heap.text v)
        (f := fun line => do print line; return Completion.normal)
        (g := fun line => do print line; return Completion.normal)
      intro line
      exact (print_agrees line).bind fun _ _ => .completes trivial
  | varDecl name initial =>
      cases initial with
      | none =>
          exact (defineHere_agrees (v := .nil) (kept id) trivial name.lexeme).bind fun _ _ =>
            .completes trivial
      | some initial =>
          refine (ih.evaluate initial).value fun v onward ready => ?_
          exact (defineHere_agrees (onward.kept (kept id)) ready name.lexeme).bind fun _ _ =>
            .completes trivial
  | block body =>
      refine .here fun inside => ?_
      apply Agrees.current
        (f := fun i => do inFrame (← newFrame i) (executeEach n body))
        (g := fun i => do inFrame (← newFrame i) (Counting.executeEach n _))
      refine (newFrame_agrees inside).bind fun {E₁ m₁ i j} _ stands => ?_
      obtain rfl := stands.place
      have run := ih.executeEach (m := { m₁ with current := i }) body
        (isPass_of_shape stands.shape)
      rw [stands.shape] at run
      exact run.inFrame stands.inside
  | branch condition consequent alternative =>
      cases alternative with
      | none =>
          refine (ih.evaluate condition).value fun v onward _ => ?_
          exact .ite ((ih.execute (s := consequent) plain).later onward)
            (.completes trivial)
      | some alternative =>
          refine (ih.evaluate condition).value fun v onward _ => ?_
          exact .ite ((ih.execute fun pass => (plain pass).1).later onward)
            ((ih.execute fun pass => (plain pass).2).later onward)
  | loop condition body =>
      have again := ih.execute (s := .loop condition body) plain
      rw [Stmt.thin_loop] at again ⊢
      refine (ih.evaluate condition).value fun v onward _ => ?_
      refine .ite ?_ (.completes trivial)
      refine ((body_agrees ih body plain).later onward).completed fun completion onward₂ ready => ?_
      cases completion with
      | normal => exact again.later (onward.trans onward₂)
      | returned value => exact .completes ready
  | functionDecl function =>
      obtain ⟨name, params, body⟩ := function
      refine (closeOver_agrees (some name.lexeme) params body).value fun v onward ready => ?_
      exact (defineHere_agrees (onward.kept (kept id)) ready name.lexeme).bind fun _ _ =>
        .completes trivial
  | classDecl name parent methods =>
      exact (declareClass_agrees name parent methods (kept id)).bind fun _ _ =>
        .completes trivial
  | returns keyword value =>
      cases value with
      | none => exact .completes trivial
      | some value =>
          refine (ih.evaluate value).value fun v _ ready => ?_
          exact .completes ready

theorem executeEach_agrees (items : List Stmt) (kept : E.isPass m.current = false) :
    E.Agrees m SameCompletion (executeEach (n + 1) items)
      (Counting.executeEach (n + 1) (Stmt.thinEach (E.shape m.heap.frames m.current) items)) := by
  cases items with
  | nil => exact .completes trivial
  | cons s rest =>
      have plain : E.isPass m.current = true → s.IsPlain := by
        rw [kept]
        nofun
      refine (ih.execute plain).completed fun completion onward ready => ?_
      cases completion with
      | normal => exact (ih.executeEach rest kept).later onward
      | returned value => exact .completes ready

end

/-- A pass is run as its block is, without the frame. -/
theorem pass_agrees (ih : ∀ k < n, RunsAgree k) {body : Stmt} (step : Expr) (plain : body.IsPlain) :
    E.Agrees m SameCompletion (execute n (.block [body, .expression step]))
      (Counting.pass n (body.thin (true :: E.shape m.heap.frames m.current))
        (step.thin (true :: E.shape m.heap.frames m.current))) := by
  match n with
  | 0 => exact .throw _
  | 1 =>
      apply Agrees.inPass
      exact fun E' m' _ _ _ => .throw _
  | n + 2 =>
      apply Agrees.inPass
      intro E' m' later isPass shape
      rw [← shape]
      have first := (ih n (by omega)).execute (E := E') (m := m') (s := body) fun _ => plain
      refine first.completed fun {E₁ m₁} completion onward ready => ?_
      cases completion with
      | returned value => exact .completes ready
      | normal =>
          match n with
          | 0 => exact .throw _
          | 1 => exact .throw _
          | n + 2 =>
              have second := (ih n (by omega)).evaluate (E := E') (m := m') step
              have alone : executeEach (n + 2) [.expression step] =
                  execute (n + 1) (.expression step) :=
                Evaluator.nested.executeEach_single (n + 1) (.expression step)
              show E₁.Agrees m₁ SameCompletion (executeEach (n + 2) [.expression step]) _
              rw [alone]
              exact (second.later onward).bind fun _ _ => .completes trivial

theorem runsAgree (n : Nat) : RunsAgree n := by
  induction n using Nat.strongRecOn with
  | ind n ih =>
      match n with
      | 0 => constructor <;> intros <;> exact .throw _
      | n + 1 =>
          have below := ih n (Nat.lt_succ_self n)
          exact
            { evaluate := evaluate_agrees below
              evaluateEach := evaluateEach_agrees below
              apply := apply_agrees below
              enter := enter_agrees below
              execute := execute_agrees below
              executeEach := executeEach_agrees below
              pass := pass_agrees ih }

end Erasure

end TreeWalk
