import TreeWalk.Proofs.Run.Growth
import TreeWalk.Proofs.Run.Staying

/-!
# Runs make heaps grow

Whatever the evaluator does, links of frames, closures and classes stay as they are, and
nothing is ever taken away. Expressions, calls and blocks bind no name in any frame that
was there before them; a statement binds names in its own frame at most, and one that is
no declaration does not even do that.

## Implementation notes

As with the current frame, nothing is assumed of the machine. Calls and blocks bind names
in frames that they have made themselves, so in the course of a step a frame is added to
those that may get names once it is made.
-/

namespace TreeWalk

variable {α : Type} {n : Nat} {New New' : FrameId → Prop}

/-- The machine with a name bound in its current frame. -/
def Machine.binding (m : Machine) (name : String) (value : Value) : Machine :=
  m.mapFrames (·.define m.current name value)

namespace Eval

/-- A machine goes on from another one with new names in some frames only. -/
def Adds (New : FrameId → Prop) (m m' : Machine) : Prop := m.heap.Extends New m'.heap

instance : IsPreorder Machine (Adds New) where
  refl m := Heap.Extends.refl New m.heap
  trans _ _ _ := Heap.Extends.trans

/-- No frame at all. -/
def NoFrame : FrameId → Prop := fun _ => False

/-- A step binds no name in any frame that was there before it. -/
abbrev Quiet (act : Eval α) : Prop := act.Leaves (Adds NoFrame)

/-- A machine goes on from another one in the same frame, which alone has new names. -/
structure Here (m m' : Machine) : Prop where
  still : m'.current = m.current
  heap : m.heap.Extends (· = m.current) m'.heap

instance : IsPreorder Machine Here where
  refl _ := ⟨rfl, .refl _ _⟩
  trans _ _ _ h h' := ⟨h'.still.trans h.still, h.heap.trans (h.still ▸ h'.heap)⟩

variable {act : Eval α}

theorem Leaves.adds (h : act.Leaves (Adds New)) (more : ∀ i, New i → New' i) :
    act.Leaves (Adds New') :=
  fun m => (h m).mono more

theorem Leaves.of_quiet (h : act.Quiet) : act.Leaves (Adds New) :=
  h.adds fun _ => False.elim

theorem Leaves.here (h : act.Quiet) (stays : act.Stays) : act.Leaves Here :=
  fun m => ⟨stays m, Leaves.of_quiet h m⟩

/-- In a frame that was just made anything may be bound. -/
theorem newFrame_bind_adds (parent : FrameId) {next : FrameId → Eval α}
    (h : ∀ frame, (next frame).Leaves (Adds fun i => New i ∨ i = frame)) :
    (newFrame parent >>= next).Leaves (Adds New) := by
  intro m
  let made := m.mapFrames (·.push (some parent))
  have first : m.heap.Extends New made.heap := .push m.heap _
  have rest := h m.frames.size made
  refine first.trans_of rest fun i inside new => ?_
  exact new.resolve_right (Nat.ne_of_lt inside)

/-- In another frame only that one gets names. -/
theorem inFrame_adds (frame : FrameId) (h : act.Leaves Here) :
    (inFrame frame act).Leaves (Adds (· = frame)) := by
  intro m
  have inside := (h { m with current := frame }).heap
  simp only [after, inFrame, Adds] at inside ⊢
  cases run : act { m with current := frame } <;> rwa [run] at inside

theorem raise_quiet (cause : RuntimeCause) (token : Token) : (raise cause token : Eval α).Quiet :=
  .throw _

theorem operate_quiet (result : Except Stop Value) : (operate result).Quiet := by
  cases result with
  | ok => exact .pure _
  | error => exact .throw _

theorem print_quiet (line : String) : (print line).Quiet := fun _ => .refl _ _

theorem readClock_quiet : readClock.Quiet := fun _ => .refl _ _

theorem define_adds {frame : FrameId} (new : New frame) (name : String) (value : Value) :
    (define frame name value).Leaves (Adds New) :=
  fun m => .define m.heap value (.inl new)

theorem defineHere_here (name : String) (value : Value) : (defineHere name value).Leaves Here :=
  fun m => ⟨rfl, .define m.heap value (.inl rfl)⟩

theorem defineEach_adds {frame : FrameId} (new : New frame) (params : List Token)
    (arguments : List Value) : (defineEach frame params arguments).Leaves (Adds New) := by
  induction params generalizing arguments with
  | nil => exact .pure _
  | cons param params ih =>
      cases arguments with
      | nil => exact .pure _
      | cons argument arguments => exact .bind (define_adds new _ _) fun _ => ih arguments

/-- A name is bound again where it is bound already. -/
theorem rebind_quiet {look : Machine → Except Stop FrameId} {name : String}
    (bound : ∀ m frame, look m = .ok frame → m.heap.frames.Has frame name) (value : Value) :
    (inspect look >>= fun frame => define frame name value).Quiet := by
  intro m
  cases found : look m with
  | ok frame =>
      have run : (inspect look).Gives m frame m := by
        simp [EStateM.Gives, EStateM.run, inspect, found]
      rw [after_bind_of_gives run]
      exact .define m.heap value (.inr (bound m frame found))
  | error stop =>
      have run : inspect look m = .error stop m := by rw [inspect, found]
      rw [after_of_error (bind_of_error run)]
      exact .refl _ _

theorem has_of_targetAt {fs : Frames Value} {i j : FrameId} {distance : Nat} {name : Token}
    (found : fs.targetAt i distance name = .ok j) : fs.Has j name.lexeme := by
  unfold Frames.targetAt at found
  cases near : fs.ancestor i distance with
  | ok k =>
      rw [near] at found
      exact Frames.has_of_target found
  | error =>
      rw [near] at found
      cases found

theorem readReference_quiet (reference : Reference) : (readReference reference).Quiet :=
  .inspect _

theorem writeReference_quiet (reference : Reference) (value : Value) :
    (writeReference reference value).Quiet := by
  refine rebind_quiet (fun m frame found => ?_) value
  split at found
  · exact has_of_targetAt found
  · exact Frames.has_of_target found

theorem thisOf_quiet (frame : FrameId) : (thisOf frame).Quiet := .inspect _

theorem closureOf_quiet (id : ClosureId) : (closureOf id).Quiet := .inspect _

theorem newClosure_quiet (closure : Closure) : (newClosure closure).Quiet :=
  fun m => .pushClosure m.heap closure

theorem newClass_quiet (record : ClassRecord) : (newClass record).Quiet :=
  fun m => .pushClass m.heap record

theorem newObject_quiet (classId : ClassId) : (newObject classId).Quiet :=
  fun m => .pushObject m.heap _

theorem bind_quiet (method : ClosureId) (receiver : Value) : (Eval.bind method receiver).Quiet :=
  .bind (closureOf_quiet _) fun _ => newFrame_bind_adds _ fun _ =>
    .bind (define_adds (.inr rfl) _ _) fun _ => (newClosure_quiet _).of_quiet

theorem findMethod_quiet (classId : ClassId) (name : String) : (findMethod classId name).Quiet :=
  .inspect _

theorem readProperty_quiet (id : ObjectId) (name : Token) : (readProperty id name).Quiet := by
  refine .bind (.inspect _) fun record => ?_
  split
  · exact .pure _
  · refine .bind (findMethod_quiet _ _) fun method => ?_
    cases method with
    | none => exact raise_quiet _ _
    | some method => exact .bind (bind_quiet _ _) fun _ => .pure _

theorem writeField_quiet (id : ObjectId) (name : String) (value : Value) :
    (writeField id name value).Quiet :=
  fun m => .modifyObject m.heap id _

theorem readSuper_quiet (reference : Reference) (method : Token) :
    (readSuper reference method).Quiet := by
  unfold readSuper
  cases reference.distance with
  | none => exact .throw _
  | some distance =>
      refine .bind (readReference_quiet _) fun parent => .bind (.inspect _) fun frame =>
        .bind (thisOf_quiet _) fun receiver => ?_
      cases parent with
      | classRef id =>
          refine .bind (findMethod_quiet _ _) fun found => ?_
          cases found with
          | none => exact raise_quiet _ _
          | some found => exact .bind (bind_quiet _ _) fun _ => .pure _
      | scalar | closure | object | clock => exact .throw _

theorem readClass_quiet (reference : Reference) : (readClass reference).Quiet := by
  refine .bind (readReference_quiet _) fun parent => ?_
  split
  · exact .pure _
  · exact raise_quiet _ _

theorem methodFrame_quiet (parent : Option ClassId) : (methodFrame parent).Quiet := by
  cases parent with
  | none => exact .bind .get fun _ => .pure _
  | some parent =>
      exact .bind .get fun _ => newFrame_bind_adds _ fun _ =>
        .bind (define_adds (.inr rfl) _ _) fun _ => .pure _

theorem newMethods_quiet (frame : FrameId) (methods : List FunctionDecl) :
    (newMethods frame methods).Quiet := by
  induction methods with
  | nil => exact .pure _
  | cons method rest ih => exact .bind (newClosure_quiet _) fun _ => .bind ih fun _ => .pure _

theorem superclassOf_quiet (parent : Option Reference) : (superclassOf parent).Quiet := by
  cases parent with
  | none => exact .pure _
  | some reference => exact .map (readClass_quiet reference)

/-- What follows the look for the superclass of a class. -/
def finishClass (name : Token) (methods : List FunctionDecl) (superclass : Option ClassId) :
    Eval Unit := do
  let frame ← methodFrame superclass
  let methods ← newMethods frame methods
  let id ← newClass ⟨name.lexeme, superclass, .ofList methods⟩
  let frame ← inspect fun m => m.frames.target m.current name
  define frame name.lexeme (.classRef id)

theorem declareClass_finish (name : Token) (parent : Option Reference)
    (methods : List FunctionDecl) :
    declareClass name parent methods = (do
      defineHere name.lexeme .nil
      finishClass name methods (← superclassOf parent)) :=
  declareClass_eq name parent methods

/-- Once its superclass is known a class is made and takes the place of the nil that its
name is bound to. -/
theorem finishClass_quiet (name : Token) (methods : List FunctionDecl)
    (superclass : Option ClassId) : (finishClass name methods superclass).Quiet :=
  .bind (methodFrame_quiet _) fun _ => .bind (newMethods_quiet _ _) fun _ =>
    .bind (newClass_quiet _) fun _ => rebind_quiet (fun _ _ => Frames.has_of_target) _

theorem finishClass_stays (name : Token) (methods : List FunctionDecl)
    (superclass : Option ClassId) : (finishClass name methods superclass).Stays :=
  .bind (staying.methodFrame _) fun _ => .bind (staying.newMethods _ _) fun _ =>
    .bind (staying.newClass _) fun _ => .bind (.inspect _) fun _ => staying.define _ _ _

theorem declareClass_here (name : Token) (parent : Option Reference)
    (methods : List FunctionDecl) : (declareClass name parent methods).Leaves Here := by
  rw [declareClass_finish]
  exact .bind (defineHere_here _ _) fun _ =>
    .bind (Leaves.here (superclassOf_quiet _) (staying.superclassOf _)) fun _ =>
    Leaves.here (finishClass_quiet _ _ _) (finishClass_stays _ _ _)

end Eval

open Eval

theorem calleeArity_quiet (callee : Value) (paren : Token) : (calleeArity callee paren).Quiet :=
  .inspect _

theorem closeOver_quiet (name : Option String) (params : List Token) (body : List Stmt) :
    (closeOver name params body).Quiet :=
  .bind .get fun _ => .bind (newClosure_quiet _) fun _ => .pure _

/-- A statement is no declaration, and neither is the body of a branch or a loop in it. -/
def Stmt.IsPlain : Stmt → Prop
  | .varDecl .. | .functionDecl _ | .classDecl .. => False
  | .branch _ consequent none => consequent.IsPlain
  | .branch _ consequent (some alternative) => consequent.IsPlain ∧ alternative.IsPlain
  | .loop _ body => body.IsPlain
  | _ => True

/-- With this much fuel the evaluator binds names nowhere but in the current frame, and
there only when it runs a declaration. -/
structure ExtendsAt (n : Nat) : Prop where
  evaluate : ∀ e, (evaluate n e).Quiet
  evaluateEach : ∀ items, (evaluateEach n items).Quiet
  apply : ∀ callee arguments, (apply n callee arguments).Quiet
  enter : ∀ closure arguments, (enter n closure arguments).Quiet
  execute : ∀ s, (execute n s).Leaves Here
  plain : ∀ s : Stmt, s.IsPlain → (TreeWalk.execute n s).Quiet
  executeEach : ∀ body, (executeEach n body).Leaves Here

namespace ExtendsAt

theorem here (ih : ExtendsAt n) (e : Expr) : (TreeWalk.evaluate n e).Leaves Here :=
  Leaves.here (ih.evaluate e) ((staysAt n).evaluate e)

theorem evaluate_succ (ih : ExtendsAt n) (e : Expr) : (TreeWalk.evaluate (n + 1) e).Quiet := by
  cases e with
  | literal => exact .pure _
  | «variable» | this => exact readReference_quiet _
  | assign _ value =>
      exact .bind (ih.evaluate value) fun _ => .bind (writeReference_quiet _ _) fun _ => .pure _
  | super => exact readSuper_quiet _ _
  | grouping inner => exact ih.evaluate inner
  | unary _ operand => exact .bind (ih.evaluate operand) fun _ => operate_quiet _
  | binary left _ right =>
      exact .bind (ih.evaluate left) fun _ => .bind (ih.evaluate right) fun _ => operate_quiet _
  | logical left _ right =>
      exact .bind (ih.evaluate left) fun _ => .ite (.pure _) (ih.evaluate right)
  | conditional condition consequent alternative =>
      exact .bind (ih.evaluate condition) fun _ =>
        .ite (ih.evaluate consequent) (ih.evaluate alternative)
  | comma items => exact .bind (ih.evaluateEach items) fun _ => .pure _
  | call callee _ arguments =>
      exact .bind (ih.evaluate callee) fun _ => .bind (calleeArity_quiet _ _) fun _ =>
        .ite (raise_quiet _ _) (.bind (ih.evaluateEach arguments) fun _ => ih.apply _ _)
  | get object name =>
      refine .bind (ih.evaluate object) fun v => ?_
      cases v with
      | object id => exact readProperty_quiet _ _
      | scalar | closure | classRef | clock => exact raise_quiet _ _
  | set object name value =>
      refine .bind (ih.evaluate object) fun v => ?_
      cases v with
      | object id =>
          exact .bind (ih.evaluate value) fun _ => .bind (writeField_quiet _ _ _) fun _ => .pure _
      | scalar | closure | classRef | clock => exact raise_quiet _ _
  | lambda => exact closeOver_quiet _ _ _

theorem evaluateEach_succ (ih : ExtendsAt n) (items : List Expr) :
    (TreeWalk.evaluateEach (n + 1) items).Quiet := by
  cases items with
  | nil => exact .pure _
  | cons item rest =>
      exact .bind (ih.evaluate item) fun _ => .bind (ih.evaluateEach rest) fun _ => .pure _

theorem apply_succ (ih : ExtendsAt n) (callee : Value) (arguments : List Value) :
    (TreeWalk.apply (n + 1) callee arguments).Quiet := by
  cases callee with
  | closure id => exact .bind (closureOf_quiet _) fun _ => ih.enter _ _
  | classRef id =>
      refine .bind (newObject_quiet _) fun _ => .bind (findMethod_quiet _ _) fun initializer => ?_
      cases initializer with
      | none => exact .pure _
      | some method =>
          exact .bind (bind_quiet _ _) fun _ => .bind (closureOf_quiet _) fun _ =>
            .bind (ih.enter _ _) fun _ => .pure _
  | clock => exact readClock_quiet
  | scalar | object => exact .throw _

theorem enter_succ (ih : ExtendsAt n) (closure : Closure) (arguments : List Value) :
    (TreeWalk.enter (n + 1) closure arguments).Quiet := by
  refine newFrame_bind_adds _ fun outer => .bind (defineEach_adds (.inr rfl) _ _) fun _ => ?_
  refine newFrame_bind_adds _ fun inner => .bind ?_ fun _ => ?_
  · exact (inFrame_adds inner (ih.executeEach closure.body)).adds fun _ => .inr
  · exact .ite (thisOf_quiet _).of_quiet (.pure _)

/-- A block has a frame of its own. -/
theorem block_succ (ih : ExtendsAt n) (body : List Stmt) :
    (TreeWalk.execute (n + 1) (.block body)).Quiet :=
  .bind .get fun _ => newFrame_bind_adds _ fun frame =>
    (inFrame_adds frame (ih.executeEach body)).adds fun _ => .inr

theorem execute_succ (ih : ExtendsAt n) (s : Stmt) :
    (TreeWalk.execute (n + 1) s).Leaves Here := by
  rcases s with value | value | ⟨_, _ | initial⟩ | body | ⟨condition, consequent, alternative⟩ |
    ⟨condition, body⟩ | function | _ | ⟨_, _ | value⟩
  case expression => exact .bind (ih.here value) fun _ => .pure _
  case print =>
    exact .bind (ih.here value) fun _ => .bind .get fun _ =>
      .bind (Leaves.here (print_quiet _) (staying.print _)) fun _ => .pure _
  case varDecl.none => exact .bind (defineHere_here _ _) fun _ => .pure _
  case varDecl.some =>
    exact .bind (ih.here initial) fun _ => .bind (defineHere_here _ _) fun _ => .pure _
  case block => exact Leaves.here (ih.block_succ body) ((staysAt _).execute _)
  case branch =>
    refine .bind (ih.here condition) fun _ => .ite (ih.execute consequent) ?_
    cases alternative with
    | none => exact .pure _
    | some statement => exact ih.execute statement
  case loop =>
    refine .bind (ih.here condition) fun _ => .ite ?_ (.pure _)
    refine .bind (ih.execute body) fun completion => ?_
    cases completion with
    | normal => exact ih.execute _
    | returned => exact .pure _
  case functionDecl =>
    exact .bind (Leaves.here (closeOver_quiet _ _ _) (staying.closeOver _ _ _)) fun _ =>
      .bind (defineHere_here _ _) fun _ => .pure _
  case classDecl => exact .bind (declareClass_here _ _ _) fun _ => .pure _
  case returns.none => exact .pure _
  case returns.some => exact .bind (ih.here value) fun _ => .pure _

theorem plain_succ (ih : ExtendsAt n) (s : Stmt) (isPlain : s.IsPlain) :
    (TreeWalk.execute (n + 1) s).Quiet := by
  rcases s with value | value | _ | body | ⟨condition, consequent, _ | alternative⟩ |
    ⟨condition, body⟩ | _ | _ | ⟨_, _ | value⟩
  case expression => exact .bind (ih.evaluate value) fun _ => .pure _
  case print =>
    exact .bind (ih.evaluate value) fun _ => .bind .get fun _ => .bind (print_quiet _) fun _ =>
      .pure _
  case block => exact ih.block_succ body
  case branch.none =>
    exact .bind (ih.evaluate condition) fun _ => .ite (ih.plain consequent isPlain) (.pure _)
  case branch.some =>
    exact .bind (ih.evaluate condition) fun _ =>
      .ite (ih.plain consequent isPlain.1) (ih.plain alternative isPlain.2)
  case loop =>
    refine .bind (ih.evaluate condition) fun _ => .ite ?_ (.pure _)
    refine .bind (ih.plain body isPlain) fun completion => ?_
    cases completion with
    | normal => exact ih.plain _ isPlain
    | returned => exact .pure _
  case returns.none => exact .pure _
  case returns.some => exact .bind (ih.evaluate value) fun _ => .pure _
  case varDecl | functionDecl | classDecl => exact isPlain.elim

theorem executeEach_succ (ih : ExtendsAt n) (body : List Stmt) :
    (TreeWalk.executeEach (n + 1) body).Leaves Here := by
  cases body with
  | nil => exact .pure _
  | cons s rest =>
      refine .bind (ih.execute s) fun completion => ?_
      cases completion with
      | normal => exact ih.executeEach rest
      | returned => exact .pure _

end ExtendsAt

/-- Whatever the fuel is, runs make heaps grow. -/
theorem extendsAt (fuel : Nat) : ExtendsAt fuel := by
  induction fuel with
  | zero =>
      exact ⟨fun _ => .throw _, fun _ => .throw _, fun _ _ => .throw _, fun _ _ => .throw _,
        fun _ => .throw _, fun _ _ => .throw _, fun _ => .throw _⟩
  | succ n ih =>
      exact ⟨ih.evaluate_succ, ih.evaluateEach_succ, ih.apply_succ, ih.enter_succ,
        ih.execute_succ, ih.plain_succ, ih.executeEach_succ⟩

end TreeWalk
