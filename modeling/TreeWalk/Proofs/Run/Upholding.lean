import TreeWalk.Proofs.Run.Evaluating
import TreeWalk.Proofs.Run.Extending
import TreeWalk.Proofs.Run.Links

/-!
# Runs keep the links

Whatever is run on a linked machine leaves a linked machine, whether it ends or stops. A
frame is made inside of the current one or of the frame of a closure, and a class inherits
from a class that some variable holds, so what is linked to is always there first.

## Implementation notes

Nothing is asked of the program: its distances may be as they like, and so may the place
at which a `this`, a `super` or a return stands. The value of a step is there when the step
ends, and it stays there while later steps make the heap grow. So growth is part of what
is handed on from step to step.
-/

namespace TreeWalk

open Eval

variable {α β : Type} {n : Nat} {m m' : Machine}

/-- A machine with a linked heap whose current frame is there. -/
structure Machine.Linked (m : Machine) : Prop where
  heap : m.heap.Linked
  inside : m.current < m.heap.frames.size

namespace Eval

/-- A step leaves a linked machine that goes on from the one before, and what it gives has
a postcondition. -/
structure Upholds (act : Eval α) (m : Machine) (Q : α → Machine → Prop) : Prop where
  linked : (act.after m).Linked
  grows : m.heap.Grows (act.after m).heap
  gives : ∀ {a m'}, act.Gives m a m' → Q a m'

/-- A step gives a value that is there. -/
abbrev UpholdsValue (act : Eval Value) (m : Machine) : Prop :=
  act.Upholds m fun v m' => m'.heap.Refers v

namespace Upholds

variable {act : Eval α} {f : α → Eval β} {Q : α → Machine → Prop} {R : β → Machine → Prop}

theorem of_gives {a : α} (run : act.Gives m a m') (linked : m'.Linked)
    (grows : m.heap.Grows m'.heap) (post : Q a m') : act.Upholds m Q where
  linked := by rwa [after_of_gives run]
  grows := by rwa [after_of_gives run]
  gives run' := by
    cases run'.symm.trans run
    exact post

theorem of_error {stop : Stop} (run : act m = .error stop m') (linked : m'.Linked)
    (grows : m.heap.Grows m'.heap) : act.Upholds m Q where
  linked := by rwa [after_of_error run]
  grows := by rwa [after_of_error run]
  gives run' := by cases run'.symm.trans run

theorem linked_gives {a : α} (h : act.Upholds m Q) (run : act.Gives m a m') : m'.Linked := by
  have linked := h.linked
  rwa [after_of_gives run] at linked

theorem grows_gives {a : α} (h : act.Upholds m Q) (run : act.Gives m a m') :
    m.heap.Grows m'.heap := by
  have grows := h.grows
  rwa [after_of_gives run] at grows

theorem pure {a : α} (linked : m.Linked) (post : Q a m) : (Pure.pure a : Eval α).Upholds m Q :=
  of_gives rfl linked (.refl _ _) post

theorem throw (linked : m.Linked) (stop : Stop) : (throw stop : Eval α).Upholds m Q :=
  of_error rfl linked (.refl _ _)

theorem inspect {look : Machine → Except Stop α} (linked : m.Linked)
    (ok : ∀ {a}, look m = .ok a → Q a m) : (Eval.inspect look).Upholds m Q := by
  cases found : look m with
  | ok a =>
      have run : (Eval.inspect look).Gives m a m := by
        simp [EStateM.Gives, EStateM.run, Eval.inspect, found]
      exact of_gives run linked (.refl _ _) (ok found)
  | error stop => exact of_error (by rw [Eval.inspect, found]) linked (.refl _ _)

/-- What follows a step starts on a linked machine that goes on from the first one. -/
theorem bind (first : act.Upholds m Q)
    (next : ∀ {a m'}, m'.Linked → m.heap.Grows m'.heap → Q a m' → (f a).Upholds m' R) :
    (act >>= f).Upholds m R := by
  obtain ⟨linked, grows, gives⟩ := first
  cases run : act m with
  | error stop m₁ =>
      rw [after_of_error run] at linked grows
      exact of_error (bind_of_error run) linked grows
  | ok a m₁ =>
      have run : act.Gives m a m₁ := run
      rw [after_of_gives run] at linked grows
      obtain ⟨linked', grows', gives'⟩ := next linked grows (gives run)
      refine ⟨?_, ?_, fun run' => ?_⟩
      · rwa [after_bind_of_gives run]
      · rw [after_bind_of_gives run]
        exact grows.trans grows'
      · obtain ⟨b, mid, other, run'⟩ := bind_gives.1 run'
        cases other.symm.trans run
        exact gives' run'

/-- What follows a look at the machine starts on the same machine. -/
theorem inspect_bind {look : Machine → Except Stop α} (linked : m.Linked)
    (next : ∀ {a}, look m = .ok a → (f a).Upholds m R) : (Eval.inspect look >>= f).Upholds m R := by
  have looked : (Eval.inspect look).Upholds m fun a m' => m' = m ∧ look m = .ok a :=
    .inspect linked fun found => ⟨rfl, found⟩
  refine looked.bind fun _ _ ⟨same, found⟩ => ?_
  rw [same]
  exact next found

theorem map {g : α → β} (first : act.Upholds m fun a m' => R (g a) m') :
    (g <$> act).Upholds m R where
  linked := by
    rw [after_map]
    exact first.linked
  grows := by
    rw [after_map]
    exact first.grows
  gives run := by
    obtain ⟨a, run', rfl⟩ := map_gives.1 run
    exact first.gives run'

theorem get_bind {f : Machine → Eval β} (next : (f m).Upholds m R) : (get >>= f).Upholds m R := by
  have same : (get >>= f) m = f m m := get_bind_apply
  refine ⟨?_, ?_, fun run => ?_⟩
  · rw [after, same]
    exact next.linked
  · rw [after, same]
    exact next.grows
  · exact next.gives (get_bind_gives.1 run)

/-- Behind a step in another frame the machine is in the frame it was in. -/
theorem inFrame {frame : FrameId} (linked : m.Linked)
    (h : act.Upholds { m with current := frame } fun a m' => Q a { m' with current := m.current }) :
    (Eval.inFrame frame act).Upholds m Q := by
  obtain ⟨linked', grows, gives⟩ := h
  have inside := Nat.lt_of_lt_of_le linked.inside grows.size
  cases run : act { m with current := frame } with
  | ok a m₁ =>
      rw [after_of_gives run] at linked' grows inside
      have moved : (Eval.inFrame frame act).Gives m a { m₁ with current := m.current } := by
        simp [EStateM.Gives, EStateM.run, Eval.inFrame, run]
      exact of_gives moved ⟨linked'.heap, inside⟩ grows (gives run)
  | error stop m₁ =>
      rw [after_of_error run] at linked' grows inside
      have moved : Eval.inFrame frame act m = .error stop { m₁ with current := m.current } := by
        simp [Eval.inFrame, run]
      exact of_error moved ⟨linked'.heap, inside⟩ grows

end Upholds

theorem operate_upholds {result : Except Stop Value} (linked : m.Linked)
    (fair : Operators.Fair result) : (operate result).UpholdsValue m := by
  cases result with
  | ok value =>
      obtain ⟨s, rfl⟩ := fair
      exact .pure linked trivial
  | error => exact .throw linked _

theorem readClock_upholds (linked : m.Linked) : readClock.UpholdsValue m :=
  .of_gives readClock_gives ⟨linked.heap, linked.inside⟩ (.refl _ _) trivial

theorem newFrame_upholds {p : FrameId} (linked : m.Linked) (inside : p < m.heap.frames.size) :
    (newFrame p).Upholds m fun frame m' => frame < m'.heap.frames.size := by
  have grows : m.heap.Grows (m.mapFrames (·.push (some p))).heap := .push m.heap _
  refine .of_gives (newFrame_gives p) ⟨linked.heap.push inside, ?_⟩ grows ?_
  · exact Nat.lt_of_lt_of_le linked.inside grows.size
  · simp [Machine.mapFrames, Machine.mapHeap]

theorem define_upholds {v : Value} (linked : m.Linked) (refers : m.heap.Refers v)
    (frame : FrameId) (x : String) : (define frame x v).Upholds m fun _ _ => True := by
  have grows : m.heap.Grows (m.mapFrames (·.define frame x v)).heap :=
    .define m.heap v (.inl trivial)
  refine .of_gives (define_gives frame x v) ⟨linked.heap.define refers frame x, ?_⟩ grows trivial
  exact Nat.lt_of_lt_of_le linked.inside grows.size

theorem defineHere_upholds {v : Value} (linked : m.Linked) (refers : m.heap.Refers v)
    (x : String) : (defineHere x v).Upholds m fun _ _ => True :=
  .get_bind (define_upholds linked refers _ x)

theorem defineEach_upholds {arguments : List Value} (linked : m.Linked)
    (refers : ∀ v ∈ arguments, m.heap.Refers v) (frame : FrameId) (params : List Token) :
    (defineEach frame params arguments).Upholds m fun _ _ => True := by
  induction params generalizing arguments m with
  | nil => exact .pure linked trivial
  | cons param params ih =>
      cases arguments with
      | nil => exact .pure linked trivial
      | cons argument arguments =>
          refine (define_upholds linked (refers _ List.mem_cons_self) _ _).bind ?_
          intro _ m₁ linked₁ grows _
          exact ih linked₁ fun v among => (refers v (List.mem_cons_of_mem _ among)).later grows

theorem readReference_upholds (linked : m.Linked) (reference : Reference) :
    (readReference reference).UpholdsValue m := by
  refine .inspect linked fun {v} found => ?_
  have run : (readReference reference).Gives m v m := by
    simp only [EStateM.Gives, EStateM.run, readReference, Eval.inspect]
    rw [found]
  obtain ⟨i, x, bound⟩ := local?_of_readReference run
  exact linked.heap.locals bound

theorem writeReference_upholds {v : Value} (linked : m.Linked) (refers : m.heap.Refers v)
    (reference : Reference) : (writeReference reference v).Upholds m fun _ _ => True :=
  .inspect_bind linked fun _ => define_upholds linked refers _ _

theorem thisOf_upholds (linked : m.Linked) (frame : FrameId) : (thisOf frame).UpholdsValue m := by
  refine .inspect linked fun found => ?_
  split at found
  next v bound =>
    cases found
    exact linked.heap.locals bound
  next => cases found

theorem closureOf_upholds (linked : m.Linked) (id : ClosureId) :
    (closureOf id).Upholds m fun closure m' => closure.frame < m'.heap.frames.size := by
  refine .inspect linked fun found => ?_
  split at found
  next closure bound =>
    cases found
    exact linked.heap.closures bound
  next => cases found

theorem newClosure_upholds {closure : Closure} (linked : m.Linked)
    (inside : closure.frame < m.heap.frames.size) :
    (newClosure closure).Upholds m fun id m' => id < m'.heap.closures.size :=
  .of_gives (newClosure_gives closure) ⟨linked.heap.pushClosure inside, linked.inside⟩
    (.pushClosure m.heap closure) (by simp [Machine.mapHeap])

theorem newClass_upholds {record : ClassRecord} (linked : m.Linked)
    (leads : m.heap.LeadsBack m.heap.classes.size record) :
    (newClass record).Upholds m fun id m' => m'.heap.Refers (.classRef id) :=
  .of_gives (newClass_gives record) ⟨linked.heap.pushClass leads, linked.inside⟩
    (.pushClass m.heap record) (by simp [Heap.Refers, Machine.mapHeap])

theorem newObject_upholds {c : ClassId} (linked : m.Linked) (inside : c < m.heap.classes.size) :
    (newObject c).Upholds m fun id m' => m'.heap.Refers (.object id) :=
  .of_gives (newObject_gives c) ⟨linked.heap.pushObject inside, linked.inside⟩
    (.pushObject m.heap _) (by simp [Heap.Refers, Machine.mapHeap])

theorem bind_upholds {receiver : Value} (linked : m.Linked) (refers : m.heap.Refers receiver)
    (method : ClosureId) :
    (Eval.bind method receiver).Upholds m fun id m' => id < m'.heap.closures.size := by
  refine (closureOf_upholds linked method).bind fun linked₁ grows₁ inside => ?_
  refine (newFrame_upholds linked₁ inside).bind fun {frame _} linked₂ grows₂ made => ?_
  have refers₂ := refers.later (grows₁.trans grows₂)
  refine (define_upholds linked₂ refers₂ frame "this").bind fun linked₃ grows₃ _ => ?_
  exact newClosure_upholds linked₃ (Nat.lt_of_lt_of_le made grows₃.size)

theorem readProperty_upholds (linked : m.Linked) (id : ObjectId) (name : Token) :
    (readProperty id name).UpholdsValue m := by
  refine .inspect_bind linked fun {record} found => ?_
  have bound : m.heap.objects[id]? = some record := by
    split at found
    next record bound => rwa [← Except.ok.inj found]
    next => cases found
  split
  next v field => exact .pure linked ((linked.heap.objects bound).fields field)
  next =>
    have there : m.heap.Refers (.object id) := (Array.getElem?_eq_some_iff.1 bound).1
    refine .inspect_bind linked fun {method} _ => ?_
    cases method with
    | none => exact .throw linked _
    | some method =>
        exact (bind_upholds linked there method).bind fun linked₁ _ made => .pure linked₁ made

theorem writeField_upholds {v : Value} (linked : m.Linked) (refers : m.heap.Refers v)
    (id : ObjectId) (x : String) : (writeField id x v).Upholds m fun _ _ => True :=
  .of_gives (writeField_gives id x v) ⟨linked.heap.setField refers id x, linked.inside⟩
    (.modifyObject m.heap id _) trivial

theorem readSuper_upholds (linked : m.Linked) (reference : Reference) (method : Token) :
    (readSuper reference method).UpholdsValue m := by
  unfold readSuper
  cases reference.distance with
  | none => exact .throw linked _
  | some distance =>
      refine (readReference_upholds linked reference).bind fun {parent _} linked₁ _ _ => ?_
      refine .inspect_bind linked₁ fun {frame} _ => ?_
      refine (thisOf_upholds linked₁ frame).bind fun {receiver _} linked₂ _ refers => ?_
      cases parent with
      | classRef id =>
          refine .inspect_bind linked₂ fun {found} _ => ?_
          cases found with
          | none => exact .throw linked₂ _
          | some found =>
              exact (bind_upholds linked₂ refers found).bind fun linked₃ _ made =>
                .pure linked₃ made
      | scalar | closure | object | clock => exact .throw linked₂ _

theorem closeOver_upholds (linked : m.Linked) (name : Option String) (params : List Token)
    (body : List Stmt) : (closeOver name params body).UpholdsValue m :=
  .get_bind ((newClosure_upholds linked linked.inside).bind fun linked₁ _ made =>
    .pure linked₁ made)

theorem superclassOf_upholds (linked : m.Linked) (parent : Option Reference) :
    (superclassOf parent).Upholds m fun superclass m' =>
      ∀ c, superclass = some c → m'.heap.Refers (.classRef c) := by
  cases parent with
  | none => exact .pure linked nofun
  | some reference =>
      refine .map ((readReference_upholds linked reference).bind fun {v _} linked₁ _ refers => ?_)
      cases v with
      | classRef id =>
          refine .pure linked₁ ?_
          rintro _ ⟨⟩
          exact refers
      | scalar | closure | object | clock => exact .throw linked₁ _

theorem methodFrame_upholds {superclass : Option ClassId} (linked : m.Linked)
    (refers : ∀ c, superclass = some c → m.heap.Refers (.classRef c)) :
    (methodFrame superclass).Upholds m fun frame m' => frame < m'.heap.frames.size := by
  cases superclass with
  | none => exact .get_bind (.pure linked linked.inside)
  | some parent =>
      refine .get_bind ((newFrame_upholds linked linked.inside).bind
        fun {frame _} linked₁ grows₁ made => ?_)
      refine (define_upholds linked₁ ((refers parent rfl).later grows₁) frame "super").bind
        fun linked₂ grows₂ _ => ?_
      exact .pure linked₂ (Nat.lt_of_lt_of_le made grows₂.size)

theorem newMethods_upholds {frame : FrameId} (methods : List FunctionDecl) (linked : m.Linked)
    (inside : frame < m.heap.frames.size) :
    (newMethods frame methods).Upholds m fun made m' =>
      ∀ pair ∈ made, pair.2 < m'.heap.closures.size := by
  induction methods generalizing m with
  | nil => exact .pure linked nofun
  | cons method rest ih =>
      refine (newClosure_upholds linked inside).bind fun {id _} linked₁ grows₁ first => ?_
      refine (ih linked₁ (Nat.lt_of_lt_of_le inside grows₁.size)).bind
        fun {made _} linked₂ grows₂ others => .pure linked₂ ?_
      rintro pair (_ | ⟨_, among⟩)
      · exact Nat.lt_of_lt_of_le first grows₂.closures_size
      · exact others pair among

/-- The superclass of a new class was there before it, and so were its methods. -/
theorem finishClass_upholds {superclass : Option ClassId} (linked : m.Linked)
    (refers : ∀ c, superclass = some c → m.heap.Refers (.classRef c)) (name : Token)
    (methods : List FunctionDecl) :
    (finishClass name methods superclass).Upholds m fun _ _ => True := by
  refine (methodFrame_upholds linked refers).bind fun linked₁ grows₁ inside => ?_
  refine (newMethods_upholds methods linked₁ inside).bind fun {made m₂} linked₂ grows₂ each => ?_
  have leads : m₂.heap.LeadsBack m₂.heap.classes.size ⟨name.lexeme, superclass, .ofList made⟩ := by
    constructor
    · intro c parent
      exact (refers c parent).later (grows₁.trans grows₂)
    · intro x method found
      exact each _ (Bindings.mem_of_get?_ofList found)
  refine (newClass_upholds linked₂ leads).bind fun {id _} linked₃ _ new => ?_
  exact .inspect_bind linked₃ fun _ => define_upholds linked₃ new _ _

theorem declareClass_upholds (linked : m.Linked) (name : Token) (parent : Option Reference)
    (methods : List FunctionDecl) :
    (declareClass name parent methods).Upholds m fun _ _ => True := by
  rw [declareClass_finish]
  refine (defineHere_upholds linked (v := .nil) trivial _).bind fun linked₁ _ _ => ?_
  refine (superclassOf_upholds linked₁ parent).bind fun linked₂ _ refers => ?_
  exact finishClass_upholds linked₂ refers name methods

end Eval

/-- The postcondition of a statement: the value that it returns is there. -/
abbrev ReturnsRefer (completion : Completion) (m' : Machine) : Prop :=
  m'.heap.Refers completion.value

/-- With this much fuel the evaluator keeps the links of a linked machine. -/
structure UpholdsAt (n : Nat) : Prop where
  evaluate : ∀ {m} e, m.Linked → (evaluate n e).UpholdsValue m
  evaluateEach : ∀ {m} items, m.Linked →
    (evaluateEach n items).Upholds m fun values m' => ∀ v ∈ values, m'.heap.Refers v
  apply : ∀ {m callee arguments}, m.Linked → m.heap.Refers callee →
    (∀ v ∈ arguments, m.heap.Refers v) → (apply n callee arguments).UpholdsValue m
  enter : ∀ {m} {closure : Closure} {arguments}, m.Linked →
    closure.frame < m.heap.frames.size → (∀ v ∈ arguments, m.heap.Refers v) →
    (enter n closure arguments).UpholdsValue m
  execute : ∀ {m} s, m.Linked → (execute n s).Upholds m ReturnsRefer
  executeEach : ∀ {m} body, m.Linked → (executeEach n body).Upholds m ReturnsRefer

namespace UpholdsAt

theorem evaluate_succ (ih : UpholdsAt n) (e : Expr) (linked : m.Linked) :
    (TreeWalk.evaluate (n + 1) e).UpholdsValue m := by
  cases e with
  | literal => exact .pure linked trivial
  | «variable» | this => exact readReference_upholds linked _
  | assign reference value =>
      refine (ih.evaluate value linked).bind fun linked₁ _ refers => ?_
      refine (writeReference_upholds linked₁ refers reference).bind fun linked₂ grows _ => ?_
      exact .pure linked₂ (refers.later grows)
  | super => exact readSuper_upholds linked _ _
  | grouping inner => exact ih.evaluate inner linked
  | unary _ operand =>
      exact (ih.evaluate operand linked).bind fun linked₁ _ _ =>
        operate_upholds linked₁ (Operators.unary_fair _ _)
  | binary left _ right =>
      exact (ih.evaluate left linked).bind fun linked₁ _ _ =>
        (ih.evaluate right linked₁).bind fun linked₂ _ _ =>
        operate_upholds linked₂ (Operators.binary_fair _ _ _)
  | logical left operator right =>
      refine (ih.evaluate left linked).bind fun {v _} linked₁ _ refers => ?_
      cases (if operator.kind = .orWord then v.isTruthy else !v.isTruthy) with
      | true => exact .pure linked₁ refers
      | false => exact ih.evaluate right linked₁
  | conditional condition consequent alternative =>
      refine (ih.evaluate condition linked).bind fun {v _} linked₁ _ _ => ?_
      cases v.isTruthy with
      | true => exact ih.evaluate consequent linked₁
      | false => exact ih.evaluate alternative linked₁
  | comma items =>
      refine (ih.evaluateEach items linked).bind fun {values _} linked₁ _ refers => ?_
      refine .pure linked₁ ?_
      rw [List.getLastD_eq_getLast?]
      cases last : values.getLast? with
      | none => trivial
      | some v => exact refers v (List.mem_of_getLast? last)
  | call callee paren arguments =>
      refine (ih.evaluate callee linked).bind fun {f _} linked₁ _ refers => ?_
      refine .inspect_bind linked₁ fun {arity} _ => ?_
      by_cases same : arguments.length = arity
      · rw [if_neg (not_not.2 same)]
        refine (ih.evaluateEach arguments linked₁).bind fun linked₂ grows each => ?_
        exact ih.apply linked₂ (refers.later grows) each
      · rw [if_pos same]
        exact .throw linked₁ _
  | get object name =>
      refine (ih.evaluate object linked).bind fun {v _} linked₁ _ _ => ?_
      cases v with
      | object id => exact readProperty_upholds linked₁ _ _
      | scalar | closure | classRef | clock => exact .throw linked₁ _
  | set object name value =>
      refine (ih.evaluate object linked).bind fun {v _} linked₁ _ _ => ?_
      cases v with
      | object id =>
          refine (ih.evaluate value linked₁).bind fun linked₂ _ refers => ?_
          refine (writeField_upholds linked₂ refers _ _).bind fun linked₃ grows _ => ?_
          exact .pure linked₃ (refers.later grows)
      | scalar | closure | classRef | clock => exact .throw linked₁ _
  | lambda => exact closeOver_upholds linked _ _ _

theorem evaluateEach_succ (ih : UpholdsAt n) (items : List Expr) (linked : m.Linked) :
    (TreeWalk.evaluateEach (n + 1) items).Upholds m fun values m' =>
      ∀ v ∈ values, m'.heap.Refers v := by
  cases items with
  | nil => exact .pure linked nofun
  | cons item rest =>
      refine (ih.evaluate item linked).bind fun {v _} linked₁ _ refers => ?_
      refine (ih.evaluateEach rest linked₁).bind fun linked₂ grows others => .pure linked₂ ?_
      rintro w (_ | ⟨_, among⟩)
      · exact refers.later grows
      · exact others w among

theorem apply_succ (ih : UpholdsAt n) {callee : Value} {arguments : List Value}
    (linked : m.Linked) (refers : m.heap.Refers callee)
    (each : ∀ v ∈ arguments, m.heap.Refers v) :
    (TreeWalk.apply (n + 1) callee arguments).UpholdsValue m := by
  cases callee with
  | closure id =>
      refine (closureOf_upholds linked id).bind fun linked₁ grows inside => ?_
      exact ih.enter linked₁ inside fun v among => (each v among).later grows
  | classRef id =>
      refine (newObject_upholds linked refers).bind fun {object _} linked₁ grows₁ there => ?_
      refine .inspect_bind linked₁ fun {initializer} _ => ?_
      cases initializer with
      | none => exact .pure linked₁ there
      | some method =>
          refine (bind_upholds linked₁ there method).bind fun {bound _} linked₂ grows₂ _ => ?_
          refine (closureOf_upholds linked₂ bound).bind fun linked₃ grows₃ inside => ?_
          have grows := (grows₁.trans grows₂).trans grows₃
          refine (ih.enter linked₃ inside fun v among => (each v among).later grows).bind
            fun linked₄ grows₄ _ => ?_
          exact .pure linked₄ (there.later ((grows₂.trans grows₃).trans grows₄))
  | clock => exact readClock_upholds linked
  | scalar | object => exact .throw linked _

theorem enter_succ (ih : UpholdsAt n) {closure : Closure} {arguments : List Value}
    (linked : m.Linked) (inside : closure.frame < m.heap.frames.size)
    (each : ∀ v ∈ arguments, m.heap.Refers v) :
    (TreeWalk.enter (n + 1) closure arguments).UpholdsValue m := by
  refine (newFrame_upholds linked inside).bind fun {outer _} linked₁ grows₁ made₁ => ?_
  have each₁ : ∀ v ∈ arguments, _ := fun v among => (each v among).later grows₁
  refine (defineEach_upholds linked₁ each₁ outer closure.params).bind
    fun linked₂ grows₂ _ => ?_
  refine (newFrame_upholds linked₂ (Nat.lt_of_lt_of_le made₁ grows₂.size)).bind
    fun {inner m₃} linked₃ _ made₃ => ?_
  have body := ih.executeEach closure.body (m := { m₃ with current := inner }) ⟨linked₃.heap, made₃⟩
  refine (Upholds.inFrame (Q := ReturnsRefer) linked₃ body).bind
    fun {completion _} linked₄ _ returns => ?_
  cases closure.isInitializer with
  | true => exact thisOf_upholds linked₄ _
  | false => exact .pure linked₄ returns

theorem execute_succ (ih : UpholdsAt n) (s : Stmt) (linked : m.Linked) :
    (TreeWalk.execute (n + 1) s).Upholds m ReturnsRefer := by
  rcases s with value | value | ⟨_, _ | initial⟩ | body | ⟨condition, consequent, alternative⟩ |
    ⟨condition, body⟩ | function | _ | ⟨_, _ | value⟩
  case expression => exact (ih.evaluate value linked).bind fun linked₁ _ _ => .pure linked₁ trivial
  case print =>
    refine (ih.evaluate value linked).bind fun {v m₁} linked₁ _ _ => .get_bind ?_
    have run : (do print (m₁.heap.text v); return .normal : Eval Completion).Gives m₁ .normal
      { m₁ with output := m₁.output ++ m₁.heap.text v ++ "\n" } := rfl
    exact .of_gives run ⟨linked₁.heap, linked₁.inside⟩ (.refl _ _) trivial
  case varDecl.none =>
    exact (defineHere_upholds linked (v := .nil) trivial _).bind fun linked₁ _ _ =>
      .pure linked₁ trivial
  case varDecl.some =>
    refine (ih.evaluate initial linked).bind fun linked₁ _ refers => ?_
    exact (defineHere_upholds linked₁ refers _).bind fun linked₂ _ _ => .pure linked₂ trivial
  case block =>
    refine .get_bind ((newFrame_upholds linked linked.inside).bind
      fun {frame m₁} linked₁ _ made => ?_)
    exact .inFrame linked₁ (ih.executeEach body (m := { m₁ with current := frame })
      ⟨linked₁.heap, made⟩)
  case branch =>
    refine (ih.evaluate condition linked).bind fun {v _} linked₁ _ _ => ?_
    cases v.isTruthy with
    | true => exact ih.execute consequent linked₁
    | false =>
        cases alternative with
        | none => exact .pure linked₁ trivial
        | some statement => exact ih.execute statement linked₁
  case loop =>
    refine (ih.evaluate condition linked).bind fun {v _} linked₁ _ _ => ?_
    cases v.isTruthy with
    | false => exact .pure linked₁ trivial
    | true =>
        refine (ih.execute body linked₁).bind fun {completion _} linked₂ _ returns => ?_
        cases completion with
        | normal => exact ih.execute _ linked₂
        | returned => exact .pure linked₂ returns
  case functionDecl =>
    refine (closeOver_upholds linked _ _ _).bind fun linked₁ _ refers => ?_
    exact (defineHere_upholds linked₁ refers _).bind fun linked₂ _ _ => .pure linked₂ trivial
  case classDecl =>
    exact (declareClass_upholds linked _ _ _).bind fun linked₁ _ _ => .pure linked₁ trivial
  case returns.none => exact .pure linked trivial
  case returns.some =>
    exact (ih.evaluate value linked).bind fun linked₁ _ refers => .pure linked₁ refers

theorem executeEach_succ (ih : UpholdsAt n) (body : List Stmt) (linked : m.Linked) :
    (TreeWalk.executeEach (n + 1) body).Upholds m ReturnsRefer := by
  cases body with
  | nil => exact .pure linked trivial
  | cons s rest =>
      refine (ih.execute s linked).bind fun {completion _} linked₁ _ returns => ?_
      cases completion with
      | normal => exact ih.executeEach rest linked₁
      | returned => exact .pure linked₁ returns

end UpholdsAt

/-- Whatever the fuel is, the evaluator keeps the links of a linked machine. -/
theorem upholdsAt (fuel : Nat) : UpholdsAt fuel := by
  induction fuel with
  | zero =>
      exact ⟨fun _ linked => .throw linked _, fun _ linked => .throw linked _,
        fun linked _ _ => .throw linked _, fun linked _ _ => .throw linked _,
        fun _ linked => .throw linked _, fun _ linked => .throw linked _⟩
  | succ n ih =>
      exact ⟨ih.evaluate_succ, ih.evaluateEach_succ, ih.apply_succ, ih.enter_succ,
        ih.execute_succ, ih.executeEach_succ⟩

end TreeWalk
