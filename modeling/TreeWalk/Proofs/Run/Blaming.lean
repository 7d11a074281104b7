import TreeWalk.Proofs.Run.Sequels
import TreeWalk.Proofs.Scope.Failing

/-!
# Where broken rules are found

An operation of the machine that finds a rule of the language broken says so at one of the
tokens that it was given. Most operations find none.

## Implementation notes

`Blames` lists the tokens at which an operation may find a broken rule, and has a rule for
every way in which operations are composed. Faults and a lack of fuel are no broken rules.
-/

namespace TreeWalk

variable {α β : Type} {m : Machine} {e : RuntimeError} {tokens : List Token}

namespace Eval

/-- A step stops for a broken rule. -/
abbrev Raises (act : Eval α) (m : Machine) (e : RuntimeError) : Prop := act.Fails m (.error e)

theorem inspect_fails {look : Machine → Except Stop α} {stop : Stop} :
    (inspect look).Fails m stop ↔ look m = .error stop := by
  simp only [EStateM.Fails, EStateM.run, inspect]
  cases look m <;> simp

theorem inFrame_fails {frame : FrameId} {act : Eval α} {stop : Stop} :
    (inFrame frame act).Fails m stop ↔ act.Fails { m with current := frame } stop := by
  simp only [EStateM.Fails, EStateM.run, inFrame]
  cases act { m with current := frame } <;> simp

/-- If a step finds a rule broken, it is at one of these tokens. -/
def Blames (act : Eval α) (tokens : List Token) : Prop :=
  ∀ m e, act.Raises m e → e.token ∈ tokens

namespace Blames

variable {x y : Eval α} {f : α → Eval β}

protected theorem pure (a : α) : (pure a : Eval α).Blames tokens := by
  intro m e raised
  cases pure_fails.1 raised

protected theorem fault (fault : Fault) : (throw (.fault fault) : Eval α).Blames tokens := by
  intro m e raised
  cases throw_fails.1 raised

protected theorem raise {cause : RuntimeCause} {token : Token} (h : token ∈ tokens) :
    (raise cause token : Eval α).Blames tokens := by
  intro m e raised
  cases throw_fails.1 raised
  exact h

protected theorem bind (first : x.Blames tokens) (next : ∀ a, (f a).Blames tokens) :
    (x >>= f).Blames tokens := by
  intro m e raised
  obtain raised | ⟨a, m', -, raised⟩ := bind_fails.1 raised
  · exact first m e raised
  · exact next a m' e raised

protected theorem map {g : α → β} (h : x.Blames tokens) : (g <$> x).Blames tokens :=
  fun m e raised => h m e (map_fails.1 raised)

protected theorem get : (get : Eval Machine).Blames tokens := by
  rintro m e ⟨_, raised⟩
  cases raised

protected theorem inspect {look : Machine → Except Stop α}
    (h : ∀ m e, look m = .error (.error e) → e.token ∈ tokens) : (inspect look).Blames tokens :=
  fun m e raised => h m e (inspect_fails.1 raised)

theorem mono {others : List Token} (h : x.Blames tokens) (more : tokens ⊆ others) :
    x.Blames others :=
  fun m e raised => more (h m e raised)

theorem not_raises (h : x.Blames []) : ¬x.Raises m e :=
  fun raised => List.not_mem_nil (h m e raised)

/-- What breaks a rule behind a step that breaks none is what follows the step. -/
theorem next (h : x.Blames []) (raised : (x >>= f).Raises m e) :
    ∃ a m', x.Gives m a m' ∧ (f a).Raises m' e :=
  (bind_fails.1 raised).resolve_left h.not_raises

end Blames

theorem newFrame_blames (parent : FrameId) : (newFrame parent).Blames tokens := by
  rintro m e ⟨_, raised⟩
  cases raised

theorem define_blames (frame : FrameId) (name : String) (value : Value) :
    (define frame name value).Blames tokens := by
  rintro m e ⟨_, raised⟩
  cases raised

theorem defineHere_blames (name : String) (value : Value) :
    (defineHere name value).Blames tokens :=
  .bind .get fun _ => define_blames _ _ _

theorem defineEach_blames (frame : FrameId) (params : List Token) (arguments : List Value) :
    (defineEach frame params arguments).Blames tokens := by
  induction params generalizing arguments with
  | nil => exact .pure _
  | cons param params ih =>
      cases arguments with
      | nil => exact .pure _
      | cons argument arguments => exact .bind (define_blames _ _ _) fun _ => ih arguments

theorem newClosure_blames (closure : Closure) : (newClosure closure).Blames tokens := by
  rintro m e ⟨_, raised⟩
  cases raised

theorem newClass_blames (record : ClassRecord) : (newClass record).Blames tokens := by
  rintro m e ⟨_, raised⟩
  cases raised

theorem newObject_blames (classId : ClassId) : (newObject classId).Blames tokens := by
  rintro m e ⟨_, raised⟩
  cases raised

theorem writeField_blames (id : ObjectId) (name : String) (value : Value) :
    (writeField id name value).Blames tokens := by
  rintro m e ⟨_, raised⟩
  cases raised

theorem print_blames (line : String) : (print line).Blames tokens := by
  rintro m e ⟨_, raised⟩
  cases raised

theorem readClock_blames : readClock.Blames tokens := by
  rintro m e ⟨_, raised⟩
  cases raised

theorem findMethod_blames (classId : ClassId) (name : String) :
    (findMethod classId name).Blames tokens :=
  .inspect fun _ _ found => nomatch found

theorem thisOf_blames (frame : FrameId) : (thisOf frame).Blames tokens := by
  refine .inspect fun m e found => ?_
  split at found <;> cases found

theorem closureOf_blames (id : ClosureId) : (closureOf id).Blames tokens := by
  refine .inspect fun m e found => ?_
  split at found <;> cases found

theorem objectOf_blames (id : ObjectId) : (objectOf id).Blames tokens := by
  refine .inspect fun m e found => ?_
  split at found <;> cases found

theorem bind_blames (method : ClosureId) (receiver : Value) :
    (Eval.bind method receiver).Blames tokens :=
  .bind (closureOf_blames _) fun _ => .bind (newFrame_blames _) fun _ =>
    .bind (define_blames _ _ _) fun _ => newClosure_blames _

theorem methodFrame_blames (parent : Option ClassId) : (methodFrame parent).Blames tokens := by
  cases parent with
  | none => exact .bind .get fun _ => .pure _
  | some parent =>
      exact .bind .get fun _ => .bind (newFrame_blames _) fun _ =>
        .bind (define_blames _ _ _) fun _ => .pure _

theorem newMethods_blames (frame : FrameId) (methods : List FunctionDecl) :
    (newMethods frame methods).Blames tokens := by
  induction methods with
  | nil => exact .pure _
  | cons method rest ih =>
      exact .bind (newClosure_blames _) fun _ => .bind ih fun _ => .pure _

end Eval

open Eval

theorem closeOver_blames (name : Option String) (params : List Token) (body : List Stmt) :
    (closeOver name params body).Blames tokens :=
  .bind .get fun _ => .bind (newClosure_blames _) fun _ => .pure _

namespace Frames

variable {fs : Frames Value} {i : FrameId} {distance : Nat} {name : Token}

theorem ancestor_error {stop : Stop} (h : fs.ancestor i distance = .error stop) :
    stop = .fault (.noFrame distance) := by
  unfold ancestor at h
  split at h <;> cases h
  rfl

theorem readAt_error (h : fs.readAt i distance name = .error (.error e)) : e.token = name := by
  obtain missing | ⟨j, -, missing⟩ := Except.bind_error h
  · cases ancestor_error missing
  · cases read_error missing
    rfl

theorem targetAt_error (h : fs.targetAt i distance name = .error (.error e)) :
    e.token = name := by
  obtain missing | ⟨j, -, missing⟩ := Except.bind_error h
  · cases ancestor_error missing
  · cases target_error missing
    rfl

end Frames

namespace Operators

variable {operator : Token}

theorem unary_error {operand : Value} (h : unary operator operand = .error (.error e)) :
    e.token = operator := by
  unfold unary refuse at h
  split at h
  · cases h
  · split at h <;> cases h
    rfl
  · cases h
    rfl

theorem arithmetic_error {x y : Float} (h : arithmetic operator x y = .error (.error e)) :
    e.token = operator := by
  unfold arithmetic quotient refuse at h
  split at h
  case h_7 =>
    split at h
    · cases h
      rfl
    · cases h
  all_goals
    cases h
    try rfl

theorem binary_error {left right : Value}
    (h : binary operator left right = .error (.error e)) : e.token = operator := by
  unfold binary refuse at h
  split at h
  · cases h
  · cases h
  · split at h <;> cases h
    rfl
  · split at h
    · exact arithmetic_error h
    · cases h
      rfl

end Operators

namespace Eval

theorem operate_raises {result : Except Stop Value} (h : (operate result).Raises m e) :
    result = .error (.error e) := by
  cases result with
  | ok value => cases pure_fails.1 h
  | error stop => exact congrArg _ (throw_fails.1 h).symm

theorem readReference_blames (reference : Reference) :
    (readReference reference).Blames [reference.name] := by
  refine .inspect fun m e missing => List.mem_singleton.2 ?_
  split at missing
  · exact Frames.readAt_error missing
  · cases Frames.read_error missing
    rfl

theorem writeReference_blames (reference : Reference) (value : Value) :
    (writeReference reference value).Blames [reference.name] := by
  refine .bind (.inspect fun m e missing => List.mem_singleton.2 ?_) fun _ => define_blames _ _ _
  split at missing
  · exact Frames.targetAt_error missing
  · cases Frames.target_error missing
    rfl

theorem readProperty_blames (id : ObjectId) (name : Token) :
    (readProperty id name).Blames [name] := by
  refine .bind (objectOf_blames _) fun record => ?_
  split
  · exact .pure _
  · refine .bind (findMethod_blames _ _) fun method => ?_
    cases method with
    | none => exact .raise List.mem_cons_self
    | some method => exact .bind (bind_blames _ _) fun _ => .pure _

theorem readSuper_blames (reference : Reference) (method : Token) :
    (readSuper reference method).Blames [reference.name, method] := by
  unfold readSuper
  cases reference.distance with
  | none => exact .fault _
  | some distance =>
      refine .bind ((readReference_blames reference).mono (by simp)) fun parent =>
        .bind (.inspect fun m e missing => nomatch Frames.ancestor_error missing) fun frame =>
          .bind (thisOf_blames _) fun receiver => ?_
      cases parent with
      | classRef id =>
          refine .bind (findMethod_blames _ _) fun found => ?_
          cases found with
          | none => exact .raise (by simp)
          | some found => exact .bind (bind_blames _ _) fun _ => .pure _
      | scalar | closure | object | clock => exact .fault _

theorem readClass_blames (reference : Reference) :
    (readClass reference).Blames [reference.name] := by
  refine .bind (readReference_blames reference) fun parent => ?_
  split
  · exact .pure _
  · exact .raise List.mem_cons_self

theorem superclassOf_blames (parent : Option Reference) :
    (superclassOf parent).Blames (parent.toList.map Reference.name) := by
  cases parent with
  | none => exact .pure _
  | some reference => exact .map (readClass_blames reference)

theorem declareClass_blames (name : Token) (parent : Option Reference)
    (methods : List FunctionDecl) :
    (declareClass name parent methods).Blames (name :: parent.toList.map Reference.name) := by
  rw [declareClass_eq]
  refine .bind (defineHere_blames _ _) fun _ =>
    .bind ((superclassOf_blames parent).mono (List.subset_cons_self _ _)) fun _ =>
      .bind (methodFrame_blames _) fun _ => .bind (newMethods_blames _ _) fun _ =>
        .bind (newClass_blames _) fun _ => .bind (.inspect fun m e missing => ?_) fun _ =>
          define_blames _ _ _
  cases Frames.target_error missing
  exact List.mem_cons_self

end Eval

theorem calleeArity_blames (callee : Value) (paren : Token) :
    (calleeArity callee paren).Blames [paren] := by
  refine .inspect fun m e missing => ?_
  split at missing <;> cases missing
  exact List.mem_cons_self

end TreeWalk
