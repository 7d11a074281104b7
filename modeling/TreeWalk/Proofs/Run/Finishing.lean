import TreeWalk.Proofs.Run.Containing
import TreeWalk.Proofs.Run.Starting
import TreeWalk.Proofs.Run.Trails

/-!
# A visit ends as what it starts ends

What a visit starts directly is part of its own run: where the one stops, the other stops the
same way. A call gives what is made of the end of the body that it starts.
-/

namespace TreeWalk

open Eval

variable {n : Nat} {m m' mid start : Machine} {v v' : Visit} {stop : Stop}
  {closure : Closure} {arguments : List Value}

/-- A visit stops. -/
def Visit.Stops (v : Visit) (stop : Stop) (m' : Machine) : Prop :=
  match v.task with
  | .evaluate e => evaluate v.fuel e v.machine = .error stop m'
  | .evaluateEach items => evaluateEach v.fuel items v.machine = .error stop m'
  | .apply callee arguments => apply v.fuel callee arguments v.machine = .error stop m'
  | .enter closure arguments => enter v.fuel closure arguments v.machine = .error stop m'
  | .execute s => execute v.fuel s v.machine = .error stop m'
  | .executeEach body => executeEach v.fuel body v.machine = .error stop m'

theorem Visit.Stops.stays (h : v.Stops stop m') : m'.current = v.machine.current := by
  obtain ⟨fuel, task, m⟩ := v
  have stays := staysAt fuel
  cases task with
  | evaluate e => exact after_of_error h ▸ stays.evaluate e m
  | evaluateEach items => exact after_of_error h ▸ stays.evaluateEach items m
  | apply callee arguments => exact after_of_error h ▸ stays.apply callee arguments m
  | enter closure arguments => exact after_of_error h ▸ stays.enter closure arguments m
  | execute s => exact after_of_error h ▸ stays.execute s m
  | executeEach body => exact after_of_error h ▸ stays.executeEach body m

/-- What a call comes to when its body came to this: the machine is in the frame of the caller
again, and an initializer gives the object that it is bound to. -/
def Closure.finish (closure : Closure) (caller : FrameId) :
    EStateM.Result Stop Machine Completion → EStateM.Result Stop Machine Value
  | .ok completion m =>
    (if closure.isInitializer then thisOf closure.frame else return completion.value)
      { m with current := caller }
  | .error stop m => .error stop { m with current := caller }

/-- What a value answers when the function that it runs gave this: a class answers with the object
that it made. -/
def Value.answer (callee : Value) (made : ObjectId) (given : Value) : Value :=
  match callee with
  | .classRef _ => .object made
  | _ => given

/-- A function that is entered gives what finishing the body that it starts gives. -/
theorem enter_of_starts {body : List Stmt}
    (starts : Starts ⟨n + 1, .enter closure arguments, m⟩ ⟨n, .executeEach body, start⟩) :
    enter (n + 1) closure arguments m = closure.finish m.current (executeEach n body start) := by
  cases starts with
  | @body _ _ _ m₂ m₃ _ _ outer inner first second third =>
      have still : m₃.current = m.current := call_frames_current first second third
      rw [enter, Clauses.enter, bind_of_gives first, bind_of_gives second, bind_of_gives third]
      simp only [Bind.bind, EStateM.bind, inFrame, still, Closure.finish]
      cases executeEach n closure.body { m₃ with current := inner } <;> rfl

/-- A value that is applied answers to what the function that it enters gives. -/
theorem apply_of_starts {callee : Value}
    (starts : Starts ⟨n + 1, .apply callee arguments, m⟩ ⟨n, .enter closure arguments, mid⟩) :
    apply (n + 1) callee arguments m =
      (callee.answer m.heap.objects.size <$> enter n closure arguments) mid := by
  cases starts with
  | @closure _ _ id _ _ found =>
      have entered : apply (n + 1) (.closure id) arguments m = enter n closure arguments m :=
        bind_of_gives (closureOf_gives found)
      rw [entered, show (Value.closure id).answer m.heap.objects.size = fun given => given from rfl,
        id_map']
  | @initializer _ _ m₁ _ id method object _ _ _ made declared binds found =>
      have looked : (findMethod id "init").Gives m₁ (some method) m₁ := by
        rw [← declared]
        exact findMethod_gives id "init"
      have entered : apply (n + 1) (.classRef id) arguments m =
          (enter n closure arguments >>= fun _ => return .object object) mid :=
        (bind_of_gives made).trans ((bind_of_gives looked).trans ((bind_of_gives binds).trans
          (bind_of_gives (closureOf_gives found))))
      cases made
      rw [entered, map_eq_pure_bind]
      rfl

/-- A visit stops as soon as one that it starts does, for the same reason and in its own frame. -/
theorem Starts.stops (h : Starts v v') (stops : v'.Stops stop m') :
    v.Stops stop { m' with current := v.machine.current } := by
  have back (same : v'.machine.current = v.machine.current) :
      { m' with current := v.machine.current } = m' :=
    Machine.at_current (stops.stays.trans same)
  have still {n : Nat} {e : Expr} {m m₁ : Machine} {v : Value} (run : (evaluate n e).Gives m v m₁) :
      m₁.current = m.current := ((staysAt n).evaluate e).gives run
  cases h with
  | grouping =>
      rw [back rfl]
      exact stops
  | assigned | unary | binaryLeft | logicalLeft | condition | items | callee | getObject
  | setObject | item | value | printed | initial | branchCondition | loopCondition | returned
  | statement =>
      rw [back rfl]
      exact bind_of_error stops
  | binaryRight run | setValue run | otherItems run =>
      rw [back (still run)]
      exact (bind_of_gives run).trans (bind_of_error stops)
  | logicalRight run settled =>
      rw [back (still run)]
      refine (bind_of_gives run).trans ?_
      rwa [settled]
  | consequent run truthy | branchConsequent run truthy =>
      rw [back (still run)]
      refine (bind_of_gives run).trans ?_
      rwa [if_pos truthy]
  | alternative run falsy | branchAlternative run falsy =>
      rw [back (still run)]
      refine (bind_of_gives run).trans ?_
      rwa [if_neg (Bool.eq_false_iff.1 falsy)]
  | arguments run takes =>
      rw [back (still run)]
      refine (bind_of_gives run).trans ((bind_of_gives (calleeArity_gives takes _)).trans ?_)
      rw [if_neg (not_not.2 rfl)]
      exact bind_of_error stops
  | called run takes run' =>
      rw [back ((((staysAt _).evaluateEach _).gives run').trans (still run))]
      refine (bind_of_gives run).trans ((bind_of_gives (calleeArity_gives takes _)).trans ?_)
      rw [if_neg (not_not.2 rfl)]
      exact (bind_of_gives run').trans stops
  | closure found =>
      rw [back rfl]
      exact (apply_of_starts (.closure found)).trans (map_of_error stops)
  | initializer made declared binds found =>
      rw [back (((staying.bindMethod _ _).gives binds).trans ((staying.newObject _).gives made))]
      exact (apply_of_starts (.initializer made declared binds found)).trans (map_of_error stops)
  | @body n _ _ _ _ _ _ _ _ first second third =>
      have finished := enter_of_starts (n := n) (.body first second third)
      rw [show executeEach _ _ _ = _ from stops] at finished
      exact finished
  | @block n m m₁ body frame made =>
      have moved : inFrame frame (executeEach n body) m₁ =
          .error stop { m' with current := m₁.current } := inFrame_of_error stops
      rw [(staying.newFrame _).gives made] at moved
      exact get_bind_apply.trans ((bind_of_gives made).trans moved)
  | loopBody run truthy =>
      rw [back (still run)]
      refine (bind_of_gives run).trans ?_
      rw [if_pos truthy]
      exact bind_of_error stops
  | loopAgain run truthy normal =>
      rw [back ((((staysAt _).execute _).gives normal).trans (still run))]
      refine (bind_of_gives run).trans ?_
      rw [if_pos truthy]
      exact (bind_of_gives normal).trans stops
  | otherStatements normal =>
      rw [back (((staysAt _).execute _).gives normal)]
      exact (bind_of_gives normal).trans stops

end TreeWalk
