import TreeWalk.Proofs.Run.Finishing
import TreeWalk.Proofs.Run.Sessions

/-!
# What a call does before its body starts

A call first counts what its callee takes. If the callee takes nothing, or not as many as there
are arguments, no argument is evaluated. Otherwise they are evaluated in turn, and the body of
the function starts in a frame inside of one that binds exactly its parameters to them.

## Implementation notes

The function that a value runs when it is called is described from the lineage of classes and
not by the search for its initializer. It is told on the machine on which the arguments were
counted, since evaluating them changes neither classes nor closures.
-/

namespace TreeWalk

open Eval

variable {W : Spot → Prop} {P : Pending} {n : Nat} {m m₁ m₂ : Machine} {v : Value}

/-- A value that is called for something. -/
def Value.IsCallable : Value → Prop
  | .closure _ | .classRef _ | .clock => True
  | .scalar _ | .object _ => False

namespace Heap

variable {h : Heap}

/-- The function that runs when a value is called: a closure, or the initializer of the first
class in the lineage of a class that declares one. -/
inductive Runs (h : Heap) : Value → Closure → Prop
  | closure {id closure} : h.closures[id]? = some closure → Runs h (.closure id) closure
  | initializer {c nearer d farther id closure} : h.lineage c = nearer ++ d :: farther →
      (∀ e ∈ nearer, h.ownMethod? e "init" = none) → h.ownMethod? d "init" = some id →
      h.closures[id]? = some closure → Runs h (.classRef c) closure

/-- The number of arguments that a value takes: one for each parameter of the function that it
runs, and none if it runs nothing but is called all the same. -/
inductive Takes (h : Heap) : Value → Nat → Prop
  | function {v closure} : h.Runs v closure → Takes h v closure.params.length
  | noInitializer {c} : (∀ d ∈ h.lineage c, h.ownMethod? d "init" = none) → Takes h (.classRef c) 0
  | clock : Takes h .clock 0

/-- A class that has an initializer runs it. -/
theorem Runs.of_method? {c : ClassId} {id : ClosureId} {closure : Closure}
    (declared : h.method? c "init" = some id) (found : h.closures[id]? = some closure) :
    h.Runs (.classRef c) closure := by
  obtain ⟨nearer, d, farther, cut, own, absent⟩ := List.findSome?_eq_some_iff.1 declared
  exact .initializer cut absent own found

/-- What a class runs is the initializer that is looked up. -/
theorem Runs.method? {c : ClassId} {closure : Closure} (runs : h.Runs (.classRef c) closure) :
    ∃ id, h.method? c "init" = some id ∧ h.closures[id]? = some closure := by
  cases runs with
  | initializer cut absent own found =>
      exact ⟨_, List.findSome?_eq_some_iff.2 ⟨_, _, _, cut, own, absent⟩, found⟩

/-- Whoever runs a function takes as many arguments as it has parameters. -/
theorem Runs.arity? {closure : Closure} (runs : h.Runs v closure) :
    h.arity? v = some closure.params.length := by
  cases v with
  | closure id =>
      cases runs with
      | closure found => simp [Heap.arity?, closureArity, found]
  | classRef c =>
      obtain ⟨id, declared, found⟩ := runs.method?
      simp [Heap.arity?, declared, closureArity, found]
  | scalar | object | clock => cases runs

/-- There is no other number of arguments that a value takes than the one that is looked up. -/
theorem Takes.arity? {k : Nat} (takes : h.Takes v k) : h.arity? v = some k := by
  cases takes with
  | function runs => exact runs.arity?
  | noInitializer absent =>
      have declared : h.method? _ "init" = none := List.findSome?_eq_none_iff.2 absent
      simp [Heap.arity?, declared]
  | clock => rfl

/-- On a sound heap a value takes a number of arguments exactly if it is called for
something, and then this is the number that is looked up. -/
theorem Sound.arity? (sound : h.Sound W P) (valid : h.Valid W P v) :
    (v.IsCallable → ∃ k, h.arity? v = some k ∧ h.Takes v k) ∧
      (¬v.IsCallable → h.arity? v = none) := by
  cases v with
  | closure id =>
      obtain ⟨closure, found, -⟩ := valid
      have runs : h.Runs (.closure id) closure := .closure found
      exact ⟨fun _ => ⟨_, runs.arity?, .function runs⟩, fun never => (never trivial).elim⟩
  | classRef c =>
      refine ⟨fun _ => ?_, fun never => (never trivial).elim⟩
      cases declared : h.method? c "init" with
      | none =>
          have absent := List.findSome?_eq_none_iff.1 declared
          exact ⟨0, by simp [Heap.arity?, declared], .noInitializer absent⟩
      | some id =>
          obtain ⟨closure, found, -⟩ := exists_of_method? sound declared
          have runs := Runs.of_method? declared found
          exact ⟨_, runs.arity?, .function runs⟩
  | clock => exact ⟨fun _ => ⟨0, rfl, .clock⟩, fun never => (never trivial).elim⟩
  | scalar | object => exact ⟨fun callable => callable.elim, fun _ => rfl⟩

/-- What a value runs it still runs on a heap that goes on from this one. -/
theorem Runs.carry {h' : Heap} {New : FrameId → String → Prop} {P' : Pending} {closure : Closure}
    (runs : h.Runs v closure) (valid : h.Valid W P v) (carries : h.Carries New P P' h') :
    h'.Runs v closure := by
  cases v with
  | closure id =>
      cases runs with
      | closure found => exact .closure (carries.closures found)
  | classRef c =>
      obtain ⟨id, declared, found⟩ := runs.method?
      rw [← carries.extends.method?_eq valid] at declared
      exact .of_method? declared (carries.closures found)
  | scalar | object | clock => cases runs

end Heap

/-- Expressions that are evaluated one after the other, each of them once and on the machine that
the one before it left; the last two are the fuel and the machine that are left behind them. -/
inductive InTurn : Nat → Machine → List Expr → List Value → Nat → Machine → Prop
  | start {k mid} : InTurn k mid [] [] k mid
  | next {j k e v rest values first mid last} : (evaluate j e).Gives first v mid →
      InTurn j mid rest values k last → InTurn (j + 1) first (e :: rest) (v :: values) k last

/-- Expressions that have values were evaluated in turn. -/
theorem evaluateEach_inTurn {items : List Expr} {values : List Value}
    (run : (evaluateEach n items).Gives m values m₁) : ∃ k, InTurn n m items values (k + 1) m₁ := by
  induction items generalizing n m values with
  | nil =>
      cases n with
      | zero => exact (throw_gives.1 run).elim
      | succ n =>
          obtain ⟨rfl, rfl⟩ := pure_gives.1 run
          exact ⟨n, .start⟩
  | cons e rest ih =>
      cases n with
      | zero => exact (throw_gives.1 run).elim
      | succ n =>
          obtain ⟨v, mid, first, run⟩ := bind_gives.1 run
          obtain ⟨others, mid', second, run⟩ := bind_gives.1 run
          obtain ⟨rfl, rfl⟩ := pure_gives.1 run
          obtain ⟨k, turn⟩ := ih second
          exact ⟨k, .next first turn⟩

/-- If a row of expressions stops the run, then one of them does, behind others that have
values, or there is no fuel left behind these. -/
theorem evaluateEach_stops {items : List Expr} {stop : Stop}
    (run : evaluateEach n items m = .error stop m₁) :
    ∃ before rest values k mid, items = before ++ rest ∧ InTurn n m before values k mid ∧
      ((k = 0 ∧ stop = .outOfFuel ∧ m₁ = mid) ∨
        ∃ j e after, k = j + 1 ∧ rest = e :: after ∧ evaluate j e mid = .error stop m₁) := by
  induction items generalizing n m with
  | nil =>
      cases n with
      | zero =>
          cases run
          exact ⟨[], [], [], 0, _, rfl, .start, .inl ⟨rfl, rfl, rfl⟩⟩
      | succ n => cases run
  | cons e rest ih =>
      cases n with
      | zero =>
          cases run
          exact ⟨[], _, [], 0, _, rfl, .start, .inl ⟨rfl, rfl, rfl⟩⟩
      | succ n =>
          cases first : evaluate n e m with
          | error stop' mid =>
              have whole : evaluateEach (n + 1) (e :: rest) m = .error stop' mid :=
                bind_of_error first
              cases whole.symm.trans run
              exact ⟨[], _, [], n + 1, m, rfl, .start, .inr ⟨n, e, rest, rfl, rfl, first⟩⟩
          | ok v mid =>
              have gives : (evaluate n e).Gives m v mid := first
              have whole : evaluateEach (n + 1) (e :: rest) m =
                  (do return v :: (← evaluateEach n rest)) mid := bind_of_gives gives
              cases others : evaluateEach n rest mid with
              | ok values mid' =>
                  have second : (evaluateEach n rest).Gives mid values mid' := others
                  rw [whole, bind_of_gives second] at run
                  cases run
              | error stop' mid' =>
                  rw [whole, bind_of_error others] at run
                  cases run
                  obtain ⟨before, tail, values, k, mid'', rfl, turn, cause⟩ := ih others
                  exact ⟨e :: before, tail, v :: values, k, mid'', rfl, .next gives turn, cause⟩

/-- A body starts in an empty frame inside of a frame that binds each parameter to its argument
and no other name, and this one lies in the frame of the closure. Everything else is as it was
when the closure was entered. -/
structure Closure.Started (closure : Closure) (arguments : List Value) (m m' : Machine) : Prop where
  current : m'.current = m.heap.frames.size + 1
  inner : m'.heap.frames.parent? m'.current = some m.heap.frames.size
  fresh : ∀ x, m'.heap.frames.local? m'.current x = none
  outer : m'.heap.frames.parent? m.heap.frames.size = some closure.frame
  bound : List.Forall₂ (fun param value =>
    m'.heap.frames.local? m.heap.frames.size param.lexeme = some value) closure.params arguments
  names : ∀ x, m'.heap.frames.Has m.heap.frames.size x ↔ ∃ param ∈ closure.params, param.lexeme = x
  frames : ∀ i < m.heap.frames.size, m'.heap.frames.parent? i = m.heap.frames.parent? i ∧
    ∀ x, m'.heap.frames.local? i x = m.heap.frames.local? i x
  rest : m'.heap.closures = m.heap.closures ∧ m'.heap.classes = m.heap.classes ∧
    m'.heap.objects = m.heap.objects ∧ m'.output = m.output ∧ m'.readings = m.readings ∧
    m'.taken = m.taken

/-- Distinct parameters are bound each to its own argument, and nothing else changes. -/
theorem defineEach_binds {frame : FrameId} {params : List Token} {arguments : List Value}
    (inside : frame < m.heap.frames.size) (distinct : (params.map Token.lexeme).Nodup)
    (enough : params.length = arguments.length) :
    ∃ fs : Frames Value, (defineEach frame params arguments).Gives m () (m.mapFrames fun _ => fs) ∧
      fs.size = m.heap.frames.size ∧ (∀ i, fs.parent? i = m.heap.frames.parent? i) ∧
      List.Forall₂ (fun param value => fs.local? frame param.lexeme = some value) params arguments ∧
      ∀ i x, (i = frame → ∀ param ∈ params, param.lexeme ≠ x) →
        fs.local? i x = m.heap.frames.local? i x := by
  induction params generalizing m arguments with
  | nil =>
      cases arguments with
      | nil => exact ⟨m.heap.frames, rfl, rfl, fun _ => rfl, .nil, fun _ _ _ => rfl⟩
      | cons => cases enough
  | cons param params ih =>
      cases arguments with
      | nil => cases enough
      | cons v arguments =>
          obtain ⟨differs, distinct⟩ := List.nodup_cons.1 distinct
          let m₁ := m.mapFrames (·.define frame param.lexeme v)
          have local₁ (i : FrameId) (x : String) : m₁.heap.frames.local? i x =
              if i = frame ∧ x = param.lexeme then some v else m.heap.frames.local? i x :=
            Frames.local?_define _ _ _ _ _ _ inside
          have inside₁ : frame < m₁.heap.frames.size := by
            simpa [m₁, Machine.mapFrames, Machine.mapHeap] using inside
          obtain ⟨fs, run, size, links, bound, others⟩ := ih inside₁ distinct (Nat.succ.inj enough)
          refine ⟨fs, ?_, ?_, fun i => ?_, .cons ?_ bound, fun i x other => ?_⟩
          · simp only [defineEach, bind_gives]
            exact ⟨_, _, define_gives _ _ _, run⟩
          · simpa [m₁, Machine.mapFrames, Machine.mapHeap] using size
          · rw [links]
            exact Frames.parent?_define ..
          · rw [others frame param.lexeme fun _ other among same => ?_, local₁, if_pos ⟨rfl, rfl⟩]
            exact differs (List.mem_map.2 ⟨other, among, same⟩)
          · rw [others i x fun here p among => other here p (List.mem_cons_of_mem _ among), local₁,
              if_neg]
            rintro ⟨here, rfl⟩
            exact other here param List.mem_cons_self rfl

/-- A closure that is entered with an argument for each of its distinct parameters starts its
body, and starts nothing else. -/
theorem Closure.starts {closure : Closure} {arguments : List Value}
    (distinct : (closure.params.map Token.lexeme).Nodup)
    (enough : closure.params.length = arguments.length) :
    ∃ m', closure.Started arguments m m' ∧ ∀ v, Starts ⟨n + 1, .enter closure arguments, m⟩ v ↔
      v = ⟨n, .executeEach closure.body, m'⟩ := by
  let m₁ := m.mapFrames (·.push (some closure.frame))
  have inside : m.heap.frames.size < m₁.heap.frames.size := by
    simp [m₁, Machine.mapFrames, Machine.mapHeap]
  obtain ⟨fs, run, size, links, bound, others⟩ := defineEach_binds inside distinct enough
  have size : fs.size = m.heap.frames.size + 1 := by
    simpa [m₁, Machine.mapFrames, Machine.mapHeap] using size
  have link₁ (i : FrameId) : fs.parent? i =
      if i = m.heap.frames.size then some closure.frame else m.heap.frames.parent? i :=
    (links i).trans (Frames.parent?_push ..)
  have local₁ (i : FrameId) (x : String) : m₁.heap.frames.local? i x =
      if i = m.heap.frames.size then none else m.heap.frames.local? i x :=
    Frames.local?_push ..
  let m₂ := m₁.mapFrames fun _ => fs
  let m' : Machine := { m₂.mapFrames (·.push (some m.heap.frames.size)) with current := fs.size }
  have link (i : FrameId) : m'.heap.frames.parent? i =
      if i = fs.size then some m.heap.frames.size else fs.parent? i := Frames.parent?_push ..
  have bind (i : FrameId) (x : String) : m'.heap.frames.local? i x =
      if i = fs.size then none else fs.local? i x := Frames.local?_push ..
  have parameters : m.heap.frames.size ≠ fs.size := by
    rw [size]
    exact Nat.ne_of_lt (Nat.lt_succ_self _)
  refine ⟨m', ?_, fun v => ⟨fun starts => ?_, ?_⟩⟩
  · constructor
    case current => exact size
    case inner =>
      rw [link]
      exact if_pos rfl
    case fresh =>
      intro x
      rw [bind]
      exact if_pos rfl
    case outer => rw [link, if_neg parameters, link₁, if_pos rfl]
    case bound =>
      refine bound.imp fun param value same => ?_
      rw [bind, if_neg parameters]
      exact same
    case names =>
      intro x
      rw [Frames.Has, bind, if_neg parameters]
      constructor
      · intro has
        by_contra absent
        rw [others _ x fun _ param among same => absent ⟨param, among, same⟩, local₁,
          if_pos rfl] at has
        cases has
      · rintro ⟨param, among, rfl⟩
        obtain ⟨i, here, rfl⟩ := List.mem_iff_getElem.1 among
        have same := bound.get here (bound.length_eq ▸ here)
        exact Option.isSome_iff_exists.2 ⟨_, same⟩
    case frames =>
      intro i old
      have other : i ≠ fs.size := by
        rw [size]
        exact Nat.ne_of_lt (Nat.lt_succ_of_lt old)
      refine ⟨?_, fun x => ?_⟩
      · rw [link, if_neg other, link₁, if_neg (Nat.ne_of_lt old)]
      · rw [bind, if_neg other, others i x fun here => absurd here (Nat.ne_of_lt old), local₁,
          if_neg (Nat.ne_of_lt old)]
    case rest => exact ⟨rfl, rfl, rfl, rfl, rfl, rfl⟩
  · cases starts with
    | body first second third =>
        cases first.symm.trans (newFrame_gives _)
        cases second.symm.trans run
        cases third.symm.trans (newFrame_gives _)
        rfl
  · rintro rfl
    exact .body (newFrame_gives _) run (newFrame_gives _)

/-- The machine on which a method was bound to a receiver: a frame that binds `this`, and a closure
of its own with the same parameters and the same body. -/
def Machine.withMethod (m : Machine) (method : Closure) (receiver : Value) : Machine :=
  m.mapHeap fun heap => { heap with
    frames := (heap.frames.push (some method.frame)).define heap.frames.size "this" receiver
    closures := heap.closures.push { method with frame := heap.frames.size } }

theorem bind_withMethod {id : ClosureId} {method : Closure} (receiver : Value)
    (found : m.heap.closures[id]? = some method) :
    (Eval.bind id receiver).Gives m m.heap.closures.size (m.withMethod method receiver) := by
  simp only [Eval.bind, bind_gives]
  exact ⟨_, _, closureOf_gives found, _, _, newFrame_gives _, _, _, define_gives _ _ _, rfl⟩

theorem withMethod_made (method : Closure) (receiver : Value) :
    (m.withMethod method receiver).heap.closures[m.heap.closures.size]? =
      some { method with frame := m.heap.frames.size } :=
  Array.getElem?_push_size

/-- A value that is applied to as many arguments as it takes enters the function that it runs:
a closure itself, and an initializer as it is bound to the new object. -/
theorem Visit.Admitted.enters {f : Value} {values : List Value} {closure : Closure}
    (admitted : Visit.Admitted W P ⟨n + 1, .apply f values, m⟩) (runs : m.heap.Runs f closure) :
    ∃ entered mid, entered.params = closure.params ∧ entered.body = closure.body ∧
      Starts ⟨n + 1, .apply f values, m⟩ ⟨n, .enter entered values, mid⟩ := by
  obtain ⟨-, valid, -, -⟩ := admitted
  cases f with
  | closure id =>
      cases runs with
      | closure found => exact ⟨closure, m, rfl, rfl, .closure found⟩
  | classRef c =>
      obtain ⟨id, declared, found⟩ := runs.method?
      have carries := m.withObject_carries (P := P) c
      have same : (m.withObject c).heap.method? c "init" = some id :=
        (carries.extends.method?_eq valid).trans declared
      have bound := bind_withMethod (.object m.heap.objects.size) (carries.closures found)
      have made := withMethod_made (m := m.withObject c) closure (.object m.heap.objects.size)
      let entered : Closure := { closure with frame := (m.withObject c).heap.frames.size }
      exact ⟨entered, _, rfl, rfl, .initializer (newObject_gives _) same bound made⟩
  | scalar | object | clock => cases runs

/-- A function is entered with one argument for each of its parameters, which are distinct, and
gives what finishing its body gives. -/
theorem Visit.Admitted.starts {closure : Closure} {values : List Value}
    (admitted : Visit.Admitted W P ⟨n + 1, .enter closure values, m⟩) :
    ∃ start, closure.Started values m start ∧
      (∀ v, Starts ⟨n + 1, .enter closure values, m⟩ v ↔
        v = ⟨n, .executeEach closure.body, start⟩) ∧
      enter (n + 1) closure values m =
        closure.finish m.current (executeEach n closure.body start) := by
  obtain ⟨-, ⟨⟨views, ⟨-, distinct, -⟩, -⟩, -⟩, -, enough⟩ := admitted
  obtain ⟨start, started, only⟩ := Closure.starts (m := m) (n := n) distinct enough
  exact ⟨start, started, only, enter_of_starts ((only _).2 rfl)⟩

section Calls

variable {callee : Expr} {paren : Token} {arguments : List Expr} {f : Value}

/-- A call stops for a reason on the machine that its callee left, and starts nothing but the
callee. -/
structure Refuses (n : Nat) (callee : Expr) (paren : Token) (arguments : List Expr) (m : Machine)
    (cause : RuntimeCause) (m₁ : Machine) : Prop where
  stops : evaluate (n + 1) (.call callee paren arguments) m = .error (.error ⟨cause, paren⟩) m₁
  only : ∀ v, Starts ⟨n + 1, .evaluate (.call callee paren arguments), m⟩ v →
    v = ⟨n, .evaluate callee, m⟩

/-- A call evaluates its arguments in turn on the machine that its callee left. Where one of them
stops the run, the call stops the same way. If they all have values, the call is what applying
the callee to them gives, and this is made of what the body of the function that the callee runs
comes to, which starts with its parameters bound to them. -/
structure Proceeds (n : Nat) (callee : Expr) (paren : Token) (arguments : List Expr) (m : Machine)
    (f : Value) (m₁ : Machine) : Prop where
  stops : ∀ stop m₂, evaluateEach n arguments m₁ = .error stop m₂ →
    evaluate (n + 1) (.call callee paren arguments) m = .error stop m₂ ∧
      ∃ before rest values k mid, arguments = before ++ rest ∧ InTurn n m₁ before values k mid ∧
        ((k = 0 ∧ stop = .outOfFuel ∧ m₂ = mid) ∨
          ∃ j e after, k = j + 1 ∧ rest = e :: after ∧ evaluate j e mid = .error stop m₂)
  applies : ∀ values m₂, (evaluateEach n arguments).Gives m₁ values m₂ →
    (∃ k, InTurn n m₁ arguments values (k + 1) m₂) ∧
      evaluate (n + 1) (.call callee paren arguments) m = apply n f values m₂
  starts : ∀ values m₂ closure j, (evaluateEach n arguments).Gives m₁ values m₂ →
    m₁.heap.Runs f closure → n = j + 2 →
    ∃ entered mid start, entered.params = closure.params ∧ entered.body = closure.body ∧
      Starts ⟨j + 2, .apply f values, m₂⟩ ⟨j + 1, .enter entered values, mid⟩ ∧
      Starts ⟨j + 1, .enter entered values, mid⟩ ⟨j, .executeEach closure.body, start⟩ ∧
      entered.Started values mid start ∧
      apply (j + 2) f values m₂ =
        (f.answer m₂.heap.objects.size <$> enter (j + 1) entered values) mid ∧
      enter (j + 1) entered values mid =
        entered.finish mid.current (executeEach j closure.body start)

/-- What is left of a call behind its callee. -/
theorem call_of_gives (run : (evaluate n callee).Gives m f m₁) :
    evaluate (n + 1) (.call callee paren arguments) m =
      (do
        let arity ← calleeArity f paren
        if arguments.length ≠ arity then raise (.argumentCount arity arguments.length) paren
        else apply n f (← evaluateEach n arguments)) m₁ := by
  exact bind_of_gives run

/-- Something that is not called for anything is refused. -/
theorem refuses_of_none (run : (evaluate n callee).Gives m f m₁)
    (none : m₁.heap.arity? f = none) :
    Refuses n callee paren arguments m (.notCallable f.typeName) m₁ := by
  constructor
  · have refused : calleeArity f paren m₁ =
        .error (.error ⟨.notCallable f.typeName, paren⟩) m₁ := by
      simp [calleeArity, inspect, none]
    rw [call_of_gives run]
    exact bind_of_error refused
  · intro v starts
    cases starts with
    | callee => rfl
    | arguments run' takes | called run' takes =>
        cases run.symm.trans run'
        cases none.symm.trans takes

/-- A wrong number of arguments is refused. -/
theorem refuses_of_differs {k : Nat} (run : (evaluate n callee).Gives m f m₁)
    (takes : m₁.heap.arity? f = some k) (differs : arguments.length ≠ k) :
    Refuses n callee paren arguments m (.argumentCount k arguments.length) m₁ := by
  constructor
  · rw [call_of_gives run, bind_of_gives (calleeArity_gives takes paren), if_pos differs]
    rfl
  · intro v starts
    cases starts with
    | callee => rfl
    | arguments run' takes' | called run' takes' =>
        cases run.symm.trans run'
        cases takes.symm.trans takes'
        exact absurd rfl differs

theorem call_of_takes (run : (evaluate n callee).Gives m f m₁)
    (takes : m₁.heap.arity? f = some arguments.length) :
    evaluate (n + 1) (.call callee paren arguments) m =
      (evaluateEach n arguments >>= apply n f) m₁ := by
  rw [call_of_gives run, bind_of_gives (calleeArity_gives takes paren), if_neg (not_not.2 rfl)]

/-- The right number of arguments is evaluated and bound. -/
theorem proceeds_of_takes (known : Known W)
    (admitted : Visit.Admitted W P ⟨n + 1, .evaluate (.call callee paren arguments), m⟩)
    (run : (evaluate n callee).Gives m f m₁) (takes : m₁.heap.arity? f = some arguments.length) :
    Proceeds n callee paren arguments m f m₁ := by
  have whole : evaluate (n + 1) (.call callee paren arguments) m =
      (evaluateEach n arguments >>= apply n f) m₁ := call_of_takes run takes
  constructor
  case stops =>
    intro stop m₂ stopped
    refine ⟨?_, evaluateEach_stops stopped⟩
    rw [whole]
    exact bind_of_error stopped
  case applies =>
    intro values m₂ gives
    refine ⟨evaluateEach_inTurn gives, ?_⟩
    rw [whole]
    exact bind_of_gives gives
  case starts =>
    rintro values m₂ closure j gives runs rfl
    have evaluated := (.callee : Starts _ ⟨j + 2, .evaluate callee, m⟩).admitted known admitted
    obtain ⟨-, sound₁, -, valid₁⟩ := ((keeps known (j + 2)).evaluate evaluated).gives run
    have inTurn := (Starts.arguments run takes).admitted (v := ⟨_, _, _⟩) known admitted
    obtain ⟨-, -, carries, -⟩ := ((keeps known (j + 2)).evaluateEach inTurn).gives gives
    have called : Starts ⟨j + 3, .evaluate (.call callee paren arguments), m⟩
        ⟨j + 2, .apply f values, m₂⟩ := .called run takes gives
    have applied := called.admitted known admitted
    obtain ⟨entered, mid, params, body, enters⟩ := applied.enters (runs.carry valid₁ carries)
    obtain ⟨start, bound, starts, finished⟩ := (enters.admitted known applied).starts
    rw [body] at starts finished
    exact ⟨entered, mid, start, params, body, enters, (starts _).2 rfl, bound,
      apply_of_starts enters, finished⟩

/-- Whatever a call is visited with, it refuses or proceeds. -/
theorem Visit.Admitted.call (known : Known W)
    (admitted : Visit.Admitted W P ⟨n + 1, .evaluate (.call callee paren arguments), m⟩)
    (run : (evaluate n callee).Gives m f m₁) :
    (¬f.IsCallable → Refuses n callee paren arguments m (.notCallable f.typeName) m₁) ∧
      (f.IsCallable → ∃ k, m₁.heap.Takes f k ∧
        (arguments.length ≠ k →
          Refuses n callee paren arguments m (.argumentCount k arguments.length) m₁) ∧
        (arguments.length = k → Proceeds n callee paren arguments m f m₁)) := by
  have evaluated := (.callee : Starts _ ⟨n, .evaluate callee, m⟩).admitted known admitted
  obtain ⟨-, sound₁, -, valid₁⟩ := ((keeps known n).evaluate evaluated).gives run
  obtain ⟨takes, takesNothing⟩ := sound₁.arity? valid₁
  constructor
  · intro never
    exact refuses_of_none run (takesNothing never)
  · intro callable
    obtain ⟨k, looked, takes⟩ := takes callable
    refine ⟨k, takes, refuses_of_differs run looked, ?_⟩
    rintro rfl
    exact proceeds_of_takes known admitted run looked

end Calls

section Sessions

variable {readings : Nat → Float} {history : History} {s : Session} {fuel : Nat} {mode : Mode}
  {source : String}

/-- In a session whose trees all went through the scope rules, a call that a step comes to is
refused on the machine that its callee left if that takes no arguments or another number of
them. Otherwise its arguments are evaluated in turn and bound to the parameters. And whenever
a function is entered, by whatever call, its body starts in a frame inside of one that binds
exactly its parameters, each to the argument at its position, and what the call gives is what
this body comes to. -/
theorem calls_bind_parameters (reached : Reached readings history s) :
    (∀ n callee paren arguments m pending f m₁,
      s.Visits fuel mode source ⟨n + 1, .evaluate (.call callee paren arguments), m⟩ pending →
      (evaluate n callee).Gives m f m₁ →
      (¬f.IsCallable → Refuses n callee paren arguments m (.notCallable f.typeName) m₁) ∧
      (f.IsCallable → ∃ k, m₁.heap.Takes f k ∧
        (arguments.length ≠ k →
          Refuses n callee paren arguments m (.argumentCount k arguments.length) m₁) ∧
        (arguments.length = k → Proceeds n callee paren arguments m f m₁))) ∧
      ∀ n closure values m pending,
        s.Visits fuel mode source ⟨n + 1, .enter closure values, m⟩ pending →
        ∃ start, closure.Started values m start ∧
          (∀ v, Starts ⟨n + 1, .enter closure values, m⟩ v ↔
            v = ⟨n, .executeEach closure.body, start⟩) ∧
          enter (n + 1) closure values m =
            closure.finish m.current (executeEach n closure.body start) := by
  obtain ⟨P, steady⟩ := reached.steady
  have known := walkedIn_known ((mode, source) :: history)
  constructor
  · intro n callee paren arguments m pending f m₁ visits run
    exact (visits.admitted steady).call known run
  · intro n closure values m pending visits
    exact (visits.admitted steady).starts

end Sessions

namespace CalledFunction

open TokenKind (word)

/-- A function that is called with as many arguments as it has parameters. -/
def source : String := "fun f(a, b) \x7b\x7d f(true, false);"

/-- The name of the function. -/
def f : Token := word .identifier "f"

/-- The first parameter. -/
def a : Token := word .identifier "a"

/-- The second parameter. -/
def b : Token := word .identifier "b"

/-- The function. -/
def declaration : Stmt := .functionDecl (.mk f [a, b] [])

/-- The arguments of the call. -/
def arguments : List Expr := [.literal (.boolean true), .literal (.boolean false)]

/-- The call. -/
def call : Expr := .call (.variable (.ofToken f)) (word .rightParen ")") arguments

theorem prepared : (prepareSource source).result = .ok ([declaration, .expression call], 0) := by
  let tokens : List Token :=
    [word .funWord "fun", f, word .leftParen "(", a, word .comma ",", b, word .rightParen ")",
      word .leftBrace "\x7b", word .rightBrace "\x7d", f, word .leftParen "(",
      word .trueWord "true", word .comma ",", word .falseWord "false", word .rightParen ")",
      word .semicolon ";", .endOfText 1]
  have scanned : (scanSource source).result = .ok tokens := by decide +kernel
  have read : (Grammar.program tokens).1 = .ok [declaration, .expression call] := rfl
  have resolved : (resolveProgram [declaration, .expression call]).result =
      .ok ([declaration, .expression call], 0) := rfl
  simp only [prepareSource, parseSource, Noted.andThen, scanned, read, Noted.done, resolved]

/-- The function as it is entered. -/
def closure : Closure := ⟨some "f", [a, b], [], 0, false⟩

/-- The body starts with each parameter bound to its own argument, and the call gives what the
body comes to. -/
theorem calls_bind_parameters_each :
    Reached (fun _ => 0) [] (.initial fun _ => 0) ∧
      ∃ (m : Machine) (pending : Pending) (start : Machine),
        (Session.initial fun _ => 0).Visits 9 (.run 1) source ⟨8, .evaluate call, m⟩ pending ∧
        Proceeds 7 (.variable (.ofToken f)) (word .rightParen ")") arguments m (.closure 0) m ∧
        start.heap.frames.local? 1 "a" = some (.boolean true) ∧
        start.heap.frames.local? 1 "b" = some (.boolean false) ∧
        enter 6 closure [.boolean true, .boolean false] m =
          closure.finish 0 (executeEach 5 closure.body start) := by
  have reached : Reached (fun _ => 0) [] (.initial fun _ => 0) := .initial
  let m := (interpret 9 [declaration]).after (Session.initial fun _ => 0).silent.machine
  have declared :
      (interpret 9 [declaration]).Gives (Session.initial fun _ => 0).silent.machine () m := rfl
  have statement : (Session.initial fun _ => 0).Visits 9 (.run 1) source
      ⟨9, .execute (.expression call), m⟩ [] := .statement prepared Nat.one_pos rfl declared
  have visits := statement.on .value
  have callee : (evaluate 7 (.variable (.ofToken f))).Gives m (.closure 0) m := by
    with_unfolding_all rfl
  have given : (evaluateEach 7 arguments).Gives m [.boolean true, .boolean false] m := rfl
  obtain ⟨calls, entered⟩ := @calls_bind_parameters (fun _ => 0) [] _ 9 (.run 1) source reached
  obtain ⟨-, proceeds⟩ := calls _ _ _ _ _ _ _ _ visits callee
  obtain ⟨k, takes, -, proceeds⟩ := proceeds trivial
  cases takes with
  | function runs =>
      cases runs with
      | closure found =>
          cases found
          have applied := visits.on (.called callee rfl given)
          obtain ⟨start, started, -, ended⟩ := entered _ _ _ _ _ (applied.on (.closure rfl))
          obtain ⟨first, others⟩ := List.forall₂_cons.1 started.bound
          obtain ⟨second, -⟩ := List.forall₂_cons.1 others
          exact ⟨reached, m, _, start, visits, proceeds rfl, first, second, ended⟩

end CalledFunction

end TreeWalk
