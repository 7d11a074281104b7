import TreeWalk.Proofs.Run.Visits

/-!
# Admitted visits start admitted visits

If every task that an admitted visit starts keeps what it should, then every visit that
it starts is admitted: the tasks before it left the machine sound, and the place of its
node is the one to which the walk over their nodes led.

## Implementation notes

The places of a node and of its parts are those of the walk, so there is one case for
each way in which a visit starts another one, and none looks inside the evaluator.
-/

namespace TreeWalk

open Resolve Surroundings Eval

variable {W : Spot → Prop} {P : Pending} {n : Nat} {m m₁ : Machine}

namespace Heap

variable {New : FrameId → String → Prop} {P' : Pending} {h h' : Heap}

/-- The number of arguments that a value takes stays the same. -/
theorem Carries.arity?_eq (carries : Carries New P h P' h') (sound : h.Sound W P) {v : Value}
    (valid : h.Valid W P v) : h'.arity? v = h.arity? v := by
  refine carries.extends.arity?_eq valid.refers fun declared => ?_
  obtain ⟨closure, found, -⟩ := exists_of_method? sound declared
  exact (Array.getElem?_eq_some_iff.1 found).1

end Heap

variable {place mid : Surroundings}

/-- After an expression a chain fits the place that the walk led to. -/
theorem Gave.fits {v : Value} {e : Expr} (known : Known W) (gave : Gave W P m v m₁)
    (still : m₁.current = m.current) (placed : Placed W (.expr e) place mid)
    (fits : Fits P m.heap.frames place.views m.current) :
    Fits P m₁.heap.frames mid.views m₁.current := by
  rw [still, (placed.expr_alike known).views]
  exact fits.carry gave.2.1.frames

theorem Gave.exact {v : Value} {e : Expr} (known : Known W) (sound : m.heap.Sound W P)
    (gave : Gave W P m v m₁) (still : m₁.current = m.current)
    (placed : Placed W (.expr e) place mid) (fits : Fits P m.heap.frames place.views m.current)
    (exact' : Exact P m.heap.frames place.views m.current) :
    Exact P m₁.heap.frames mid.views m₁.current := by
  rw [still, (placed.expr_alike known).views]
  exact exact'.carry gave.2.1.frames (fits.inside sound.nonempty)

/-- After a statement that completes normally a chain fits the place that the walk led to. -/
theorem Completed.fits {s : Stmt} (known : Known W) (done : Completed W P m s.declared? .normal m₁)
    (still : m₁.current = m.current) (placed : Placed W (.stmt s) place mid)
    (fits : Fits P m.heap.frames place.views m.current) :
    Fits P m₁.heap.frames mid.views m₁.current := by
  obtain ⟨-, carries, has⟩ := done
  have after := placed.stmt_after known
  have plain := placed.declared_plain known
  rw [still]
  cases declared : s.declared? with
  | none =>
      rw [declared] at after
      rw [after.views]
      exact fits.carry carries.frames
  | some name =>
      rw [declared] at after has
      exact fits.binds after.binds (plain name declared) carries.frames (.inl (has name rfl))

theorem Completed.exact {s : Stmt} (known : Known W) (sound : m.heap.Sound W P)
    (done : Completed W P m s.declared? .normal m₁) (still : m₁.current = m.current)
    (placed : Placed W (.stmt s) place mid) (fits : Fits P m.heap.frames place.views m.current)
    (exact' : Exact P m.heap.frames place.views m.current) :
    Exact P m₁.heap.frames mid.views m₁.current := by
  obtain ⟨-, carries, -⟩ := done
  have after := placed.stmt_after known
  have inside := fits.inside sound.nonempty
  rw [still]
  cases declared : s.declared? with
  | none =>
      rw [declared] at after carries
      rw [after.views]
      exact exact'.carry (carries.frames.mono nofun) inside
  | some name =>
      rw [declared] at after carries
      exact exact'.binds after.binds carries.frames inside

/-- A block starts with a frame of its own. -/
theorem FitsStatement.block {N : Spot → Prop} {body : List Stmt} {place' : Surroundings}
    {outer : FrameId} (sound : m.heap.Sound W P)
    (placed : Placed N (.stmts body) (blockPlace place) place')
    (fits : Fits P m.heap.frames place.views outer) :
    FitsStatement N P (.stmts body)
      { m.mapFrames (·.push (some outer)) with current := m.heap.frames.size } := by
  refine ⟨blockPlace place, place', placed, fits.push sound.nonempty, ?_⟩
  intro v first
  refine ⟨fun x has => ?_, fun x => sound.not_pending_size⟩
  exact absurd rfl (Frames.has_push.1 has).1

/-- A body starts with a frame of its own inside of one that binds the parameters. -/
theorem enter_gives {closure : Closure} {arguments : List Value} (sound : m.heap.Sound W P)
    (callable : m.heap.Callable W P closure) (valid : ∀ v ∈ arguments, m.heap.Valid W P v)
    (enough : closure.params.length = arguments.length) :
    ∃ m₁ m₂, (newFrame closure.frame).Gives m m.heap.frames.size m₁ ∧
      (defineEach m.heap.frames.size closure.params arguments).Gives m₁ () m₂ ∧
      m₂.current = m.current ∧ m₂.heap.Sound W P ∧ m.heap.Carries Nowhere P P m₂.heap ∧
      ∃ place place', Placed W (.stmts closure.body) (blockPlace place) place' ∧
        Fits P m₂.heap.frames place.views m.heap.frames.size := by
  obtain ⟨⟨views, ⟨plain, -, v, mid, after, cut, isPlain, names, placed⟩, fits⟩, -⟩ := callable
  let m₁ := m.mapFrames (·.push (some closure.frame))
  have carries₁ : m.heap.Carries Nowhere P P m₁.heap := .ofFrames (.push _)
  have sound₁ : m₁.heap.Sound W P := sound.push _
  have inside : m.heap.frames.size < m₁.heap.frames.size := by
    simp [m₁, Machine.mapFrames, Machine.mapHeap]
  obtain ⟨m₂, run, still, sound₂, carries₂, has⟩ := defineEach_gives sound₁ inside plain
    (fun w among => (valid w among).carry carries₁) (fun _ => sound.not_pending_size) enough
  have carries := carries₁.trans_of carries₂
    fun i old x same => absurd (same ▸ old) (Nat.lt_irrefl _)
  refine ⟨m₁, m₂, newFrame_gives _, run, still, sound₂, carries, mid, after, placed, ?_⟩
  obtain ⟨-, p, link, smaller, outside⟩ := fits.push sound.nonempty
  rw [cut]
  refine ⟨⟨?_, ?_⟩, p, (carries₂.frames.parent _ inside).trans link, smaller,
    outside.carry carries₂.frames⟩
  · intro x b bound
    obtain ⟨param, among, rfl⟩ := names x (by rw [bound]; rfl)
    exact .inl (has param among)
  · intro x implicit found
    have before := carries₂.frames.implicit _ inside x implicit found
    exact absurd rfl (Frames.has_push.1 before).1

/-- The machine with one more object. -/
def Machine.withObject (m : Machine) (id : ClassId) : Machine :=
  m.mapHeap fun heap => { heap with objects := heap.objects.push ⟨id, .empty⟩ }

theorem Machine.withObject_carries (m : Machine) (id : ClassId) :
    m.heap.Carries Nowhere P P (m.withObject id).heap :=
  .pushObject _

/-- The initializer of a class is bound to the object that was made for it. -/
theorem initializer_gives {id : ClassId} {method : ClosureId} {arguments : List Value}
    (sound : m.heap.Sound W P) (valid : ∀ v ∈ arguments, m.heap.Valid W P v)
    (arity : m.heap.arity? (.classRef id) = some arguments.length)
    (declared : m.heap.method? id "init" = some method) :
    ∃ m₂ closure, (Eval.bind method (.object m.heap.objects.size)).Gives (m.withObject id)
        m.heap.closures.size m₂ ∧ m₂.current = m.current ∧
      m₂.heap.closures[m.heap.closures.size]? = some closure ∧ m₂.heap.Sound W P ∧
      m.heap.Carries Nowhere P P m₂.heap ∧ m₂.heap.Valid W P (.object m.heap.objects.size) ∧
      Admits W P m₂ (.enter closure arguments) := by
  have carries₁ : m.heap.Carries Nowhere P P (m.withObject id).heap := m.withObject_carries id
  have sound₁ : (m.withObject id).heap.Sound W P := sound.pushObject id
  have isObject : (m.withObject id).heap.Valid W P (.object m.heap.objects.size) := by
    simp [Heap.Valid, Machine.withObject, Machine.mapHeap]
  obtain ⟨closure, found, bindable⟩ := exists_of_method? sound declared
  obtain ⟨m₂, bound, run, still, sound₂, carries₂, made, callable, params⟩ :=
    bindMethod_gives sound₁ (carries₁.closures found) (bindable.carry carries₁) isObject
  have carries := carries₁.trans carries₂
  refine ⟨m₂, bound, run, still, made, sound₂, carries, isObject.carry carries₂, callable,
    fun v among => (valid v among).carry carries, ?_⟩
  rw [params]
  simpa [Heap.arity?, declared, Heap.closureArity, found] using arity

/-- What is known after an expression of a larger node was evaluated. -/
theorem evaluated_fits {e : Expr} {v : Value} (known : Known W) (keeps : Keeps W n)
    (sound : m.heap.Sound W P) (placed : Placed W (.expr e) place mid)
    (fits : Fits P m.heap.frames place.views m.current) (run : (evaluate n e).Gives m v m₁) :
    m₁.current = m.current ∧ Gave W P m v m₁ ∧
      Fits P m₁.heap.frames mid.views m₁.current := by
  obtain ⟨still, gave⟩ := (keeps.evaluate ⟨sound, place, mid, placed, fits⟩).gives run
  exact ⟨still, gave, gave.fits known still placed fits⟩

/-- What is known after a statement of a larger node completed normally. -/
theorem executed_fits {s : Stmt} (known : Known W) (keeps : Keeps W n)
    (sound : m.heap.Sound W P) (placed : Placed W (.stmt s) place mid)
    (fits : Fits P m.heap.frames place.views m.current)
    (exact' : Exact P m.heap.frames place.views m.current)
    (run : (execute n s).Gives m .normal m₁) :
    m₁.heap.Sound W P ∧ Fits P m₁.heap.frames mid.views m₁.current ∧
      Exact P m₁.heap.frames mid.views m₁.current := by
  obtain ⟨still, done⟩ := (keeps.execute ⟨sound, place, mid, placed, fits, exact'⟩).gives run
  exact ⟨done.1, done.fits known still placed fits,
    done.exact known sound still placed fits exact'⟩

/-- What a node starts that is about a node has what it needs, if the walk gave the one at one of
these spots and the other at those that it comes to directly. -/
theorem Starts.admitsIn {N N' : Spot → Prop} {task : Task} {v : Visit} (known : Known W)
    (leads : Leads N N') (stays : ∀ spot, N spot → N' spot) (more : ∀ spot, N' spot → W spot)
    (keeps : Keeps W n) (h : Starts ⟨n + 1, task, m⟩ v) (about : v.task.node?.isSome)
    (sound : m.heap.Sound W P) (admits : AdmitsIn N P m task) :
    v.machine.heap.Sound W (task.opens m.current ++ P) ∧
      AdmitsIn N' (task.opens m.current ++ P) v.machine v.task := by
  cases h with
  | assigned =>
      obtain ⟨place, place', placed, fits⟩ := admits
      obtain ⟨mid, value, -⟩ := placed.expr_parts leads
      exact ⟨sound, place, mid, value, fits⟩
  | grouping | unary | items | getObject =>
      obtain ⟨place, place', placed, fits⟩ := admits
      obtain ⟨after, inner⟩ := placed.expr_parts leads
      exact ⟨sound, place, after, inner, fits⟩
  | binaryLeft | logicalLeft | callee =>
      obtain ⟨place, place', placed, fits⟩ := admits
      obtain ⟨mid, -, left, -⟩ := placed.expr_parts leads
      exact ⟨sound, place, mid, left, fits⟩
  | binaryRight run | logicalRight run | arguments run =>
      obtain ⟨place, place', placed, fits⟩ := admits
      obtain ⟨mid, after, left, right⟩ := placed.expr_parts leads
      obtain ⟨-, gave, fits'⟩ := evaluated_fits known keeps sound (left.mono more) fits run
      exact ⟨gave.1, mid, after, right, fits'⟩
  | condition =>
      obtain ⟨place, place', placed, fits⟩ := admits
      obtain ⟨mid, -, -, first, -⟩ := placed.expr_parts leads
      exact ⟨sound, place, mid, first, fits⟩
  | consequent run =>
      obtain ⟨place, place', placed, fits⟩ := admits
      obtain ⟨mid, mid', -, first, second, -⟩ := placed.expr_parts leads
      obtain ⟨-, gave, fits'⟩ := evaluated_fits known keeps sound (first.mono more) fits run
      exact ⟨gave.1, mid, mid', second, fits'⟩
  | alternative run =>
      obtain ⟨place, place', placed, fits⟩ := admits
      obtain ⟨mid, mid', after, first, second, third⟩ := placed.expr_parts leads
      obtain ⟨-, gave, fits'⟩ := evaluated_fits known keeps sound (first.mono more) fits run
      rw [← ((second.mono more).expr_alike known).views] at fits'
      exact ⟨gave.1, mid', after, third, fits'⟩
  | called | closure | initializer => cases about
  | setObject =>
      obtain ⟨place, place', placed, fits⟩ := admits
      obtain ⟨mid, after, first, second⟩ := placed.expr_parts leads
      rw [← ((first.mono more).expr_alike known).views] at fits
      exact ⟨sound, mid, after, second, fits⟩
  | setValue run =>
      obtain ⟨place, place', placed, fits⟩ := admits
      obtain ⟨mid, after, first, second⟩ := placed.expr_parts leads
      have fits' := fits
      rw [← ((first.mono more).expr_alike known).views] at fits'
      obtain ⟨still, gave, -⟩ := evaluated_fits known keeps sound (second.mono more) fits' run
      refine ⟨gave.1, place, mid, first, ?_⟩
      rw [still]
      exact fits.carry gave.2.1.frames
  | item =>
      obtain ⟨place, place', placed, fits⟩ := admits
      obtain ⟨mid, first, -⟩ := placed.exprs_parts leads
      exact ⟨sound, place, mid, first, fits⟩
  | otherItems run =>
      obtain ⟨place, place', placed, fits⟩ := admits
      obtain ⟨mid, first, others⟩ := placed.exprs_parts leads
      obtain ⟨-, gave, fits'⟩ := evaluated_fits known keeps sound (first.mono more) fits run
      exact ⟨gave.1, mid, place', others, fits'⟩
  | body => exact admits.elim
  | value | printed =>
      obtain ⟨place, place', placed, fits, -⟩ := admits
      obtain ⟨after, inner⟩ := placed.stmt_parts leads
      exact ⟨sound, place, after, inner, fits⟩
  | returned =>
      obtain ⟨place, place', placed, fits, -⟩ := admits
      obtain ⟨after, inner⟩ := placed.stmt_parts leads
      exact ⟨sound, place, after, inner, fits⟩
  | initial =>
      obtain ⟨place, place', placed, fits, exact'⟩ := admits
      obtain ⟨plain, mid, after, declares, inner⟩ := placed.stmt_parts leads
      refine ⟨sound.opens plain fun other => ?_, mid, after, inner, fits.opens declares.binds plain⟩
      exact ⟨fits.inside sound.nonempty, exact'.absent fits declares.binds other⟩
  | block made =>
      obtain ⟨place, place', placed, fits, -⟩ := admits
      obtain ⟨after, inner⟩ := placed.stmt_parts leads
      cases made.symm.trans (newFrame_gives _)
      exact ⟨sound.push _, FitsStatement.block sound inner fits⟩
  | branchCondition =>
      obtain ⟨place, place', placed, fits, -⟩ := admits
      obtain ⟨mid, -, first, -⟩ := placed.stmt_parts leads
      exact ⟨sound, place, mid, first, fits⟩
  | branchConsequent run =>
      obtain ⟨place, place', placed, fits, exact'⟩ := admits
      obtain ⟨mid, mid', first, second, -⟩ := placed.stmt_parts leads
      have first := first.mono more
      obtain ⟨still, gave, fits'⟩ := evaluated_fits known keeps sound first fits run
      exact ⟨gave.1, mid, mid', second, fits', gave.exact known sound still first fits exact'⟩
  | branchAlternative run =>
      obtain ⟨place, place', placed, fits, exact'⟩ := admits
      obtain ⟨mid, mid', first, second, plain, others⟩ := placed.stmt_parts leads
      obtain ⟨after, third, -⟩ := others _ rfl
      have first := first.mono more
      obtain ⟨still, gave, fits'⟩ := evaluated_fits known keeps sound first fits run
      have same := (second.mono more).stmt_after known
      rw [plain] at same
      have exact'' := gave.exact known sound still first fits exact'
      rw [← same.views] at fits' exact''
      exact ⟨gave.1, mid', after, third, fits', exact''⟩
  | loopCondition =>
      obtain ⟨place, place', placed, fits, -⟩ := admits
      obtain ⟨mid, -, first, -⟩ := placed.stmt_parts leads
      exact ⟨sound, place, mid, first, fits⟩
  | loopBody run =>
      obtain ⟨place, place', placed, fits, exact'⟩ := admits
      obtain ⟨mid, after, first, second, -⟩ := placed.stmt_parts leads
      have first := first.mono more
      obtain ⟨still, gave, fits'⟩ := evaluated_fits known keeps sound first fits run
      exact ⟨gave.1, mid, after, second, fits', gave.exact known sound still first fits exact'⟩
  | loopAgain run _ run' =>
      obtain ⟨place, place', placed, fits, exact'⟩ := admits
      obtain ⟨mid, after, first, second, plain⟩ := placed.stmt_parts leads
      have first := first.mono more
      have second := second.mono more
      obtain ⟨still, gave, fits₁⟩ := evaluated_fits known keeps sound first fits run
      have exact₁ := gave.exact known sound still first fits exact'
      obtain ⟨sound₂, fits₂, exact₂⟩ := executed_fits known keeps gave.1 second fits₁ exact₁ run'
      have same := second.stmt_after known
      rw [plain] at same
      rw [same.views, (first.expr_alike known).views] at fits₂ exact₂
      exact ⟨sound₂, place, place', placed.mono stays, fits₂, exact₂⟩
  | statement =>
      obtain ⟨place, place', placed, fits, exact'⟩ := admits
      obtain ⟨mid, first, -⟩ := placed.stmts_parts leads
      exact ⟨sound, place, mid, first, fits, exact'⟩
  | otherStatements run =>
      obtain ⟨place, place', placed, fits, exact'⟩ := admits
      obtain ⟨mid, first, others⟩ := placed.stmts_parts leads
      obtain ⟨sound', fits', exact''⟩ :=
        executed_fits known keeps sound (first.mono more) fits exact' run
      exact ⟨sound', mid, place', others, fits', exact''⟩

/-- What a visit starts is admitted, with the names pending that the visit opens. -/
theorem Starts.admits {task : Task} {v : Visit} (known : Known W) (keeps : Keeps W n)
    (h : Starts ⟨n + 1, task, m⟩ v) (admitted : Visit.Admitted W P ⟨n + 1, task, m⟩) :
    v.Admitted W (task.opens m.current ++ P) := by
  have starts := h
  obtain ⟨sound, admits⟩ := admitted
  cases h with
  | called run arity run' =>
      obtain ⟨place, place', placed, fits⟩ := admits
      obtain ⟨mid, after, first, second⟩ := placed.expr_parts known
      obtain ⟨-, gave, fits'⟩ := evaluated_fits known keeps sound first fits run
      have admits' : Visit.Admitted W P ⟨n, .evaluateEach _, _⟩ :=
        ⟨gave.1, mid, after, second, fits'⟩
      obtain ⟨-, sound', carries, valid, count⟩ := (keeps.evaluateEach admits').gives run'
      refine ⟨sound', gave.2.2.carry carries, valid, ?_⟩
      rw [carries.arity?_eq gave.1 gave.2.2, arity, count]
  | closure found =>
      obtain ⟨⟨closure, bound, callable⟩, valid, arity⟩ := admits
      obtain rfl := Option.some.inj (found.symm.trans bound)
      refine ⟨sound, callable, valid, ?_⟩
      simpa [Heap.arity?, Heap.closureArity, found] using arity
  | initializer made declared run found =>
      obtain ⟨valid, validEach, arity⟩ := admits
      cases made.symm.trans (newObject_gives _)
      have carries := m.withObject_carries (P := P)
      rw [← Machine.withObject, (carries _).extends.method?_eq valid] at declared
      obtain ⟨m₂, closure, run', -, found', sound', -, -, admits'⟩ :=
        initializer_gives sound validEach arity declared
      cases run.symm.trans run'
      obtain rfl := Option.some.inj (found.symm.trans found')
      exact ⟨sound', admits'⟩
  | body first second third =>
      obtain ⟨callable, valid, enough⟩ := admits
      obtain ⟨m₁, m₂, run, run', still, sound', -, place, place', placed, fits⟩ :=
        enter_gives sound callable valid enough
      cases first.symm.trans run
      cases second.symm.trans run'
      cases third.symm.trans (newFrame_gives _)
      exact ⟨sound'.push _, FitsStatement.block sound' placed fits⟩
  | _ =>
      -- everything else is about a node and starts what is about one
      obtain ⟨sound', admits'⟩ := starts.admitsIn known known (fun _ => id) (fun _ => id) keeps rfl
        sound admits
      exact ⟨sound', admits'.admits⟩

end TreeWalk
