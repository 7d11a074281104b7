import TreeWalk.Proofs.Run.Evaluating

/-!
# Running admitted tasks is safe

Calls and statements are safe as expressions are. By induction on the fuel every
admitted task keeps what it should, so every visit that an admitted visit leads to is
admitted.

## Implementation notes

A body runs in frames that are made for it. What it binds there is new, so that for the
caller it binds nothing.
-/

namespace TreeWalk

open Eval

variable {W : Spot → Prop} {P : Pending} {n : Nat} {m m₁ m₂ : Machine}

theorem apply_safe {callee : Value} {arguments : List Value} (known : Known W) (keeps : Keeps W n)
    (admitted : Visit.Admitted W P ⟨n + 1, .apply callee arguments, m⟩) :
    Safe W (apply (n + 1) callee arguments) m (Gave W P m) := by
  have sound := admitted.sound
  obtain ⟨valid, validEach, arity⟩ := admitted.admits
  cases callee with
  | scalar | object => cases arity
  | clock => exact Safe.of_gives readClock_gives rfl ⟨sound, .refl, trivial⟩
  | closure id =>
      obtain ⟨closure, found, -⟩ := valid
      apply Safe.step (closureOf_gives found) rfl
      exact keeps.enter ((Starts.closure found).admits known keeps admitted)
  | classRef id =>
      have carries₁ : m.heap.Carries Nowhere P P (m.withObject id).heap := m.withObject_carries id
      apply Safe.step (newObject_gives id) rfl
      apply Safe.step (findMethod_gives id "init") rfl
      split
      next =>
        have isObject : (m.withObject id).heap.Valid W P (.object m.heap.objects.size) := by
          simp [Heap.Valid, Machine.withObject, Machine.mapHeap]
        exact Safe.pure ⟨sound.pushObject id, carries₁, isObject⟩
      next method declared =>
        have declared' := declared
        rw [← Machine.withObject, carries₁.extends.method?_eq valid] at declared'
        obtain ⟨m₂, closure, run, still, found, sound₂, carries₂, isObject, -⟩ :=
          initializer_gives sound validEach arity declared'
        have body : Safe W (enter n closure arguments) m₂ (Gave W P m₂) := keeps.enter
          ((Starts.initializer (newObject_gives id) declared run found).admits known keeps admitted)
        apply Safe.step run still
        apply Safe.step (closureOf_gives found) rfl
        apply body.bind
        rintro v m₃ - - ⟨sound₃, carries₃, -⟩
        exact Safe.pure ⟨sound₃, carries₂.trans carries₃, isObject.carry carries₃⟩

/-- What runs in a new frame binds no names in the frames that were there before. -/
theorem inNewFrame_safe {outer : FrameId} {act : Eval Completion}
    (body : Safe W act { m.mapFrames (·.push (some outer)) with current := m.heap.frames.size }
      (Ended W P { m.mapFrames (·.push (some outer)) with current := m.heap.frames.size })) :
    Safe W (inFrame m.heap.frames.size act) (m.mapFrames (·.push (some outer)))
      fun completion m' => m'.heap.Sound W P ∧ m.heap.Carries Nowhere P P m'.heap ∧
        ∀ v, completion = .returned v → m'.heap.Valid W P v := by
  have made : m.heap.Carries Nowhere P P (m.mapFrames (·.push (some outer))).heap :=
    .ofFrames (.push _)
  apply Safe.inFrame
  apply body.mono
  rintro completion m' - ⟨sound, carries, valid⟩
  refine ⟨sound, made.trans_of carries ?_, valid⟩
  intro i old x new
  exact absurd (show i = m.heap.frames.size from new) (Nat.ne_of_lt old)

theorem enter_safe {closure : Closure} {arguments : List Value} (known : Known W)
    (keeps : Keeps W n) (admitted : Visit.Admitted W P ⟨n + 1, .enter closure arguments, m⟩) :
    Safe W (enter (n + 1) closure arguments) m (Gave W P m) := by
  obtain ⟨callable, valid, enough⟩ := admitted.admits
  obtain ⟨m₁, m₂, run₁, run₂, still₂, sound₂, carries₂, -⟩ :=
    enter_gives admitted.sound callable valid enough
  have still₁ : m₁.current = m.current := by
    cases run₁.symm.trans (newFrame_gives _)
    rfl
  have body := keeps.executeEach
    ((Starts.body run₁ run₂ (newFrame_gives _)).admits known keeps admitted)
  apply Safe.step run₁ still₁
  apply Safe.step run₂ (still₂.trans still₁.symm)
  apply Safe.step (newFrame_gives _) rfl
  apply (inNewFrame_safe body).bind
  rintro completion m₃ - - ⟨sound₃, carries₃, returned⟩
  have carries := carries₂.trans carries₃
  split
  next initializer =>
    have has := carries.frames.has _ _ (callable.2 initializer)
    obtain ⟨receiver, bound⟩ := Option.isSome_iff_exists.1 has
    exact Safe.of_gives (thisOf_gives bound) rfl ⟨sound₃, carries, sound₃.locals bound⟩
  next =>
    refine Safe.pure ⟨sound₃, carries, ?_⟩
    cases completion with
    | normal => trivial
    | returned v => exact returned v rfl

theorem Gave.completed {v : Value} (gave : Gave W P m v m₁) :
    Completed W P m none .normal m₁ :=
  ⟨gave.1, gave.2.1.mono nofun, nofun⟩

/-- A statement that declares nothing completes after a value as it does on its own. -/
theorem Safe.after_value {act : Eval Completion} {v : Value} (gave : Gave W P m v m₁)
    (h : Safe W act m₁ (Completed W P m₁ none)) : Safe W act m₁ (Completed W P m none) := by
  apply h.mono
  rintro completion m₂ - ⟨sound, carries, ends⟩
  refine ⟨sound, gave.2.1.trans_of carries ?_ |>.mono nofun, ?_⟩
  · rintro i - x ⟨-, _, ⟨⟩, -⟩
  · cases completion with
    | normal => exact nofun
    | returned v => exact ends

theorem execute_varDecl {name : Token} {initial : Expr} (known : Known W) (keeps : Keeps W n)
    (admitted : Visit.Admitted W P ⟨n + 1, .execute (.varDecl name (some initial)), m⟩) :
    Safe W (execute (n + 1) (.varDecl name (some initial))) m
      (Completed W P m (some name)) := by
  have sound := admitted.sound
  obtain ⟨place, place', placed, fits, exact'⟩ := admitted.admits
  obtain ⟨plain, -⟩ := placed.stmt_parts known
  have first : Safe W (evaluate n initial) m (Gave W ((m.current, name.lexeme) :: P) m) :=
    keeps.evaluate (Starts.initial.admits known keeps admitted)
  apply first.bind
  rintro v m₁ - still ⟨sound₁, carries₁, valid₁⟩
  have inside := Nat.lt_of_lt_of_le (fits.inside sound.nonempty) carries₁.frames.size
  rw [← still] at sound₁ valid₁ inside
  apply (defineHere_settles sound₁ inside plain valid₁ (by
    rw [still]
    exact exact'.not_pending fits)).bind
  rintro - m₂ - - ⟨sound₂, carries₂, has⟩
  rw [still] at carries₂ has
  have carries := (carries₁.mono nofun).trans carries₂
  refine Safe.pure ⟨sound₂, carries.weaken fun _ _ => List.mem_cons_of_mem _, ?_⟩
  rintro _ ⟨⟩
  exact has

theorem execute_branch {condition : Expr} {consequent : Stmt} {alternative : Option Stmt}
    (known : Known W) (keeps : Keeps W n)
    (admitted : Visit.Admitted W P
      ⟨n + 1, .execute (.branch condition consequent alternative), m⟩) :
    Safe W (execute (n + 1) (.branch condition consequent alternative)) m
      (Completed W P m none) := by
  obtain ⟨place, place', placed, -⟩ := admitted.admits
  obtain ⟨mid, mid', -, -, plain, others⟩ := placed.stmt_parts known
  have first : Safe W (evaluate n condition) m (Gave W P m) :=
    keeps.evaluate (Starts.branchCondition.admits known keeps admitted)
  apply first.bind
  rintro v m₁ run still gave
  split
  next truthy =>
    have second : Safe W (execute n consequent) m₁ (Completed W P m₁ consequent.declared?) :=
      keeps.execute ((Starts.branchConsequent run truthy).admits known keeps admitted)
    rw [plain] at second
    exact second.after_value gave
  next falsy =>
    cases alternative with
    | none => exact Safe.pure gave.completed
    | some other =>
        obtain ⟨-, -, plain'⟩ := others other rfl
        have second : Safe W (execute n other) m₁ (Completed W P m₁ other.declared?) :=
          keeps.execute ((Starts.branchAlternative run (Bool.eq_false_iff.2 falsy)).admits known
            keeps admitted)
        rw [plain'] at second
        exact second.after_value gave

theorem execute_loop {condition : Expr} {body : Stmt} (known : Known W) (keeps : Keeps W n)
    (admitted : Visit.Admitted W P ⟨n + 1, .execute (.loop condition body), m⟩) :
    Safe W (execute (n + 1) (.loop condition body)) m (Completed W P m none) := by
  obtain ⟨place, place', placed, -⟩ := admitted.admits
  obtain ⟨mid, after, -, -, plain⟩ := placed.stmt_parts known
  have first : Safe W (evaluate n condition) m (Gave W P m) :=
    keeps.evaluate (Starts.loopCondition.admits known keeps admitted)
  apply first.bind
  rintro v m₁ run still gave
  split
  next truthy =>
    have second : Safe W (execute n body) m₁ (Completed W P m₁ body.declared?) :=
      keeps.execute ((Starts.loopBody run truthy).admits known keeps admitted)
    rw [plain] at second
    apply (second.after_value gave).bind
    rintro completion m₂ run' still' done
    cases completion with
    | returned w => exact Safe.pure done
    | normal =>
        have third : Safe W (execute n (.loop condition body)) m₂ (Completed W P m₂ none) :=
          keeps.execute ((Starts.loopAgain run truthy run').admits known keeps admitted)
        apply third.mono
        rintro completion m₃ - ⟨sound, carries, ends⟩
        have carries' := done.2.1.trans_of carries (by rintro i - x ⟨-, _, ⟨⟩, -⟩)
        refine ⟨sound, carries', ?_⟩
        cases completion with
        | normal => exact nofun
        | returned w => exact ends
  next => exact Safe.pure gave.completed

theorem execute_safe {s : Stmt} (known : Known W) (keeps : Keeps W n)
    (admitted : Visit.Admitted W P ⟨n + 1, .execute s, m⟩) :
    Safe W (execute (n + 1) s) m (Completed W P m s.declared?) := by
  have sound := admitted.sound
  obtain ⟨place, place', placed, fits, exact'⟩ := admitted.admits
  have inside := fits.inside sound.nonempty
  have settled {x : String} (local' : m.current ≠ Machine.globals) : (m.current, x) ∉ P :=
    exact'.not_pending fits local'
  rcases s with value | value | ⟨name, _ | initial⟩ | body | ⟨condition, consequent, alternative⟩ |
    ⟨condition, body⟩ | ⟨⟨name, params, body⟩⟩ | ⟨name, parent, methods⟩ | ⟨keyword, _ | value⟩
  case expression =>
    have first : Safe W (evaluate n value) m (Gave W P m) :=
      keeps.evaluate (Starts.value.admits known keeps admitted)
    apply first.bind
    rintro v m₁ - - gave
    exact Safe.pure gave.completed
  case print =>
    have first : Safe W (evaluate n value) m (Gave W P m) :=
      keeps.evaluate (Starts.printed.admits known keeps admitted)
    apply first.bind
    rintro v m₁ - - gave
    apply Safe.get_bind
    apply Safe.step (print_gives _) rfl
    exact Safe.pure gave.completed
  case varDecl.none =>
    have nil : m.heap.Valid W P .nil := trivial
    apply (defineHere_safe sound inside (placed.stmt_parts known) nil settled).bind
    rintro - m₁ - - done
    exact Safe.pure done
  case varDecl.some => exact execute_varDecl known keeps admitted
  case block =>
    have inner := keeps.executeEach ((Starts.block (newFrame_gives _)).admits known keeps admitted)
    apply Safe.get_bind
    apply Safe.step (newFrame_gives _) rfl
    apply (inNewFrame_safe inner).mono
    rintro completion m₁ - ⟨sound₁, carries, returned⟩
    refine ⟨sound₁, carries.mono nofun, ?_⟩
    cases completion with
    | normal => exact nofun
    | returned v => exact returned v rfl
  case branch => exact execute_branch known keeps admitted
  case loop => exact execute_loop known keeps admitted
  case functionDecl =>
    obtain ⟨plain, mid, declares, routine⟩ := placed.stmt_parts known
    apply Safe.step closeOver_gives rfl
    apply (declareFunction_safe sound fits plain declares.binds settled routine).bind
    rintro - m₁ - - done
    exact Safe.pure done
  case classDecl =>
    obtain ⟨plain, mid, mid', after, binds, same, located, methods⟩ := placed.stmt_parts known
    apply (declareClass_safe known sound fits plain binds settled located same methods).bind
    rintro - m₁ - - done
    exact Safe.pure done
  case returns.none => exact Safe.pure ⟨sound, .refl, trivial⟩
  case returns.some =>
    have first : Safe W (evaluate n value) m (Gave W P m) :=
      keeps.evaluate (Starts.returned.admits known keeps admitted)
    apply first.bind
    rintro v m₁ - - ⟨sound₁, carries, valid⟩
    exact Safe.pure ⟨sound₁, carries.mono nofun, valid⟩

theorem executeEach_safe {body : List Stmt} (known : Known W) (keeps : Keeps W n)
    (admitted : Visit.Admitted W P ⟨n + 1, .executeEach body, m⟩) :
    Safe W (executeEach (n + 1) body) m (Ended W P m) := by
  cases body with
  | nil => exact Safe.pure ⟨admitted.sound, .refl, nofun⟩
  | cons s rest =>
      have first : Safe W (execute n s) m (Completed W P m s.declared?) :=
        keeps.execute (Starts.statement.admits known keeps admitted)
      apply first.bind
      rintro completion m₁ run still ⟨sound₁, carries₁, ends⟩
      have carries₁ : m.heap.Carries (Inside m.current) P P m₁.heap :=
        carries₁.mono fun _ _ new => new.1
      cases completion with
      | returned v =>
          refine Safe.pure ⟨sound₁, carries₁, ?_⟩
          rintro _ ⟨⟩
          exact ends
      | normal =>
          have second : Safe W (executeEach n rest) m₁ (Ended W P m₁) :=
            keeps.executeEach ((Starts.otherStatements run).admits known keeps admitted)
          apply second.mono
          rintro completion m₂ - ⟨sound₂, carries₂, returned⟩
          rw [still] at carries₂
          exact ⟨sound₂, carries₁.trans carries₂, returned⟩

/-- Every admitted task keeps what it should, whatever its fuel. -/
theorem keeps (known : Known W) (n : Nat) : Keeps W n := by
  induction n with
  | zero =>
      constructor <;> intro _ <;> intros <;> rename_i admitted <;>
        exact Safe.outOfFuel admitted.sound
  | succ n ih =>
      exact
        { evaluate := evaluate_safe known ih
          evaluateEach := evaluateEach_safe known ih
          apply := apply_safe known ih
          enter := enter_safe known ih
          execute := execute_safe known ih
          executeEach := executeEach_safe known ih }

end TreeWalk
