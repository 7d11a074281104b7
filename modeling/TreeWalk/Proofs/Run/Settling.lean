import TreeWalk.Proofs.Run.Sessions
import TreeWalk.Proofs.Run.Staying

/-!
# What settles a step

A run sees of the clock the readings that it takes, and of its fuel only whether it is enough. So
what a step does on the readings that are known is settled if it takes no others and does not run
out of fuel: on every clock that shows these readings, and with any more fuel, it does the same.

## Implementation notes

Readings that were taken before the run do not matter for it. What runs out of fuel leaves a
machine that says nothing of a run with more of it.
-/

namespace TreeWalk

/-- The machine with another row of readings. -/
def Machine.onClock (m : Machine) (readings : Nat → Float) : Machine := { m with readings }

/-- The session with another row of readings. -/
def Session.onClock (s : Session) (readings : Nat → Float) : Session :=
  { s with machine := s.machine.onClock readings }

namespace Eval

variable {α β : Type}

/-- The machine has the same clock, from which more readings may have been taken. -/
structure Later (m m' : Machine) : Prop where
  readings : m'.readings = m.readings
  taken : m.taken ≤ m'.taken

instance : IsPreorder Machine Later where
  refl _ := ⟨rfl, Nat.le_refl _⟩
  trans _ _ _ h h' := ⟨h'.readings.trans h.readings, h.taken.trans h'.taken⟩

/-- A row shows the readings of a machine from where it is up to where another machine is. -/
def Shows (readings : Nat → Float) (m m' : Machine) : Prop :=
  ∀ i, m.taken ≤ i → i < m'.taken → readings i = m.readings i

theorem Shows.first {readings : Nat → Float} {m m₁ m₂ : Machine} (h : Shows readings m m₂)
    (later : Later m₁ m₂) : Shows readings m m₁ :=
  fun i after before => h i after (Nat.lt_of_lt_of_le before later.taken)

theorem Shows.rest {readings : Nat → Float} {m m₁ m₂ : Machine} (h : Shows readings m m₂)
    (later : Later m m₁) : Shows readings m₁ m₂ := by
  intro i after before
  rw [h i (later.taken.trans after) before, later.readings]

/-- An outcome, with another row of readings on the machine. -/
def outcomeOn (readings : Nat → Float) :
    EStateM.Result Stop Machine α → EStateM.Result Stop Machine α
  | .ok a m => .ok a (m.onClock readings)
  | .error stop m => .error stop (m.onClock readings)

/-- A run takes readings from the clock one after the other, and does the same on every clock
that shows those. -/
structure TakesInTurn (act : Eval α) : Prop where
  later : act.Leaves Later
  same : ∀ m readings, Shows readings m (act.after m) →
    act (m.onClock readings) = outcomeOn readings (act m)

namespace TakesInTurn

theorem bind {x : Eval α} {f : α → Eval β} (first : x.TakesInTurn)
    (next : ∀ a, (f a).TakesInTurn) : (x >>= f).TakesInTurn := by
  refine ⟨first.later.bind fun a => (next a).later, fun m readings shows => ?_⟩
  cases run : x m with
  | error stop m₁ =>
      have whole := bind_of_error (f := f) run
      rw [after_of_error whole] at shows
      have same := first.same m readings (by rwa [after_of_error run])
      rw [run] at same
      rw [whole, bind_of_error same]
      rfl
  | ok a m₁ =>
      have gives : x.Gives m a m₁ := run
      rw [after_bind_of_gives gives] at shows
      have same := first.same m readings (by
        rw [after_of_gives gives]
        exact shows.first ((next a).later m₁))
      rw [run] at same
      rw [bind_of_gives gives, bind_of_gives (show x.Gives _ a (m₁.onClock readings) from same)]
      exact (next a).same m₁ readings (shows.rest (first.later.gives gives))

theorem inFrame {act : Eval α} (h : act.TakesInTurn) (frame : FrameId) :
    (Eval.inFrame frame act).TakesInTurn := by
  have later := h.later
  have same := h.same
  constructor
  · intro m
    have inside := later { m with current := frame }
    simp only [after, Eval.inFrame] at inside ⊢
    cases run : act { m with current := frame } <;>
      (rw [run] at inside; exact ⟨inside.readings, inside.taken⟩)
  · intro m readings shows
    have inside := same { m with current := frame } readings
    simp only [after, Eval.inFrame] at inside shows ⊢
    have moved : ({ m.onClock readings with current := frame } : Machine) =
      Machine.onClock { m with current := frame } readings := rfl
    rw [moved]
    cases run : act { m with current := frame } <;>
      (rw [run] at inside shows; rw [inside shows]; rfl)

end TakesInTurn

/-- No step sees more of the clock than the reading that it takes. -/
theorem takingInTurn : Stepwise fun act _ => act.TakesInTurn where
  pure _ := ⟨.pure _, fun _ _ _ => rfl⟩
  throw _ := ⟨.throw _, fun _ _ _ => rfl⟩
  bind := .bind
  inFrame frame _ _ h := h.inFrame frame
  inspect {_ look} plainly := by
    refine ⟨.inspect _, fun m readings _ => ?_⟩
    have same : look (m.onClock readings) = look m := plainly m _ _ _
    simp only [inspect, same]
    cases look m <;> rfl
  change number f same := by
    refine ⟨fun m => ?_, fun m readings _ => ?_⟩
    · rw [after, same]
      exact ⟨rfl, Nat.le_refl _⟩
    · rw [same, same]
      rfl
  print _ := ⟨fun _ => ⟨rfl, Nat.le_refl _⟩, fun _ _ _ => rfl⟩
  readClock := by
    refine ⟨fun _ => ⟨rfl, Nat.le_succ _⟩, fun m readings shows => ?_⟩
    have shown : readings m.taken = m.readings m.taken :=
      shows m.taken (Nat.le_refl _) (Nat.lt_succ_self _)
    simp only [readClock, Machine.onClock, outcomeOn, shown]

/-- A run does what another one does, unless it runs out of fuel. -/
def Shorter (x y : Eval α) : Prop := ∀ m, (∃ m', x m = .error .outOfFuel m') ∨ x m = y m

/-- What is made of runs that do as much as others, unless they run out of fuel, does so too. -/
theorem shortening : Stepwise Shorter where
  pure _ _ := .inr rfl
  throw _ _ := .inr rfl
  bind {_ _ x y f g} first next := by
    intro m
    obtain ⟨m', out⟩ | same := first m
    · exact .inl ⟨m', bind_of_error out⟩
    · cases run : x m with
      | error stop m₁ =>
          exact .inr ((bind_of_error run).trans (bind_of_error (same.symm.trans run)).symm)
      | ok a m₁ =>
          rw [bind_of_gives (show x.Gives m a m₁ from run),
            bind_of_gives (show y.Gives m a m₁ from same.symm.trans run)]
          exact next a m₁
  inFrame frame x y h := by
    intro m
    obtain ⟨m', out⟩ | same := h { m with current := frame }
    · exact .inl ⟨_, inFrame_of_error out⟩
    · exact .inr (by simp only [inFrame, same])
  inspect _ _ := .inr rfl
  change _ _ _ _ := .inr rfl
  print _ _ := .inr rfl
  readClock _ := .inr rfl

end Eval

open Eval

/-- With more fuel the evaluator does the same, unless it ran out of fuel. -/
theorem shorterAt (fuel extra : Nat) : HoldsAt Shorter fuel (fuel + extra) :=
  .more shortening (fun _ _ => .inl ⟨_, rfl⟩) fuel extra

namespace Session

variable {fuel fuel' : Nat} {mode : Mode} {source : String} {s : Session}

/-- What holds of the statements of a program holds of running it some times over. -/
theorem interpretTimes_stepwise {R : {α : Type} → Eval α → Eval α → Prop} (c : Stepwise R)
    {n k : Nat} (h : HoldsAt R n k) (program : List Stmt) (times : Nat) :
    R (interpretTimes n program times) (interpretTimes k program times) := by
  induction times with
  | zero => exact c.pure _
  | succ times ih => exact c.bind (h.interpret c program) fun _ => ih

/-- What a step runs on the machine once its source is prepared, which is made of what the
evaluator does. -/
structure Running where
  Result : Type
  act : Nat → Eval Result
  uses : Nat
  notes : List Note
  answer : Result → Option Value
  stepwise : ∀ {R : {α : Type} → Eval α → Eval α → Prop}, Stepwise R → ∀ {n k}, HoldsAt R n k →
    R (act n) (act k)

namespace Running

/-- A program is run some times over. -/
def program (notes : List Note) (uses times : Nat) (program : List Stmt) : Running where
  Result := Unit
  act fuel := interpretTimes fuel program times
  uses := uses
  notes := notes ++ [.executing program.length]
  answer _ := none
  stepwise c _ _ h := interpretTimes_stepwise c h program times

/-- An expression is evaluated. -/
def expression (uses : Nat) (e : Expr) : Running where
  Result := Value
  act fuel := TreeWalk.evaluate fuel e
  uses := uses
  notes := []
  answer := some
  stepwise _ _ _ h := h.evaluate e

/-- The answer of a step that runs this, and the session behind it. -/
def outcome (r : Running) (s : Session) (fuel : Nat) : Answer × Session :=
  let (result, after) := (s.silent.addLocated r.uses).run (r.act fuel)
  (⟨r.notes, result.map r.answer⟩, after)

end Running

/-- A step fails before anything is run, or it runs something. -/
theorem step_runs (mode : Mode) (source : String) :
    (∃ answer, ∀ s fuel, step s fuel mode source = (answer, s.silent)) ∨
      ∃ r : Running, ∀ s fuel, step s fuel mode source = r.outcome s fuel := by
  cases mode with
  | run times =>
      rcases prepared : prepareSource source with ⟨notes, e | ⟨program, uses⟩⟩
      · exact .inl ⟨⟨notes, .error e⟩, fun s fuel => by simp only [step, prepared, silent]⟩
      · exact .inr ⟨.program notes uses times program, fun s fuel => by
          simp only [step, prepared]
          rfl⟩
  | runRaw times =>
      rcases parsed : parseSource source with ⟨notes, e | program⟩
      · exact .inl ⟨⟨notes, .error e⟩, fun s fuel => by simp only [step, parsed, silent]⟩
      · exact .inr ⟨.program notes 0 times program, fun s fuel => by
          simp only [step, parsed]
          rfl⟩
  | evaluate =>
      rcases prepared : parseExpression source >>= resolveExpression with e | ⟨e, uses⟩
      · exact .inl ⟨⟨[], .error e⟩, fun s fuel => by simp only [step, prepared, silent]⟩
      · exact .inr ⟨.expression uses e, fun s fuel => by
          simp only [step, prepared]
          rfl⟩
  | evaluateRaw =>
      rcases parsed : parseExpression source with e | e
      · exact .inl ⟨⟨[], .error e⟩, fun s fuel => by simp only [step, parsed, silent]⟩
      · exact .inr ⟨.expression 0 e, fun s fuel => by
          simp only [step, parsed]
          rfl⟩

theorem run_onClock {α : Type} {act : Eval α} (takes : act.TakesInTurn) {readings : Nat → Float}
    (shows : Shows readings s.machine (s.run act).2.machine) :
    (s.onClock readings).run act = ((s.run act).1, (s.run act).2.onClock readings) := by
  have left : (s.run act).2.machine = act.after s.machine := by
    simp only [run, EStateM.run, after]
    cases act s.machine <;> rfl
  have same := takes.same s.machine readings (left ▸ shows)
  simp only [run, EStateM.run, onClock, same]
  cases act s.machine <;> rfl

theorem run_shorter {α : Type} {x y : Eval α} (shorter : Shorter x y) :
    (s.run x).1 = .error (.run .outOfFuel) ∨ s.run x = s.run y := by
  obtain ⟨m', out⟩ | same := shorter s.machine
  · exact .inl (by simp only [run, EStateM.run, out])
  · exact .inr (by simp only [run, EStateM.run, same])

/-- What a step does that does not run out of fuel it does with any more fuel, and on every clock
that shows the readings that it takes. -/
theorem step_settled (more : fuel ≤ fuel') {readings : Nat → Float}
    (shows : Shows readings s.machine (s.step fuel mode source).2.machine)
    (ended : (s.step fuel mode source).1.result ≠ .error (.run .outOfFuel)) :
    (s.onClock readings).step fuel' mode source =
      ((s.step fuel mode source).1, (s.step fuel mode source).2.onClock readings) := by
  obtain ⟨extra, rfl⟩ := Nat.exists_eq_add_of_le more
  obtain ⟨answer, fails⟩ | ⟨r, runs⟩ := step_runs mode source
  · rw [fails, fails]
    rfl
  · rw [runs] at shows ended
    rw [runs, runs]
    have shorter := r.stepwise shortening (shorterAt fuel extra)
    obtain out | same := run_shorter (s := s.silent.addLocated r.uses) shorter
    · exact absurd (by simp only [Running.outcome, out]; rfl) ended
    · have takes := r.stepwise takingInTurn (HoldsAt.same takingInTurn (fuel + extra))
      simp only [Running.outcome, same] at shows ⊢
      have moved := run_onClock (s := s.silent.addLocated r.uses) takes shows
      rw [show ((s.onClock readings).silent.addLocated r.uses) =
        (s.silent.addLocated r.uses).onClock readings from rfl, moved]

end Session

end TreeWalk
