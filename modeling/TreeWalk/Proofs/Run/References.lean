import TreeWalk.Proofs.Run.Sessions

/-!
# What references touch

A reference with a distance reads or changes a variable in the frame at this distance,
which is never the global one. The frame binds the name itself, so nothing around it is
looked at, unless the name is pending there. While the initial value of a variable is
computed, a reference to that variable goes on to the next frame outward.

## Implementation notes

A name that is pending when a step fails stays pending, and a closure may still lead to
its frame. So the steps before are taken to have ended well; the step itself may fail.
-/

namespace TreeWalk

open Eval

namespace Frames

variable {fs : Frames Value} {i j k : FrameId} {distance : Nat} {name : Token}

/-- The chain of a frame goes on with the chain of the next frame outward. -/
theorem chain_next (near : fs.ancestor? i distance = some j)
    (next : fs.ancestor? i (distance + 1) = some k) : fs.chain j = j :: fs.chain k := by
  obtain ⟨rest, cut⟩ := chain_head fs j
  have tail : fs.chain k = rest := by
    calc fs.chain k = (fs.chain i).drop (distance + 1) := chain_ancestor next
      _ = ((fs.chain i).drop distance).drop 1 := by rw [List.drop_drop]
      _ = (fs.chain j).drop 1 := by rw [chain_ancestor near]
      _ = rest := by rw [cut, List.drop_one, List.tail_cons]
  rw [cut, tail]

/-- A frame that does not bind a name is passed over by reading. -/
theorem readAt_next (near : fs.ancestor? i distance = some j)
    (next : fs.ancestor? i (distance + 1) = some k) (absent : ¬fs.Has j name.lexeme) :
    fs.readAt i distance name = fs.readAt i (distance + 1) name := by
  have unbound : (fs.local? j name.lexeme).isNone := by
    rwa [← Option.not_isSome, Bool.not_eq_true', ← Bool.not_eq_true]
  have same : fs.get? j name.lexeme = fs.get? k name.lexeme := by
    rw [get?, chain_next near next]
    exact List.findSome?_cons_of_isNone unbound
  rw [readAt_eq near, readAt_eq next, read, read, same]

/-- A frame that does not bind a name is passed over by changing. -/
theorem targetAt_next (near : fs.ancestor? i distance = some j)
    (next : fs.ancestor? i (distance + 1) = some k) (absent : ¬fs.Has j name.lexeme) :
    fs.targetAt i distance name = fs.targetAt i (distance + 1) name := by
  have same : fs.owner? j name.lexeme = fs.owner? k name.lexeme := by
    rw [owner?, chain_next near next]
    exact List.find?_cons_of_neg absent
  rw [targetAt_eq near, targetAt_eq next, target, target, same]

/-- A frame that binds a name is where it is read. -/
theorem readAt_of_local? {v : Value} (near : fs.ancestor? i distance = some j)
    (bound : fs.local? j name.lexeme = some v) : fs.readAt i distance name = .ok v := by
  have has : fs.Has j name.lexeme := by
    rw [Has, bound]
    rfl
  rw [readAt_eq near, read, get?_of_has has, bound]

/-- A frame that binds a name is where it changes. -/
theorem targetAt_of_has (near : fs.ancestor? i distance = some j)
    (has : fs.Has j name.lexeme) : fs.targetAt i distance name = .ok j := by
  rw [targetAt_eq near, target, owner?_of_has has]

end Frames

/-- Around a frame that is not the global one there is another one. -/
theorem Fits.next {P : Pending} {fs : Frames Value} {views : List View} {i j : FrameId}
    {distance : Nat} (fits : Fits P fs views i) (rooted : fs.parent? Machine.globals = none)
    (near : fs.ancestor? i distance = some j) (other : j ≠ Machine.globals) :
    ∃ k, fs.ancestor? i (distance + 1) = some k := by
  obtain ⟨frames, chain, -, -⟩ := fits.chain rooted
  rw [Frames.ancestor?, chain] at near
  have before : distance < frames.length := by
    by_contra last
    have among : j ∈ [Machine.globals] := by
      rw [List.getElem?_append_right (Nat.le_of_not_lt last)] at near
      exact List.mem_of_getElem? near
    exact other (List.mem_singleton.1 among)
  have inside : distance + 1 < (frames ++ [Machine.globals]).length := by
    rw [List.length_append, List.length_singleton]
    exact Nat.succ_lt_succ before
  exact ⟨_, by rw [Frames.ancestor?, chain, List.getElem?_eq_getElem inside]⟩

/-- A visit looks a reference up on a machine: its own one, or the one that is left when
the value to be assigned is known, or when the name of a class is bound. -/
inductive Touches : Visit → Reference → Machine → Prop
  | variable {n m reference} : Touches ⟨n + 1, .evaluate (.variable reference), m⟩ reference m
  | assign {n m m₁ reference value v} : (evaluate n value).Gives m v m₁ →
      Touches ⟨n + 1, .evaluate (.assign reference value), m⟩ reference m₁
  | this {n m reference} : Touches ⟨n + 1, .evaluate (.this reference), m⟩ reference m
  | super {n m reference method} :
      Touches ⟨n + 1, .evaluate (.super reference method), m⟩ reference m
  | superclass {n m m₁ name reference methods} : (defineHere name.lexeme .nil).Gives m () m₁ →
      Touches ⟨n + 1, .execute (.classDecl name (some reference) methods), m⟩ reference m₁

variable {W : Spot → Prop} {P : Pending} {v : Visit} {reference : Reference} {m : Machine}

/-- What an admitted visit looks up is located among views that the frames fit. -/
theorem Touches.located (known : Known W) (touches : Touches v reference m)
    (admitted : v.Admitted W P) :
    m.heap.Sound W P ∧
      ∃ views, Fits P m.heap.frames views m.current ∧ reference.IsLocated views := by
  have sound := admitted.sound
  cases touches with
  | «variable» | this =>
      obtain ⟨place, _, placed, fits⟩ := admitted.admits
      exact ⟨sound, place.views, fits, placed.expr_parts known⟩
  | super =>
      obtain ⟨place, _, placed, fits⟩ := admitted.admits
      exact ⟨sound, place.views, fits, (placed.expr_parts known).located⟩
  | @assign n m m₁ reference value v run =>
      obtain ⟨place, _, placed, fits⟩ := admitted.admits
      obtain ⟨mid, inner, located, -⟩ := placed.expr_parts known
      have first : Safe W (evaluate n value) m (Gave W P m) :=
        (keeps known n).evaluate (Starts.assigned.admitted known admitted)
      obtain ⟨still, gave⟩ := first.gives run
      exact ⟨gave.1, mid.views, gave.fits known still inner fits, located⟩
  | @superclass n m m₁ name reference methods run =>
      obtain ⟨place, _, placed, fits, exact'⟩ := admitted.admits
      obtain ⟨plain, mid, _, _, binds, _, located, -⟩ := placed.stmt_parts known
      have nil : m.heap.Valid W P .nil := trivial
      obtain ⟨still, sound₁, carries₁, has₁⟩ := (defineHere_safe sound (fits.inside sound.nonempty)
        plain nil fun local' => exact'.not_pending fits local').gives run
      refine ⟨sound₁, _, ?_, located reference rfl⟩
      rw [still]
      exact fits.binds binds plain carries₁.frames (.inl (has₁ name rfl))

/-- A session after some steps that went through the scope rules and ended well. -/
inductive Settled (readings : Nat → Float) : History → Session → Prop
  | initial : Settled readings [] (.initial readings)
  | step {history s fuel mode source value} : Settled readings history s → mode.IsResolved →
      (s.step fuel mode source).1.result = .ok value →
      Settled readings ((mode, source) :: history) (s.step fuel mode source).2

variable {readings : Nat → Float} {history : History} {s : Session} {fuel : Nat} {mode : Mode}
  {source : String}

/-- Nothing is pending in a settled session. -/
theorem Settled.steady (h : Settled readings history s) : s.Steady (WalkedIn history) [] := by
  induction h with
  | initial => exact ⟨Machine.initial_sound, rfl⟩
  | step _ resolved ended ih =>
      obtain ⟨-, P, steady, same⟩ := Session.step_steady ih resolved
      rw [same _ ended] at steady
      exact steady

/-- A reference touches the frame at its distance and no other one if and only if the
name is not pending there. A pending name is looked up from the next frame outward. -/
theorem reference_touches_own_frame {distance : Nat} {pending : Pending}
    (settled : Settled readings history s) (visits : s.Visits fuel mode source v pending)
    (touches : Touches v reference m) (near : reference.distance = some distance) :
    ∃ frame, m.frames.ancestor? m.current distance = some frame ∧ frame ≠ Machine.globals ∧
      ((frame, reference.name.lexeme) ∉ pending →
        ∃ value, m.frames.local? frame reference.name.lexeme = some value ∧
          m.frames.readAt m.current distance reference.name = .ok value ∧
          m.frames.targetAt m.current distance reference.name = .ok frame) ∧
      ((frame, reference.name.lexeme) ∈ pending → IsPlainName reference.name.lexeme ∧
        m.frames.local? frame reference.name.lexeme = none ∧
        m.frames.readAt m.current distance reference.name =
          m.frames.readAt m.current (distance + 1) reference.name ∧
        m.frames.targetAt m.current distance reference.name =
          m.frames.targetAt m.current (distance + 1) reference.name) := by
  have known := walkedIn_known ((mode, source) :: history)
  have admitted := visits.admitted settled.steady
  rw [List.append_nil] at admitted
  obtain ⟨sound, views, fits, located⟩ := touches.located known admitted
  obtain ⟨frame, view, link, holds, other, seen⟩ := fits.located sound.rooted located near
  refine ⟨frame, link, other, fun free => ?_, fun waiting => ?_⟩
  · obtain ⟨binding, seen⟩ := Option.isSome_iff_exists.1 seen
    have has : m.frames.Has frame reference.name.lexeme := by
      obtain has | ⟨-, waiting⟩ := holds.bound _ _ seen
      · exact has
      · exact absurd waiting free
    obtain ⟨value, bound⟩ := Option.isSome_iff_exists.1 has
    exact ⟨value, bound, Frames.readAt_of_local? link bound, Frames.targetAt_of_has link has⟩
  · have absent := sound.absent waiting other
    obtain ⟨outer, further⟩ := fits.next sound.rooted link other
    exact ⟨(sound.pending waiting).1, Option.not_isSome_iff_eq_none.1 absent,
      Frames.readAt_next link further absent, Frames.targetAt_next link further absent⟩

/-- A source that assigns a variable while its initial value is computed. -/
def selfAssigning : String := "var a; \x7b var b = true; var a = a = b; \x7d print a;"

namespace SelfAssigning

/-- A word of the source that stands for itself. -/
def word (kind : TokenKind) (text : String) : Token := ⟨kind, text, kind.wordLiteral, 1⟩

/-- The name that is declared twice. -/
def a : Token := word .identifier "a"

/-- The name of the other variable of the block. -/
def b : Token := word .identifier "b"

/-- The assignment, with a distance for both variables. -/
def assignment (distance : Option Nat) : Expr :=
  .assign ⟨a, distance⟩ (.variable ⟨b, distance⟩)

/-- The statements of the block. -/
def body (distance : Option Nat) : List Stmt :=
  [.varDecl b (some (.literal (.boolean true))), .varDecl a (some (assignment distance))]

/-- The statements after the first one. -/
def others (distance : Option Nat) : List Stmt :=
  [.block (body distance), .print (.variable ⟨a, none⟩)]

theorem prepared :
    (prepareSource selfAssigning).result = .ok ([.varDecl a none] ++ others (some 0), 2) := by
  let tokens : List Token :=
    [word .varWord "var", a, word .semicolon ";", word .leftBrace "\x7b", word .varWord "var", b,
      word .equal "=", word .trueWord "true", word .semicolon ";", word .varWord "var", a,
      word .equal "=", a, word .equal "=", b, word .semicolon ";", word .rightBrace "\x7d",
      word .printWord "print", a, word .semicolon ";", .endOfText 1]
  have scanned : (scanSource selfAssigning).result = .ok tokens := by decide +kernel
  have parsed : (Grammar.program tokens).1 = .ok ([.varDecl a none] ++ others none) := rfl
  have resolved : (resolveProgram ([.varDecl a none] ++ others none)).result =
      .ok ([.varDecl a none] ++ others (some 0), 2) := rfl
  simp only [prepareSource, parseSource, Noted.andThen, scanned, parsed, Noted.done, resolved]

/-- The machine before the block is run. -/
def outside : Machine := (Machine.initial fun _ => 0).mapFrames (·.define Machine.globals "a" .nil)

/-- The machine while the initial value of the inner variable is computed. -/
def inside : Machine :=
  { outside.mapFrames fun fs => (fs.push (some Machine.globals)).define 1 "b"
      (.scalar (.boolean true)) with current := 1 }

theorem visits_assignment : (Session.initial fun _ => 0).Visits 9 (.run 1) selfAssigning
    ⟨5, .evaluate (assignment (some 0)), inside⟩ [(1, "a")] := by
  have block : (Session.initial fun _ => 0).Visits 9 (.run 1) selfAssigning
      ⟨9, .execute (.block (body (some 0))), outside⟩ [] := .statement prepared Nat.one_pos rfl rfl
  let entered : Machine := { outside.mapFrames (·.push (some Machine.globals)) with current := 1 }
  have first : (execute 7 (.varDecl b (some (.literal (.boolean true))))).Gives entered .normal
      inside := rfl
  have rest := (block.on (.block rfl)).on (.otherStatements first)
  exact (rest.on .statement).on .initial

/-- The frame of the block itself binds the variable that is read. -/
theorem reference_touches_own_frame_b :
    Settled (fun _ => 0) [] (.initial fun _ => 0) ∧
      (Session.initial fun _ => 0).Visits 9 (.run 1) selfAssigning
        ⟨4, .evaluate (.variable ⟨b, some 0⟩), inside⟩ [(1, "a")] ∧
      Touches ⟨4, .evaluate (.variable ⟨b, some 0⟩), inside⟩ ⟨b, some 0⟩ inside ∧
      ∃ value, inside.frames.local? 1 "b" = some value ∧
        inside.frames.readAt 1 0 b = .ok value ∧ inside.frames.targetAt 1 0 b = .ok 1 := by
  have settled : Settled (fun _ => 0) [] (.initial fun _ => 0) := .initial
  have visits := visits_assignment.on .assigned
  have touches : Touches ⟨4, .evaluate (.variable ⟨b, some 0⟩), inside⟩ ⟨b, some 0⟩ inside :=
    .variable
  obtain ⟨frame, link, -, bound, -⟩ := reference_touches_own_frame settled visits touches rfl
  have here : inside.frames.ancestor? 1 0 = some 1 := by decide +kernel
  obtain rfl := Option.some.inj (here.symm.trans link)
  exact ⟨settled, visits, touches, bound (by decide)⟩

/-- The frame of the block does not bind the variable that is assigned, and the global
variable of this name changes. -/
theorem global_is_touched_at_distance : ∃ v pending reference m,
    (Session.initial fun _ => 0).Visits 9 (.run 1) selfAssigning v pending ∧ Touches v reference m ∧
      reference.distance = some 0 ∧ m.frames.ancestor? m.current 0 = some 1 ∧
      ¬m.frames.Has 1 reference.name.lexeme ∧
      m.frames.targetAt m.current 0 reference.name = .ok Machine.globals := by
  have here : inside.frames.ancestor? 1 0 = some 1 := by decide +kernel
  have read : (readReference ⟨b, some 0⟩).Gives inside (.scalar (.boolean true)) inside :=
    readReference_gives rfl here rfl
  have value : (evaluate 4 (.variable ⟨b, some 0⟩)).Gives inside (.scalar (.boolean true)) inside :=
    read
  exact ⟨_, _, _, _, visits_assignment, .assign value, rfl, here, nofun, by decide +kernel⟩

end SelfAssigning

end TreeWalk
