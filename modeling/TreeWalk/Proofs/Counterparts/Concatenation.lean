import TreeWalk.Proofs.Counterparts.Layout
import TreeWalk.Proofs.Counterparts.Origins
import TreeWalk.Proofs.Grammar.Continuing.Programs
import TreeWalk.Proofs.Scope.Views

/-!
# A session is one program

Two sources that are run one after the other do what one source does that holds both, with
a line feed between them. Only the lines differ at which the errors of the second one are
found.

## Implementation notes

The two sources and the closures on the machine may have a token in common. So the steps are
compared with the one source by way of other steps, in which the second source is moved down
below everything else and a token tells where it comes from.
-/

namespace TreeWalk

variable {R : Correspondence}

open Surroundings in
/-- Outside every scope a statement leaves no name behind. -/
theorem Surroundings.After.alike {declared : Option Token} {place place' : Surroundings}
    (h : After declared place place') (top : place.scopes = []) : Alike place place' := by
  cases declared with
  | none => exact h
  | some name =>
    obtain ⟨binds, functionContext, classContext⟩ : Declares name true place place' := h
    have none : place.views = [] := by rw [views, top, List.map_nil]
    rw [none] at binds
    exact ⟨Eq.trans binds none.symm, functionContext, classContext⟩

open Surroundings in
theorem Surroundings.Alike.top {place place' : Surroundings} (h : Alike place place')
    (top : place.scopes = []) : place'.scopes = [] := by
  have same : place'.views = place.views := h.views
  rw [Surroundings.views, Surroundings.views, top] at same
  exact List.map_eq_nil_iff.1 same

/-- A walk over statements outside every scope ends outside every scope. -/
theorem Stmt.resolveEach_top {body body' : List Stmt} {place place' : Surroundings}
    (layered : Stmt.AllLayered body) (walk : (Stmt.resolveEach body).Gives place body' place')
    (top : place.scopes = []) : place.Alike place' := by
  induction body generalizing body' place with
  | nil =>
    obtain ⟨-, rfl⟩ := Stmt.resolveEach_gives.1 walk
    exact .refl
  | cons s rest ih =>
    obtain ⟨s', mid, rest', first, others, -⟩ := Stmt.resolveEach_gives.1 walk
    have here := (Stmt.resolve_after layered.1 first).alike top
    exact here.trans (ih layered.2 others (here.top top))

theorem Stmt.resolveEach_append {one one' other other' : List Stmt}
    {place mid place' : Surroundings} (first : (Stmt.resolveEach one).Gives place one' mid)
    (second : (Stmt.resolveEach other).Gives mid other' place') :
    (Stmt.resolveEach (one ++ other)).Gives place (one' ++ other') place' := by
  induction one generalizing one' place with
  | nil =>
    obtain ⟨rfl, rfl⟩ := Stmt.resolveEach_gives.1 first
    exact second
  | cons s rest ih =>
    obtain ⟨s', mid', rest', head, tail, rfl⟩ := Stmt.resolveEach_gives.1 first
    exact Stmt.resolveEach_gives.2 ⟨s', mid', rest' ++ other', head, ih tail, rfl⟩

theorem resolveProgram_eq_ok {program program' : List Stmt} {uses : Nat} :
    (resolveProgram program).result = .ok (program', uses) ↔
      ∃ after, (Stmt.resolveEach program).Gives .initial program' after ∧
        uses = after.found.size := by
  simp only [← Resolve.walk_eq_ok]
  unfold resolveProgram
  split
  next walk => simp [walk, Noted.done, eq_comm]
  next walk => simp [walk, Noted.failed]

/-- The scope rules treat two programs one after the other as each of them. -/
theorem resolveProgram_append {one one' other other' more : List Stmt} {uses uses' : Nat}
    (layered : Stmt.AllLayered one) (first : (resolveProgram one).result = .ok (one', uses))
    (second : (resolveProgram other).result = .ok (other', uses'))
    (alike : List.Forall₂ (Stmt.Like R) other more) :
    ∃ more', (resolveProgram (one ++ more)).result = .ok (one' ++ more', uses + uses') ∧
      List.Forall₂ (Stmt.Like R) other' more' := by
  obtain ⟨mid, walk, rfl⟩ := resolveProgram_eq_ok.1 first
  obtain ⟨after, walk', rfl⟩ := resolveProgram_eq_ok.1 second
  have top := Stmt.resolveEach_top layered walk rfl
  have start : Surroundings.Like R [] mid.found.toList .initial mid :=
    { scopes := by rw [top.top rfl]; exact .nil
      functionContext := top.functionContext.symm
      classContext := top.classContext.symm
      found := ⟨[], [], rfl, (List.append_nil _).symm, .nil⟩ }
  have both := Stmt.resolveEach_paired other alike start
  rw [show Stmt.resolveEach other .initial = .ok other' after from walk'] at both
  generalize joint : Stmt.resolveEach more mid = outcome at both
  cases both with | @ok _ more' _ last rows ends
  refine ⟨more', resolveProgram_eq_ok.2 ⟨last, Stmt.resolveEach_append walk joint, ?_⟩, rows⟩
  obtain ⟨found, found', all, all', same⟩ := ends.found
  rw [← Array.length_toList, ← Array.length_toList, ← Array.length_toList, all, all',
    List.nil_append, List.length_append, same.length_eq]

/-- The tree of a source is layered and has kept nothing but tokens of the source. -/
theorem parseSource_accounts {source : String} {tokens : List Token} {tree : List Stmt}
    (scanned : (scanSource source).result = .ok tokens)
    (read : (parseSource source).result = .ok tree) :
    Stmt.AllLayered tree ∧ ∀ t, .kept t ∈ Stmt.rowWords tree → t ∈ tokens := by
  obtain ⟨tokens', rest, scanned', read⟩ := parseSource_ok read
  obtain rfl : tokens' = tokens := Except.ok.inj (scanned'.symm.trans scanned)
  obtain ⟨⟨taken, rfl, -, kept, -⟩, layered, -⟩ :=
    Grammar.items_accounts (Grammar.read_eq_ok.1 read)
  exact ⟨layered, fun t among => List.mem_append_left rest (kept t among)⟩

/-- The lines from a source to one that stands behind it and a line feed. -/
def linesBehind (source : String) : Nat := 1 + source.toList.count '\n'

section

variable {one other apart : String} {tokens tokens' moved : List Token}
  (scanned : (scanSource one).result = .ok tokens)
  (scanned' : (scanSource other).result = .ok tokens')
  (scannedApart : (scanSource apart).result = .ok moved)
  (rows : List.Forall₂ R.relates moved (tokens'.map (·.later (linesBehind one))))

include scanned scanned' scannedApart rows

/-- Two sources as one are read to the tree of the first and one like that of a source that
holds the words of the second. -/
theorem parseSource_join {tree tree' : List Stmt} (read : (parseSource one).result = .ok tree)
    (read' : (parseSource apart).result = .ok tree') :
    ∃ more, (parseSource (one ++ "\n" ++ other)).result = .ok (tree ++ more) ∧
      List.Forall₂ (Stmt.Like R) tree' more := by
  obtain ⟨ts, rest, scannedOne, first⟩ := parseSource_ok read
  obtain rfl : ts = tokens := Except.ok.inj (scannedOne.symm.trans scanned)
  obtain ⟨us, rest', scannedOther, second⟩ := parseSource_ok read'
  obtain rfl : us = moved := Except.ok.inj (scannedOther.symm.trans scannedApart)
  obtain ⟨words, close, rfl, isEnd, noEnd⟩ := scanSource_closed scanned
  have both := Grammar.program_paired rows
  rw [show Grammar.items _ us = .ok tree' rest' from Grammar.read_eq_ok.1 second] at both
  generalize found : Grammar.items _ (tokens'.map _) = outcome at both
  cases both with | @ok _ more _ left alike _
  have behind : Grammar.program (tokens'.map (·.later (linesBehind one))) = (.ok more, left) :=
    Grammar.read_eq_ok.2 found
  have whole := Grammar.program_append isEnd noEnd first behind
  refine ⟨more, Noted.andThen_ok.2 ⟨_, scanSource_join scanned scanned', ?_⟩, alike⟩
  rw [List.dropLast_concat]
  simp only [linesBehind] at whole
  rw [whole]
  rfl

/-- Two sources as one are the program of the first and one like that of a source that holds
the words of the second. -/
theorem prepareSource_join {program program' : List Stmt} {uses uses' : Nat}
    (prepared : (prepareSource one).result = .ok (program, uses))
    (prepared' : (prepareSource apart).result = .ok (program', uses')) :
    ∃ more, (prepareSource (one ++ "\n" ++ other)).result = .ok (program ++ more, uses + uses') ∧
      List.Forall₂ (Stmt.Like R) program' more := by
  obtain ⟨tree, read, resolved⟩ := Noted.andThen_ok.1 prepared
  obtain ⟨tree', read', resolved'⟩ := Noted.andThen_ok.1 prepared'
  obtain ⟨layered, -⟩ := parseSource_accounts scanned read
  obtain ⟨more, joined, alike⟩ := parseSource_join scanned scanned' scannedApart rows read read'
  obtain ⟨more', whole, alike'⟩ := resolveProgram_append layered resolved resolved' alike
  exact ⟨more', Noted.andThen_ok.2 ⟨_, joined, whole⟩, alike'⟩

end

/-- Sources whose tokens are counterparts have programs that are alike. -/
theorem prepareSource_alike {source source' : String} {tokens tokens' : List Token}
    {program : List Stmt} {uses : Nat} (scanned : (scanSource source).result = .ok tokens)
    (scanned' : (scanSource source').result = .ok tokens')
    (rows : List.Forall₂ R.relates tokens tokens')
    (prepared : (prepareSource source).result = .ok (program, uses)) :
    ∃ program', (prepareSource source').result = .ok (program', uses) ∧
      List.Forall₂ (Stmt.Like R) program program' := by
  have both := prepareSource_rel scanned scanned' rows
  rw [prepared] at both
  generalize (prepareSource source').result = result at both
  cases both with
  | @ok _ other alike =>
      obtain ⟨program', uses'⟩ := other
      obtain ⟨rows, rfl⟩ : List.Forall₂ (Stmt.Like R) program program' ∧ uses = uses' := alike
      exact ⟨program', rfl, rows⟩

theorem interpretTimes_append (fuel : Nat) (one other : List Stmt) :
    Session.interpretTimes fuel (one ++ other) 1 = [one, other].forM (interpret fuel) := by
  have last (program : List Stmt) : [program].forM (interpret fuel) = interpret fuel program :=
    bind_pure_unit
  calc Session.interpretTimes fuel (one ++ other) 1
      = interpret fuel (one ++ other) := by
        rw [Session.interpretTimes_eq, List.replicate_one, last]
    _ = interpret fuel one >>= fun _ => interpret fuel other := List.forM_append
    _ = interpret fuel one >>= fun _ => [other].forM (interpret fuel) := by rw [last]

/-- What the machine was given to run before is no part of a run. -/
theorem Session.addLocated_run {α : Type} (s : Session) (uses : Nat) (act : Eval α) :
    ((s.addLocated uses).run act).1 = (s.run act).1 := by
  simp only [run, EStateM.run, addLocated]
  cases act s.machine <;> rfl

/-- A step that stops in the first of two programs stops as a step with that program. -/
theorem Session.step_error_append {one whole : String} {program more : List Stmt}
    {uses uses' fuel : Nat} {s : Session} {e : Failure}
    (prepared : (prepareSource one).result = .ok (program, uses))
    (joined : (prepareSource whole).result = .ok (program ++ more, uses'))
    (stops : (s.step fuel (.run 1) one).1.result = .error e) :
    (s.step fuel (.run 1) whole).1.result = .error e := by
  have once : interpretTimes fuel program 1 = interpret fuel program := bind_pure_unit
  have split : [program, more].forM (interpret fuel) =
      interpret fuel program >>= fun _ => [more].forM (interpret fuel) := rfl
  rw [(step_prepared prepared s fuel 1).1, addLocated_run, once] at stops
  rw [(step_prepared joined s fuel 1).1, addLocated_run, interpretTimes_append, split, run_bind]
  generalize s.silent.run (interpret fuel program) = ran at stops
  obtain ⟨_ | _, mid⟩ := ran
  · exact stops
  · cases stops

/-- Tokens are counterparts if they are the same word. -/
def Correspondence.words : Correspondence := ⟨Token.SameWord, id⟩

/-- Runs that end alike are told alike. -/
theorem EndAlike.told {tokens : List Token} {line lines : Nat}
    {one two three : Except Failure (Option Value)} (h : EndAlike tokens line lines one two three) :
    Except.Rel (Failure.ToldLike .words) Eq one three := by
  have told {e e' : Failure} (like : e.Like .words e') : e.ToldLike .words e' :=
    ⟨like, like.report?⟩
  cases h with
  | given => exact .ok rfl
  | inside => exact .error (told (.run (.error ⟨rfl, rfl, rfl⟩)))
  | @outside stop =>
      cases stop with
      | error e => exact .error (told (.run (.error ⟨rfl, rfl, rfl⟩)))
      | fault => exact .error (told (.run .fault))
      | outOfFuel => exact .error (told (.run .outOfFuel))

section

variable {one other : String} {tokens tokens' : List Token} {program program' : List Stmt}
  (scanned : (scanSource one).result = .ok tokens)
  (scanned' : (scanSource other).result = .ok tokens')
  (prepared : Session.Prepares one program) (prepared' : Session.Prepares other program')

include scanned scanned' prepared prepared'

/-- If the second source is moved down below everything else, this changes nothing but the lines
of its own tokens, in the two steps as well as against the one source. -/
theorem Session.runEach_apart {s : Session} {line : Nat} (free : s.machine.FreeBelow tokens line)
    (fuel : Nat) :
    let steps := s.runEach fuel [one, other]
    let apart := s.runEach fuel [one, movedDown line other]
    let whole := s.step fuel (.run 1) (one ++ "\n" ++ other)
    EndAlike tokens' line (linesBehind one) steps.1 apart.1 whole.1.result ∧
      (steps.2.output = apart.2.output ∧ apart.2.output = whole.2.output) ∧
      steps.2.shownGlobals = apart.2.shownGlobals ∧
      apart.2.shownGlobals = whole.2.shownGlobals := by
  intro steps apart whole
  obtain ⟨uses, resolved⟩ := prepared
  obtain ⟨uses', resolved'⟩ := prepared'
  have own (lines lines' : Nat) : List.Forall₂ (Correspondence.moved s.machine tokens tokens' lines
      lines').relates (tokens'.map (·.later lines)) (tokens'.map (·.later lines')) :=
    List.forall₂_map_left_iff.2 (List.forall₂_map_right_iff.2 (List.forall₂_same.2
      fun t among => .inl ⟨t, among, rfl, rfl⟩))
  have others (lines lines' : Nat) : List.Forall₂ (Correspondence.moved s.machine tokens tokens'
      lines lines').relates tokens tokens :=
    List.forall₂_same.2 fun t among => .inr ⟨.inl among, rfl⟩
  have below := own 0 line
  rw [List.map_congr_left fun t _ => Token.later_zero t, List.map_id'] at below
  have scannedApart := scanSource_movedDown scanned' line
  obtain ⟨moved, resolvedApart, alike⟩ := prepareSource_alike scanned' scannedApart below resolved'
  obtain ⟨more, joined, alike'⟩ := prepareSource_join scanned scanned' scannedApart
    (own line (linesBehind one)) resolved resolvedApart
  have same (lines lines' : Nat) : List.Forall₂ (Stmt.Like (.moved s.machine tokens tokens' lines
      lines')) program program := by
    obtain ⟨program', resolved', rows⟩ :=
      prepareSource_alike scanned scanned (others lines lines') resolved
    rw [resolved] at resolved'
    cases resolved'
    exact rows
  have stepped : List.Forall₂ Prepares [one, other] [program, program'] :=
    .cons ⟨uses, resolved⟩ (.cons ⟨uses', resolved'⟩ .nil)
  have steppedApart : List.Forall₂ Prepares [one, movedDown line other] [program, moved] :=
    .cons ⟨uses, resolved⟩ (.cons ⟨uses', resolvedApart⟩ .nil)
  obtain ⟨ran, printed, shown⟩ := runEach_alike stepped steppedApart
    (.cons (same 0 line) (.cons alike .nil)) fuel s fun t kept => .inr ⟨.inr kept, rfl⟩
  obtain ⟨ran', printed', shown'⟩ := runEach_step steppedApart
    (.cons (same line (linesBehind one)) (.cons alike' .nil)) joined
    (interpretTimes_append fuel program more) s fun t kept => .inr ⟨.inr kept, rfl⟩
  refine ⟨.of_moved free (fun t among => ?_) ran ran' fun e failed => ?_, ⟨printed, printed'⟩,
    shown, shown'⟩
  · exact (Token.IsFrom.hasLine ⟨tokens', scanned', among⟩).1
  · rw [(step_prepared joined s fuel 1).1] at failed
    obtain ⟨stop, told, -⟩ := run_error failed
    exact ⟨stop, told⟩

end

/-- Running two sources one after the other does what running them as one source does,
with a line feed between them: the same is printed, the same global variables are left,
and the first error, at which both stop, has the same message. Its line is later by those
of the first source if it is found at a token of the second, and the same otherwise. Whether
it is found at a token of the second source shows if this source is moved down below all other
tokens: then the error is found down there. An error in the first of the two steps is the same
error. -/
theorem session_is_one_program {one other : String} {tokens tokens' : List Token}
    {program program' : List Stmt} (scanned : (scanSource one).result = .ok tokens)
    (scanned' : (scanSource other).result = .ok tokens')
    (prepared : Session.Prepares one program) (prepared' : Session.Prepares other program')
    (s : Session) (fuel : Nat) :
    let steps := s.runEach fuel [one, other]
    let whole := s.step fuel (.run 1) (one ++ "\n" ++ other)
    Except.Rel (Failure.ToldLike .words) Eq steps.1 whole.1.result ∧
      (∃ line, s.machine.FreeBelow tokens line) ∧
      (∀ line, s.machine.FreeBelow tokens line →
        let apart := s.runEach fuel [one, movedDown line other]
        EndAlike tokens' line (linesBehind one) steps.1 apart.1 whole.1.result ∧
          apart.2.output = whole.2.output ∧ apart.2.shownGlobals = whole.2.shownGlobals) ∧
      (∀ e, (s.step fuel (.run 1) one).1.result = .error e → whole.1.result = .error e) ∧
      steps.2.output = whole.2.output ∧ steps.2.shownGlobals = whole.2.shownGlobals := by
  intro steps whole
  obtain ⟨line, free⟩ := s.machine.exists_freeBelow tokens
  have apart {line : Nat} (free : s.machine.FreeBelow tokens line) :=
    Session.runEach_apart scanned scanned' prepared prepared' free fuel
  obtain ⟨alike, ⟨printed, printed'⟩, shown, shown'⟩ := apart free
  refine ⟨alike.told, ⟨line, free⟩, fun line free => ?_, ?_, printed.trans printed',
    shown.trans shown'⟩
  · obtain ⟨alike, ⟨-, printed⟩, -, shown⟩ := apart free
    exact ⟨alike, printed, shown⟩
  · obtain ⟨uses, resolved⟩ := prepared
    obtain ⟨uses', resolved'⟩ := prepared'
    obtain ⟨more, joined, -⟩ := prepareSource_join (R := .words) scanned scanned' scanned'
      (List.forall₂_map_right_iff.2 (List.forall₂_same.2 fun _ _ => ⟨rfl, rfl, rfl⟩)) resolved
      resolved'
    exact fun e => Session.step_error_append resolved joined

namespace CalledNext

open TokenKind (word)

/-- The parenthesis that closes the parameters of the function and the arguments of the call. -/
def close : Token := word .rightParen ")"

/-- The name of the function. -/
def f : Token := word .identifier "f"

/-- The tokens of the function. -/
def declared : List Token :=
  [word .funWord "fun", f, word .leftParen "(", close, word .leftBrace "\x7b",
    word .rightBrace "\x7d", .endOfText 1]

/-- The tokens of the call. -/
def called : List Token :=
  [word .nilWord "nil", word .leftParen "(", close, word .semicolon ";", .endOfText 1]

/-- The program of the call. -/
def program : List Stmt := [.expression (.call (.literal .nil) close [])]

/-- A call that breaks a rule does so one line later behind a line with a function, though the
function has the same token on its line. -/
theorem session_is_one_program_called :
    let s : Session := .initial fun _ => 0
    (scanSource "fun f() \x7b\x7d").result = .ok declared ∧
      (scanSource "nil();").result = .ok called ∧
      Session.Prepares "fun f() \x7b\x7d" [.functionDecl (.mk f [] [])] ∧
      Session.Prepares "nil();" program ∧ s.machine.FreeBelow declared 1 ∧ close ∈ declared ∧
      (s.runEach 8 ["fun f() \x7b\x7d", "nil();"]).1 =
        .error (.run (.error ⟨.notCallable "nil", close⟩)) ∧
      (s.step 8 (.run 1) "fun f() \x7b\x7d\nnil();").1.result =
        .error (.run (.error ⟨.notCallable "nil", close.later 1⟩)) := by
  intro s
  have scanned : (scanSource "fun f() \x7b\x7d").result = .ok declared := by decide +kernel
  have scanned' : (scanSource "nil();").result = .ok called := by decide +kernel
  have prepared : Session.Prepares "fun f() \x7b\x7d" [.functionDecl (.mk f [] [])] :=
    ⟨0, Noted.andThen_ok.2 ⟨_, Noted.andThen_ok.2 ⟨_, scanned, rfl⟩, rfl⟩⟩
  have prepared' : Session.Prepares "nil();" program :=
    ⟨0, Noted.andThen_ok.2 ⟨_, Noted.andThen_ok.2 ⟨_, scanned', rfl⟩, rfl⟩⟩
  have free : s.machine.FreeBelow declared 1 := by
    rintro t (among | ⟨c, among, -⟩)
    · revert t
      decide
    · exact absurd among List.not_mem_nil
  have below : ((s.runEach 8 ["fun f() \x7b\x7d", movedDown 1 "nil();"]).1.map fun _ => ()) =
      .error (.run (.error ⟨.notCallable "nil", close.later 1⟩)) := by
    decide +kernel
  obtain ⟨-, -, apart, -⟩ := session_is_one_program scanned scanned' prepared prepared' s 8
  obtain ⟨alike, -⟩ := apart 1 free
  refine ⟨scanned, scanned', prepared, prepared', free, by decide, ?_⟩
  change EndAlike called 1 1 _ _ (s.step 8 (.run 1) "fun f() \x7b\x7d\nnil();").1.result at alike
  generalize (s.runEach 8 ["fun f() \x7b\x7d", "nil();"]).1 = steps,
    (s.runEach 8 ["fun f() \x7b\x7d", movedDown 1 "nil();"]).1 = moved,
    (s.step 8 (.run 1) "fun f() \x7b\x7d\nnil();").1.result = whole at alike below ⊢
  cases alike with
  | given => cases below
  | @inside cause t =>
      obtain ⟨rfl, same⟩ : cause = .notCallable "nil" ∧ t.later 1 = close.later 1 := by
        simpa [Except.map] using below
      rw [Token.later_inj same]
      exact ⟨rfl, rfl⟩
  | outside above =>
      cases below
      exact absurd (above _ rfl) (by decide)

end CalledNext

end TreeWalk
