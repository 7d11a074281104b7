import TreeWalk.Proofs.Counterparts.Confining
import TreeWalk.Proofs.Grammar.Reach.Programs
import TreeWalk.Proofs.Lexis.Joining
import TreeWalk.Proofs.Run.Raising
import TreeWalk.Proofs.Scope.Words

/-!
# Errors point into the sources

Whatever a step of a session fails for, there is a source in which it is found: that of the
step itself or, if a rule is broken in code that was kept from before, that of the step
which gave this code. The error is at a token of this source, on one of its lines.

## Implementation notes

A function may be called long after its own step. Where its code comes from is known from
the spots of the walks that gave the nodes on the machine, so a broken rule is followed down
to the visit that broke it, and from there to the walk over a source.
-/

namespace TreeWalk

open Eval

/-- A token is one of those that a source is scanned to. -/
def Token.IsFrom (t : Token) (source : String) : Prop :=
  ∃ tokens, (scanSource source).result = .ok tokens ∧ t ∈ tokens

/-- A source has a line of this number. -/
def HasLine (source : String) (line : Int) : Prop := 1 ≤ line ∧ line ≤ lineBehind source.toList

theorem line_of_tokensBehind {before : List Char} {pieces : List (List Char × Piece)} {t : Token}
    (among : t ∈ tokensBehind before pieces) :
    1 ≤ t.line ∧ t.line ≤ lineBehind (before ++ pieces.flatMap Prod.fst) := by
  induction pieces generalizing before with
  | nil =>
      obtain rfl := List.mem_singleton.1 among
      simp [Token.endOfText, lineBehind]
  | cons piece pieces ih =>
      obtain ⟨text, piece⟩ := piece
      rw [List.flatMap_cons, ← List.append_assoc]
      cases piece with
      | word kind literal =>
          obtain rfl | among := List.mem_cons.1 among
          · rw [lineBehind_append (before ++ text)]
            simp only [lineBehind]
            omega
          · exact ih among
      | blank | unexpected | unterminated => exact ih among

/-- A token is on a line of its source. -/
theorem Token.IsFrom.hasLine {t : Token} {source : String} (h : t.IsFrom source) :
    HasLine source t.line := by
  obtain ⟨tokens, scanned, among⟩ := h
  obtain ⟨pieces, division, rfl⟩ := scanSource_eq_ok_iff.1 scanned
  rw [HasLine, division.append, List.append_nil]
  exact line_of_tokensBehind among

/-- A source that cannot be scanned is at fault on one of its lines. -/
theorem scanSource_error {source : String} {f : Failure}
    (h : (scanSource source).result = .error f) :
    ∃ e : LexicalError, f = .lexical e ∧ HasLine source e.line := by
  unfold scanSource at h
  split at h
  next => cases h
  next e _ failed =>
    cases h
    obtain ⟨pieces, c, rest, division, -, told⟩ := Scanner.all_eq_error_iff.1
      ⟨e, congrArg Prod.fst failed, rfl⟩
    have line : e.report.line = some (e.line : Int) := rfl
    refine ⟨e, rfl, ?_⟩
    rw [told, misfitReport] at line
    rw [HasLine, show source.toList = _ from division.append]
    rw [lineBehind_append]
    split at line
    all_goals
      have same := Option.some.inj line
      simp only [lineBehind, List.count_append] at same ⊢
      omega

section

variable {source : String} {mode : Mode} {root : Spot} {t : Token} {f : Failure}

/-- What the tree of a source has kept are tokens of the source, and none is the end token. -/
theorem Root.isFrom (h : Root mode source root) (kept : .kept t ∈ root.node.words) :
    t.IsFrom source ∧ t.kind ≠ .endOfText := by
  have covered : ∃ tokens rest, (scanSource source).result = .ok tokens ∧
      Grammar.Accounts root.node.words tokens rest := by
    cases h with
    | program parsed =>
        obtain ⟨tokens, rest, scanned, read⟩ := parseSource_ok parsed
        exact ⟨tokens, rest, scanned, (Grammar.items_accounts (Grammar.read_eq_ok.1 read)).1⟩
    | expression parsed =>
        obtain ⟨tokens, rest, scanned, read⟩ := parseExpression_ok parsed
        exact ⟨tokens, rest, scanned,
          (Grammar.loneExpression_accounts (Grammar.read_eq_ok.1 read)).1⟩
  obtain ⟨tokens, rest, scanned, taken, rfl, noEnd, among, -⟩ := covered
  exact ⟨⟨_, scanned, List.mem_append_left rest (among t kept)⟩, noEnd t (among t kept)⟩

/-- A failure is about the text of a source. -/
inductive Failure.IsAbout (source : String) : Failure → Prop
  | lexical {e : LexicalError} : HasLine source e.line → IsAbout source (.lexical e)
  | grammar {e : GrammarError} : e.token.IsFrom source → IsAbout source (.grammar (.error e))
  | scope {e : ScopeError} : e.token.IsFrom source → e.token.kind ≠ .endOfText →
      IsAbout source (.scope e)

theorem hasEnd_of_scanSource {tokens : List Token}
    (scanned : (scanSource source).result = .ok tokens) : Grammar.HasEnd tokens := by
  obtain ⟨words, close, rfl, isEnd, -⟩ := scanSource_closed scanned
  exact ⟨close, by simp, isEnd⟩

theorem Grammar.ReadsWithin.halt {α : Type} {tokens : List Token} {current : Nat} {halt : Halt}
    {entry : List Token → Except Halt α × List Token} (h : ReadsWithin entry tokens current)
    (failed : (entry tokens).1 = .error halt) : ∃ e, halt = .error e := by
  obtain ⟨a, read, -⟩ | ⟨e, stopped⟩ := h.ends
  · cases failed.symm.trans read
  · exact ⟨e, Except.error.inj (failed.symm.trans stopped)⟩

theorem parseSource_error (h : (parseSource source).result = .error f) : f.IsAbout source := by
  obtain scanning | ⟨tokens, scanned, reading⟩ := Noted.andThen_error h
  · obtain ⟨e, rfl, line⟩ := scanSource_error scanning
    exact .lexical line
  · split at reading
    next => cases reading
    next halt failed =>
      cases reading
      obtain ⟨current, within⟩ := Grammar.program_readsWithin (hasEnd_of_scanSource scanned)
      obtain ⟨e, rfl⟩ := within.halt failed
      exact .grammar ⟨tokens, scanned, Grammar.program_error_inside failed⟩

theorem parseExpression_error (h : parseExpression source = .error f) : f.IsAbout source := by
  obtain scanning | ⟨tokens, scanned, reading⟩ := Except.bind_error h
  · obtain ⟨e, rfl, line⟩ := scanSource_error scanning
    exact .lexical line
  · cases failed : (Grammar.wholeExpression tokens).1 with
    | ok => simp [failed, Except.mapError] at reading
    | error halt =>
        rw [failed] at reading
        cases reading
        have ends := hasEnd_of_scanSource scanned
        obtain ⟨current, within⟩ := Grammar.wholeExpression_readsWithin ends
        obtain ⟨e, rfl⟩ := within.halt failed
        exact .grammar ⟨tokens, scanned, Grammar.wholeExpression_error_inside failed⟩

/-- A program that cannot be prepared fails for something in its source. -/
theorem prepareSource_error (h : (prepareSource source).result = .error f) :
    f.IsAbout source := by
  obtain parsing | ⟨program, parsed, resolving⟩ := Noted.andThen_error h
  · exact parseSource_error parsing
  · obtain ⟨e, rfl, kept⟩ := resolveProgram_error resolving
    have root : Root (.run 1) source ⟨.stmts program, .initial⟩ := .program parsed
    obtain ⟨inside, noEnd⟩ := root.isFrom kept
    exact .scope inside noEnd

/-- An expression that cannot be prepared fails for something in its source. -/
theorem prepareExpression_error (h : parseExpression source >>= resolveExpression = .error f) :
    f.IsAbout source := by
  obtain parsing | ⟨expr, parsed, resolving⟩ := Except.bind_error h
  · exact parseExpression_error parsing
  · obtain ⟨e, rfl, kept⟩ := resolveExpression_error resolving
    obtain ⟨inside, noEnd⟩ := (Root.expression parsed).isFrom kept
    exact .scope inside noEnd

end

variable {readings : Nat → Float} {history : History} {s : Session} {fuel : Nat} {mode : Mode}
  {source : String}

/-- A step of a session breaks a rule in code of a source: at a word of a node that the step
comes to and that the walk over this source gave. -/
structure Session.BreaksIn (s : Session) (fuel : Nat) (mode : Mode) (source : String)
    (e : RuntimeError) (origin : Mode × String) : Prop where
  code : ∃ v pending node root spot after, s.Visits fuel mode source v pending ∧ v.Raises e ∧
    v.task.node? = some node ∧ .kept e.token ∈ node.words ∧ Root origin.1 origin.2 root ∧
    Relation.ReflTransGen Walks root spot ∧ Resolves spot node after
  token : e.token.IsFrom origin.2
  noEnd : e.token.kind ≠ .endOfText

/-- A failure of a step is found in a source: in that of the step, unless a rule is broken in
code from an earlier step. -/
inductive Session.FailsIn (s : Session) (fuel : Nat) (mode : Mode) (source : String)
    (history : History) : Failure → String → Prop
  | static {e} : e.IsAbout source → FailsIn s fuel mode source history e source
  | run {e origin} : origin ∈ (mode, source) :: history →
      s.BreaksIn fuel mode source e origin →
      FailsIn s fuel mode source history (.run (.error e)) origin.2

theorem Session.Visits.walks {v v' : Visit} {P : Pending} (h : s.Visits fuel mode source v P)
    (walks : Relation.ReflTransGen Starts v v') : ∃ P', s.Visits fuel mode source v' P' := by
  induction walks with
  | refl => exact ⟨P, h⟩
  | tail _ starts ih =>
      obtain ⟨P', visits⟩ := ih
      exact ⟨_, visits.on starts⟩

theorem Session.run_error {α : Type} {act : Eval α} {answer : α → Option Value} {f : Failure}
    (h : (s.run act).1.map answer = .error f) :
    ∃ stop, f = .run stop ∧ act.Fails s.machine stop := by
  unfold Session.run at h
  split at h
  next => cases h
  next stop m run =>
    cases h
    exact ⟨stop, rfl, m, run⟩

/-- A step that fails is at fault in its source, or a visit that it comes to stops. -/
theorem Session.step_error {f : Failure} (resolved : mode.IsResolved)
    (failed : (s.step fuel mode source).1.result = .error f) :
    f.IsAbout source ∨ ∃ stop, f = .run stop ∧
      ∀ e, stop = .error e → ∃ v P, s.Visits fuel mode source v P ∧ v.Raises e := by
  cases mode with
  | runRaw | evaluateRaw => cases resolved
  | run times =>
      unfold step at failed
      dsimp only at failed
      split at failed
      next notes e unprepared =>
        cases failed
        exact .inl (prepareSource_error (congrArg Noted.result unprepared))
      next notes program uses prepared =>
        have prepared := congrArg Noted.result prepared
        obtain ⟨stop, rfl, stopped⟩ := run_error failed
        refine .inr ⟨stop, rfl, ?_⟩
        rintro e rfl
        obtain ⟨round, m, inside, rounds, stopped⟩ := interpretTimes_raises stopped
        obtain ⟨statement, m', ⟨before, after, rfl, comes⟩, raises⟩ := interpret_raises stopped
        exact ⟨_, _, .statement prepared inside rounds comes, raises⟩
  | evaluate =>
      unfold step at failed
      dsimp only at failed
      split at failed
      next e unprepared =>
        cases failed
        exact .inl (prepareExpression_error unprepared)
      next e uses prepared =>
        obtain ⟨stop, rfl, stopped⟩ := run_error failed
        refine .inr ⟨stop, rfl, ?_⟩
        rintro e rfl
        exact ⟨_, _, .expression prepared, stopped⟩

/-- A rule that a visit breaks is broken in code of a source of the session. -/
theorem Session.Visits.breaksIn {v : Visit} {P P' : Pending} {e : RuntimeError}
    (h : s.Visits fuel mode source v P') (steady : s.Steady (WalkedIn history) P)
    (raises : v.Raises e) :
    ∃ origin ∈ (mode, source) :: history, s.BreaksIn fuel mode source e origin := by
  obtain ⟨v', walks, raises, node, about, kept⟩ := raises.exists_names
  obtain ⟨pending, visits⟩ := h.walks walks
  obtain ⟨spot, after, ⟨origin, among, root, isRoot, walks⟩, resolves, -⟩ :=
    (visits.admitted steady).matchesScopes about
  rw [resolves.words] at kept
  obtain ⟨inside, noEnd⟩ := isRoot.isFrom (kept_of_walks walks kept)
  rw [← resolves.words] at kept
  exact ⟨origin, among, ⟨v', pending, node, root, spot, after, visits, raises, about, kept, isRoot,
    walks, resolves⟩, inside, noEnd⟩

theorem Session.FailsIn.reports {f : Failure} {origin : String}
    (h : s.FailsIn fuel mode source history f origin) :
    ∃ report line, f.report? = some report ∧ report.line = some line ∧ HasLine origin line := by
  cases h with
  | static about =>
      cases about with
      | lexical line => exact ⟨_, _, rfl, rfl, line⟩
      | grammar token | scope token => exact ⟨_, _, rfl, rfl, token.hasLine⟩
  | run _ breaks => exact ⟨_, _, rfl, rfl, breaks.token.hasLine⟩

/-- Every failure of a step but the lack of fuel is found in a source. -/
theorem Session.step_failsIn {f : Failure} (reached : Reached readings history s)
    (resolved : mode.IsResolved) (failed : (s.step fuel mode source).1.result = .error f) :
    f = .run .outOfFuel ∨ ∃ origin, s.FailsIn fuel mode source history f origin := by
  obtain ⟨P, steady⟩ := reached.steady
  obtain about | ⟨stop, rfl, stopped⟩ := step_error resolved failed
  · exact .inr ⟨source, .static about⟩
  cases stop with
  | outOfFuel => exact .inl rfl
  | fault fault => exact absurd failed ((step_steady steady resolved).1 fault)
  | error e =>
      obtain ⟨v, P', visits, raises⟩ := stopped e rfl
      obtain ⟨origin, among, breaks⟩ := visits.breaksIn steady raises
      exact .inr ⟨origin.2, .run among breaks⟩

/-- In a session whose trees all went through the scope rules every failure of a step but the
lack of fuel is reported, with a line of the source in which it is found: the source of the
step itself, or that of an earlier step if a rule is broken in code from there. It is found
at a token of this source, the end token only if the grammar is violated, or on the line on
which the source cannot be scanned. -/
theorem errors_point_into_sources {f : Failure} (reached : Reached readings history s)
    (resolved : mode.IsResolved) (failed : (s.step fuel mode source).1.result = .error f) :
    f = .run .outOfFuel ∨ ∃ origin report line, s.FailsIn fuel mode source history f origin ∧
      f.report? = some report ∧ report.line = some line ∧ HasLine origin line := by
  obtain short | ⟨origin, fails⟩ := Session.step_failsIn reached resolved failed
  · exact .inl short
  · obtain ⟨report, line, told, onLine, inside⟩ := fails.reports
    exact .inr ⟨origin, report, line, fails, told, onLine, inside⟩

/-- A function that is called in a second step breaks a rule on the third line of the first
one. -/
theorem errors_point_into_sources_called :
    let first := "\n\nfun f() \x7bnil();\x7d"
    let s := ((Session.initial fun _ => 0).step 20 (.run 1) first).2
    let f : Failure := .run (.error ⟨.notCallable "nil", ⟨.rightParen, ")", .nil, 3⟩⟩)
    Reached (fun _ => 0) [(.run 1, first)] s ∧ Mode.IsResolved (.run 1) ∧
      (s.step 20 (.run 1) "f();").1.result = .error f ∧
      ∃ report, s.FailsIn 20 (.run 1) "f();" [(.run 1, first)] f first ∧
        f.report? = some report ∧ report.line = some 3 ∧ HasLine first 3 := by
  intro first s f
  have resolved : Mode.IsResolved (.run 1) := trivial
  have reached : Reached (fun _ => 0) [(.run 1, first)] s := .step .initial resolved
  have stops : ((((Session.initial fun _ => 0).step 20 (.run 1)
      "\n\nfun f() \x7bnil();\x7d").2.step 20 (.run 1) "f();").1.result.map fun _ => ()) =
      .error (.run (.error ⟨.notCallable "nil", ⟨.rightParen, ")", .nil, 3⟩⟩)) := by
    decide +kernel
  have failed : (s.step 20 (.run 1) "f();").1.result = .error f := by
    change (s.step 20 (.run 1) "f();").1.result.map (fun _ => ()) = .error f at stops
    generalize (s.step 20 (.run 1) "f();").1.result = answer at stops ⊢
    cases answer with
    | ok => cases stops
    | error => exact congrArg _ (Except.error.inj stops)
  obtain short | ⟨origin, report, line, fails, told, onLine, inside⟩ :=
    errors_point_into_sources reached resolved failed
  · change Failure.run (.error _) = _ at short
    cases short
  have third : line = 3 := by
    cases told
    exact (Option.some.inj onLine).symm
  subst third
  have here : origin = first := by
    change s.FailsIn _ _ _ _ (.run (.error _)) _ at fails
    cases fails with
    | static about => cases about
    | run among =>
        obtain rfl | among := List.mem_cons.1 among
        · exact absurd inside.2 (by decide)
        · rw [List.mem_singleton.1 among]
  exact ⟨reached, resolved, failed, report, here ▸ fails, told, onLine, here ▸ inside⟩

end TreeWalk
