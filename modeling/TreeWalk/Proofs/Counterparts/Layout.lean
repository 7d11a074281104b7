import TreeWalk.Proofs.Counterparts.Sessions

/-!
# The layout of a source is immaterial

Blanks, comments and line breaks between the tokens of a source decide on which lines its
tokens stand, and on nothing else.

## Implementation notes

The counterparts are the tokens at the same index of the two rows, so errors that are
alike are found at the same index.
-/

namespace TreeWalk

/-- The tokens at the same index of two rows of the same words are counterparts. -/
def Correspondence.ofRows (tokens tokens' : List Token)
    (same : List.Forall₂ Token.SameWord tokens tokens') : Correspondence where
  relates t u := ∃ i : Nat, tokens[i]? = some t ∧ tokens'[i]? = some u
  sameWord := by
    rintro t u ⟨i, here, there⟩
    have both := getElem?_rel same i
    rw [here, there] at both
    cases both with
    | some same => exact same

theorem Correspondence.ofRows_rows {tokens tokens' : List Token}
    (same : List.Forall₂ Token.SameWord tokens tokens') :
    List.Forall₂ (Correspondence.ofRows tokens tokens' same).relates tokens tokens' := by
  refine List.forall₂_iff_get.2 ⟨same.length_eq, fun i inside inside' => ⟨i, ?_, ?_⟩⟩
  · exact List.getElem?_eq_getElem inside
  · exact List.getElem?_eq_getElem inside'

/-- Two failures are alike and told alike. -/
def Failure.ToldLike (R : Correspondence) (e e' : Failure) : Prop :=
  e.Like R e' ∧ Option.Rel (Report.Like R) e.report? e'.report?

/-- Two machines on which nothing was run are alike. -/
theorem Machine.initial_like (R : Correspondence) (readings : Nat → Float) :
    Machine.Like R "" "" (.initial readings) (.initial readings) :=
  ⟨rfl, .nil, rfl, rfl, rfl, ⟨"", rfl, rfl⟩, rfl, rfl⟩

/-- On machines that are alike, steps with sources whose tokens are counterparts have
answers that are alike and leave machines that are. -/
theorem Session.step_rel {R : Correspondence} {source source' : String}
    {tokens tokens' : List Token} (scanned : (scanSource source).result = .ok tokens)
    (scanned' : (scanSource source').result = .ok tokens')
    (rows : List.Forall₂ R.relates tokens tokens') (s s' : Session)
    (h : Machine.Like R "" "" s.silent.machine s'.silent.machine) (fuel times : Nat) :
    Except.Rel (Failure.Like R) Eq (s.step fuel (.run times) source).1.result
        (s'.step fuel (.run times) source').1.result ∧
      Machine.Like R "" "" (s.step fuel (.run times) source).2.machine
        (s'.step fuel (.run times) source').2.machine := by
  have prepared := prepareSource_rel scanned scanned' rows
  simp only [step]
  generalize prepareSource source = one, prepareSource source' = other at prepared
  obtain ⟨notes, result⟩ := one
  obtain ⟨notes', result'⟩ := other
  cases prepared with
  | error same => exact ⟨.error same, h⟩
  | @ok pair pair' same =>
    obtain ⟨program, uses⟩ := pair
    obtain ⟨program', uses'⟩ := pair'
    obtain ⟨ran, after⟩ := Session.run_rel (interpretTimes_paired fuel same.1 times)
      (s.silent.addLocated uses) (s'.silent.addLocated uses') h
    exact ⟨ran.map fun _ _ _ => rfl, after⟩

/-- Two sources that are scanned to the same words, on whatever lines, fare alike: both
are programs or none is, and the trees are alike; both obey the scope rules or none does,
and the distances are the same; and run on a new machine, both print the same and leave
the same global variables. Where they fail, they fail in the same stage with the same
message and the same place, at tokens of the same index. -/
theorem layout_is_immaterial {source source' : String} {tokens tokens' : List Token}
    (scanned : (scanSource source).result = .ok tokens)
    (scanned' : (scanSource source').result = .ok tokens')
    (same : List.Forall₂ Token.SameWord tokens tokens') :
    let R := Correspondence.ofRows tokens tokens' same
    Except.Rel (Failure.ToldLike R) (List.Forall₂ (Stmt.Like R)) (parseSource source).result
        (parseSource source').result ∧
      Except.Rel (Failure.ToldLike R) (PreparedLike R) (prepareSource source).result
        (prepareSource source').result ∧
      ∀ readings fuel times,
        let one := (Session.initial readings).step fuel (.run times) source
        let other := (Session.initial readings).step fuel (.run times) source'
        Except.Rel (Failure.ToldLike R) Eq one.1.result other.1.result ∧
          one.2.output = other.2.output ∧ one.2.shownGlobals = other.2.shownGlobals := by
  intro R
  have rows := Correspondence.ofRows_rows same
  have told {α α' : Type} {Q : α → α' → Prop} {x : Except Failure α} {y : Except Failure α'}
      (h : Except.Rel (Failure.Like R) Q x y) : Except.Rel (Failure.ToldLike R) Q x y :=
    h.imp (fun _ _ alike => ⟨alike, alike.report?⟩) fun _ _ => id
  refine ⟨told (parseSource_rel scanned scanned' rows),
    told (prepareSource_rel scanned scanned' rows), fun readings fuel times => ?_⟩
  obtain ⟨answers, after⟩ := Session.step_rel scanned scanned' rows (.initial readings)
    (.initial readings) (Machine.initial_like R readings) fuel times
  refine ⟨told answers, ?_, after.shownGlobals⟩
  obtain ⟨printed, all, all'⟩ := after.output
  rw [Session.output, Session.output, all, all']

namespace SpreadCall

open TokenKind (word)

/-- A call of nil. -/
def source : String := "nil();"

/-- The same call with a comment and a line break in it. -/
def spread : String := "nil( // none\n);"

/-- The tokens of the call. -/
def tokens : List Token :=
  [word .nilWord "nil", word .leftParen "(", word .rightParen ")", word .semicolon ";",
    .endOfText 1]

/-- The tokens of the call on two lines. -/
def spreadTokens : List Token :=
  [word .nilWord "nil", word .leftParen "(", { word .rightParen ")" with line := 2 },
    { word .semicolon ";" with line := 2 }, .endOfText 2]

theorem sameWords : List.Forall₂ Token.SameWord tokens spreadTokens := by
  have same (t : Token) (line : Int) : t.SameWord { t with line := line } := ⟨rfl, rfl, rfl⟩
  exact .cons (same _ 1) (.cons (same _ 1) (.cons (same _ 2) (.cons (same _ 2)
    (.cons ⟨rfl, rfl, rfl⟩ .nil))))

/-- The error of the call is the same wherever the parenthesis stands that closes it. -/
theorem layout_is_immaterial_call :
    (scanSource source).result = .ok tokens ∧ (scanSource spread).result = .ok spreadTokens ∧
      Except.Rel (Failure.ToldLike (.ofRows tokens spreadTokens sameWords)) Eq
        ((Session.initial fun _ => 0).step 8 (.run 1) source).1.result
        ((Session.initial fun _ => 0).step 8 (.run 1) spread).1.result := by
  have scanned : (scanSource source).result = .ok tokens := by decide +kernel
  have scanned' : (scanSource spread).result = .ok spreadTokens := by decide +kernel
  obtain ⟨-, -, runs⟩ := layout_is_immaterial scanned scanned' sameWords
  exact ⟨scanned, scanned', (runs (fun _ => 0) 8 1).1⟩

end SpreadCall

end TreeWalk
