import TreeWalk.Proofs.Counterparts.Courses
import TreeWalk.Proofs.Counterparts.Layout
import TreeWalk.Proofs.Run.Reporting

/-!
# Where a token comes from

Two sources may have a token in common, which then does not tell from which of them it is. If
one of them is moved down far enough its tokens stand on lines on which there is nothing else,
and the session does the same.

## Implementation notes

What is kept on a machine counts like a source: its closures have finitely many tokens.
-/

namespace TreeWalk

/-- A source that is moved down by some lines. -/
def movedDown (lines : Nat) (source : String) : String :=
  String.ofList (List.replicate lines '\n') ++ source

/-- Blank lines before a text are pieces of their own. -/
theorem Divides.movedDown {text rest : List Char} {pieces : List (List Char × Piece)}
    (h : Divides text pieces rest) (lines : Nat) :
    Divides (List.replicate lines '\n' ++ text)
      (List.replicate lines (['\n'], .blank) ++ pieces) rest := by
  induction lines with
  | zero => exact h
  | succ lines ih => exact .piece (isLongest_lineFeed _) ih

theorem tokensBehind_blank (before : List Char) (lines : Nat)
    (pieces : List (List Char × Piece)) :
    tokensBehind before (List.replicate lines (['\n'], .blank) ++ pieces) =
      tokensBehind (before ++ List.replicate lines '\n') pieces := by
  induction lines generalizing before with
  | zero => simp
  | succ lines ih =>
      rw [List.replicate_succ, List.cons_append, tokensBehind, ih, List.replicate_succ,
        List.append_assoc]
      · rfl
      · intro kind literal same
        cases same

/-- A source that is moved down is scanned to the same tokens on later lines. -/
theorem scanSource_movedDown {source : String} {tokens : List Token}
    (scanned : (scanSource source).result = .ok tokens) (lines : Nat) :
    (scanSource (movedDown lines source)).result = .ok (tokens.map (·.later lines)) := by
  obtain ⟨pieces, division, rfl⟩ := scanSource_eq_ok_iff.1 scanned
  refine scanSource_eq_ok_iff.2 ⟨_, by simpa [movedDown] using division.movedDown lines, ?_⟩
  have later := tokensBehind_later (List.replicate lines '\n') [] pieces
  rw [List.count_replicate_self, List.append_nil] at later
  rw [tokensBehind_blank, List.nil_append, later]

theorem exists_line_above (words : List Word) :
    ∃ line : Nat, ∀ t : Token, .kept t ∈ words → t.line ≤ line := by
  induction words with
  | nil => exact ⟨0, fun t among => absurd among List.not_mem_nil⟩
  | cons word words ih =>
      obtain ⟨line, above⟩ := ih
      cases word with
      | kept u =>
          refine ⟨max line u.line.toNat, fun t among => ?_⟩
          obtain same | among := List.mem_cons.1 among
          · cases same
            omega
          · have := above t among
            omega
      | mark | constant =>
          refine ⟨line, fun t among => above t ?_⟩
          simpa using among

/-- Below a line there stand no tokens of a source, and none that closures on a machine keep. -/
def Machine.FreeBelow (m : Machine) (tokens : List Token) (line : Nat) : Prop :=
  ∀ t : Token, t ∈ tokens ∨ m.Keeps t → t.line ≤ line

theorem Machine.exists_freeBelow (m : Machine) (tokens : List Token) :
    ∃ line, m.FreeBelow tokens line := by
  obtain ⟨line, above⟩ := exists_line_above (tokens.map .kept)
  obtain ⟨line', above'⟩ := exists_line_above (m.heap.closures.toList.flatMap Closure.words)
  refine ⟨max line line', fun t stands => ?_⟩
  obtain among | ⟨c, among, kept⟩ := stands
  · have := above t (List.mem_map_of_mem among)
    omega
  · have := above' t (List.mem_flatMap.2 ⟨c, among, kept⟩)
    omega

theorem Token.later_zero (t : Token) : t.later 0 = t := by
  simp [later]

theorem Token.later_inj {t u : Token} {lines : Nat} (same : t.later lines = u.later lines) :
    t = u := by
  obtain ⟨kind, lexeme, literal, line⟩ := t
  obtain ⟨kind', lexeme', literal', line'⟩ := u
  simpa [later] using same

/-- The tokens of a source have moved down, by so many lines on the one side and so many on the
other. Those of another source, and those that closures on a machine keep, are their own. -/
def Correspondence.moved (m : Machine) (others tokens : List Token) (lines lines' : Nat) :
    Correspondence where
  relates t u := (∃ o ∈ tokens, t = o.later lines ∧ u = o.later lines') ∨
    (t ∈ others ∨ m.Keeps t) ∧ u = t
  sameWord := by
    rintro t u (⟨o, -, rfl, rfl⟩ | ⟨-, rfl⟩) <;> exact ⟨rfl, rfl, rfl⟩

/-- What ends like a broken rule is one, at a token that is the counterpart. -/
theorem Stop.Like.of_error {R : Correspondence} {e : RuntimeError} {stop : Stop}
    (h : Stop.Like R (.error e) stop) :
    ∃ u, stop = .error ⟨e.cause, u⟩ ∧ R.relates e.token u := by
  cases h with
  | error same => exact ⟨_, rfl, same⟩

section

variable {m : Machine} {others tokens : List Token} {line lines : Nat}
  (free : m.FreeBelow others line) (proper : ∀ t ∈ tokens, 1 ≤ t.line)

include free proper

/-- Where the tokens stand below all others it is told from the line whether one is moved. -/
theorem Correspondence.moved_cases {t u w : Token}
    (first : (Correspondence.moved m others tokens 0 line).relates t u)
    (second : (Correspondence.moved m others tokens line lines).relates u w) :
    (t ∈ tokens ∧ line < u.line ∧ u = t.later line ∧ w = t.later lines) ∨
      t.line ≤ line ∧ u = t ∧ w = t := by
  have apart {t : Token} (among : t ∈ tokens) : line < (t.later line).line := by
    have := proper t among
    simp only [Token.later]
    omega
  obtain ⟨o, among, whole, moved⟩ | ⟨stands, same⟩ := first
  · rw [Token.later_zero] at whole
    subst whole
    obtain ⟨o, -, moved', last⟩ | ⟨stands, -⟩ := second
    · rw [moved] at moved'
      rw [← Token.later_inj moved'] at last
      exact .inl ⟨among, moved ▸ apart among, moved, last⟩
    · rw [moved] at stands
      exact absurd (free _ stands) (Int.not_le.2 (apart among))
  · subst same
    obtain ⟨o, among, moved, -⟩ | ⟨-, last⟩ := second
    · rw [moved] at stands
      exact absurd (free _ stands) (Int.not_le.2 (apart among))
    · exact .inr ⟨free _ stands, rfl, last⟩

/-- How three runs end in which the tokens of a source stand in different places, in the second
one below all others: they give the same, or they break the same rule at the same token of the
source, or they stop for the same reason at a token that is not below the others, if at any. -/
inductive EndAlike (tokens : List Token) (line lines : Nat) :
    Except Failure (Option Value) → Except Failure (Option Value) →
      Except Failure (Option Value) → Prop
  | given {v} : EndAlike tokens line lines (.ok v) (.ok v) (.ok v)
  | inside {cause t} : t ∈ tokens → line < (t.later line).line →
      EndAlike tokens line lines (.error (.run (.error ⟨cause, t⟩)))
        (.error (.run (.error ⟨cause, t.later line⟩)))
        (.error (.run (.error ⟨cause, t.later lines⟩)))
  | outside {stop} : (∀ e : RuntimeError, stop = .error e → e.token.line ≤ line) →
      EndAlike tokens line lines (.error (.run stop)) (.error (.run stop)) (.error (.run stop))

theorem EndAlike.of_stops {stop stop' stop'' : Stop}
    (first : stop.Like (.moved m others tokens 0 line) stop')
    (second : stop'.Like (.moved m others tokens line lines) stop'') :
    EndAlike tokens line lines (.error (.run stop)) (.error (.run stop'))
      (.error (.run stop'')) := by
  cases first with
  | fault | outOfFuel =>
      cases second
      exact .outside fun _ same => nomatch same
  | error same =>
      obtain ⟨w, rfl, same'⟩ := second.of_error
      obtain ⟨among, below, rfl, rfl⟩ | ⟨above, rfl, rfl⟩ :=
        Correspondence.moved_cases free proper same same'
      · exact .inside among below
      · refine .outside fun e same => ?_
        cases same
        exact above

/-- Runs end alike if each of the first two ends like the next one. -/
theorem EndAlike.of_moved {one two three : Except Failure (Option Value)}
    (first : Except.Rel (Failure.Like (.moved m others tokens 0 line)) Eq one two)
    (second : Except.Rel (Failure.Like (.moved m others tokens line lines)) Eq two three)
    (runs : ∀ e, three = .error e → ∃ stop, e = .run stop) :
    EndAlike tokens line lines one two three := by
  cases first with
  | ok same =>
      subst same
      cases second with
      | ok same => exact same ▸ .given
  | error alike =>
      cases second with
      | error alike' =>
          obtain ⟨stop, rfl⟩ := runs _ rfl
          cases alike' with
          | run alike' =>
              cases alike with
              | run alike => exact .of_stops free proper alike alike'

end

end TreeWalk
