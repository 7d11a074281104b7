import TreeWalk.Proofs.Lexis.Joining

/-!
# Reading token by token

A scanner hands out one token at a time and goes on behind a fault. What it gives next
depends on the rest of its text alone: it is what a new scanner of the rest gives, so many
characters and lines further on. Reading token by token from the beginning comes to what
reading the whole text comes to.

## Implementation notes

At the end of its text a cursor stays where it is, also with the beginning of the last
piece, which a new cursor has at the front. That is why the beginning of the last piece is
compared only before the end.
-/

namespace TreeWalk

/-- What a call gives, some lines later. -/
def answerLater (lines : Nat) : Except LexicalError Token → Except LexicalError Token
  | .ok t => .ok (t.later lines)
  | .error e => .error { e with line := e.line + lines }

namespace Cursor

variable {chars lines : Nat} {place other : Cursor}

/-- A cursor has the same rest before it as another one, so many characters and lines
further on. -/
structure Further (chars lines : Nat) (place other : Cursor) : Prop where
  rest : other.rest = place.rest
  current : other.current = place.current + chars
  line : other.line = place.line + lines

theorem Further.past (h : Further chars lines place other) (cut : Cut) :
    Further chars lines (place.past cut) (other.past cut) where
  rest := rfl
  current := by simp only [Cursor.past, h.current]; omega
  line := by simp only [Cursor.past, h.line]; omega

/-- The same piece is the same token or fault on a later line. -/
theorem classify_later (cut : Cut) (line lines : Nat) :
    classify cut (line + lines) =
      match classify cut line with
      | .ok token => .ok (token.map (·.later lines))
      | .error e => .error { e with line := e.line + lines } := by
  unfold classify
  cases cut.piece <;> rfl

/-- Two cursors that have the same rest before them give the same next and move by the same
number of characters and lines. -/
theorem Further.next (h : Further chars lines place other) :
    other.next.1 = answerLater lines place.next.1 ∧
      Further chars lines place.next.2 other.next.2 ∧
      (place.rest ≠ [] → other.next.2.start = place.next.2.start + chars) := by
  fun_induction Cursor.next place generalizing other
  case case1 place atEnd =>
    rw [next_nil (h.rest.trans atEnd), h.line]
    exact ⟨rfl, h, fun more => absurd atEnd more⟩
  case case2 place c cs cutOff cut after isBlank ih =>
    have later := classify_later cut after.line lines
    rw [isBlank, ← (h.past cut).line] at later
    rw [next_cons (h.rest.trans cutOff), later]
    obtain ⟨answer, further, start⟩ := ih (h.past cut)
    refine ⟨answer, further, fun _ => ?_⟩
    by_cases last : after.rest = []
    · have last' : (other.past cut).rest = [] := last
      show (other.past cut).next.2.start = _
      rw [next_nil last, next_nil last']
      exact h.current
    · exact start last
  case case3 place c cs cutOff cut after token isToken =>
    have later := classify_later cut after.line lines
    rw [isToken, ← (h.past cut).line] at later
    rw [next_cons (h.rest.trans cutOff), later]
    exact ⟨rfl, h.past cut, fun _ => h.current⟩
  case case4 place c cs cutOff cut after e isFault =>
    have later := classify_later cut after.line lines
    rw [isFault, ← (h.past cut).line] at later
    rw [next_cons (h.rest.trans cutOff), later]
    exact ⟨rfl, h.past cut, fun _ => h.current⟩

/-- A cursor stands in a text: the rest is what lies behind as many characters as it has
passed, and its line is the one at the end of these. -/
structure StandsIn (text : List Char) (place : Cursor) : Prop where
  rest : place.rest = text.drop place.current
  inside : place.current ≤ text.length
  line : place.line = lineBehind (text.take place.current)

variable {text : List Char}

theorem ofText_standsIn (text : List Char) : (ofText text).StandsIn text :=
  ⟨rfl, Nat.zero_le _, rfl⟩

theorem StandsIn.past {c : Char} {cs : List Char} (h : place.StandsIn text)
    (cutOff : place.rest = c :: cs) : (place.past (Cut.first c cs)).StandsIn text := by
  let cut := Cut.first c cs
  have whole : cut.text ++ cut.rest = text.drop place.current := by
    rw [← h.rest, cutOff]
    exact Cut.first_append c cs
  have length := congrArg List.length whole
  rw [List.length_append, List.length_drop] at length
  have inside := h.inside
  have taken : text.take (place.current + cut.text.length) =
      text.take place.current ++ cut.text := by
    rw [List.take_add, ← whole, List.take_left]
  refine ⟨?_, ?_, ?_⟩
  · show cut.rest = text.drop (place.current + cut.text.length)
    rw [← List.drop_drop, ← whole, List.drop_left]
  · show place.current + cut.text.length ≤ text.length
    omega
  · show place.line + cut.text.count '\n' = lineBehind (text.take (place.current + cut.text.length))
    rw [taken, lineBehind_append, h.line]

theorem StandsIn.next (h : place.StandsIn text) : place.next.2.StandsIn text := by
  fun_induction Cursor.next place with
  | case1 => exact h
  | case2 place c cs cutOff cut after _ ih => exact ih (h.past cutOff)
  | case3 place c cs cutOff => exact h.past cutOff
  | case4 place c cs cutOff => exact h.past cutOff

theorem StandsIn.rest_eq_nil_iff (h : place.StandsIn text) :
    place.rest = [] ↔ place.current = text.length := by
  rw [h.rest, List.drop_eq_nil_iff]
  exact ⟨Nat.le_antisymm h.inside, Nat.le_of_eq ∘ Eq.symm⟩

theorem StandsIn.length_rest (h : place.StandsIn text) :
    place.rest.length = text.length - place.current := by
  rw [h.rest, List.length_drop]

/-- Before the end of its text a cursor moves forward and not past the end. -/
theorem StandsIn.advances (h : place.StandsIn text) (before : place.current < text.length) :
    place.current < place.next.2.current ∧ place.next.2.current ≤ text.length := by
  have more : place.rest ≠ [] := fun none => Nat.ne_of_lt before (h.rest_eq_nil_iff.1 none)
  have shorter := next_length_lt more
  rw [h.length_rest, h.next.length_rest] at shorter
  exact ⟨by omega, h.next.inside⟩

theorem all_of_fault {e : LexicalError} (given : place.next.1 = .error e) :
    place.all.1 = .error e := by
  rw [all.eq_def]
  split <;> simp_all

theorem all_of_end {token : Token} (given : place.next.1 = .ok token)
    (isEnd : token.kind = .endOfText) : place.all.1 = .ok [token] := by
  rw [all.eq_def]
  split <;> simp_all

/-- Reading on behind a token adds the token. -/
theorem all_of_token {token : Token} (given : place.next.1 = .ok token)
    (goesOn : token.kind ≠ .endOfText) : place.all.1 = place.next.2.all.1.map (token :: ·) := by
  rw [all.eq_def]
  split <;> simp_all

end Cursor

namespace Scanner

/-- What is given at the end of a text. -/
def IsEnd (answer : Except LexicalError Token) : Prop := ∃ t, answer = .ok t ∧ t.kind = .endOfText

/-- The scanner after some calls for the next token, whatever these gave. -/
def afterCalls (s : Scanner) : Nat → Scanner
  | 0 => s
  | calls + 1 => s.next.2.afterCalls calls

/-- What some calls for the next token give, faults among them. -/
def answers (s : Scanner) : Nat → List (Except LexicalError Token)
  | 0 => []
  | calls + 1 => s.next.1 :: s.next.2.answers calls

variable {s : Scanner} {calls : Nat}

/-- The cursor stands in the text of its scanner. -/
def Stands (s : Scanner) : Prop := s.cursor.StandsIn s.text

theorem ofString_stands (source : String) : (ofString source).Stands := Cursor.ofText_standsIn _

theorem Stands.afterCalls (h : s.Stands) : (s.afterCalls calls).Stands := by
  induction calls generalizing s with
  | zero => exact h
  | succ calls ih => exact ih (s := s.next.2) h.next

theorem text_afterCalls (s : Scanner) (calls : Nat) : (s.afterCalls calls).text = s.text := by
  induction calls generalizing s with
  | zero => rfl
  | succ calls ih => exact ih s.next.2

/-- At the end of its text a scanner gives the end token and stays as it is. -/
theorem next_of_rest_nil (atEnd : s.cursor.rest = []) :
    s.next = (.ok (.endOfText s.cursor.line), s) := by
  rw [next, Cursor.next_nil atEnd]

theorem isEnd_of_rest_nil (atEnd : s.cursor.rest = []) : IsEnd s.next.1 := by
  rw [next_of_rest_nil atEnd]
  exact ⟨_, rfl, rfl⟩

/-- The end is come to with at most one call for each character that is left, and one. -/
theorem exists_end (s : Scanner) : ∃ calls ≤ s.cursor.rest.length,
    IsEnd (s.afterCalls calls).next.1 ∧
      ∀ earlier < calls, ¬IsEnd (s.afterCalls earlier).next.1 := by
  induction left : s.cursor.rest.length using Nat.strong_induction_on generalizing s with
  | _ left' ih =>
      by_cases isEnd : IsEnd s.next.1
      · exact ⟨0, Nat.zero_le _, isEnd, nofun⟩
      · have more : s.cursor.rest ≠ [] := fun none => isEnd (isEnd_of_rest_nil none)
        have shorter : s.next.2.cursor.rest.length < s.cursor.rest.length :=
          Cursor.next_length_lt more
        obtain ⟨calls, few, atEnd, before⟩ := ih _ (left ▸ shorter) s.next.2 rfl
        refine ⟨calls + 1, by omega, atEnd, fun earlier fewer => ?_⟩
        cases earlier with
        | zero => exact isEnd
        | succ earlier => exact before earlier (Nat.lt_of_succ_lt_succ fewer)

/-- Reading all tokens comes to what single calls give up to the end: their tokens, or the
first fault among them. -/
theorem all_eq_answers (atEnd : IsEnd (s.afterCalls calls).next.1)
    (before : ∀ earlier < calls, ¬IsEnd (s.afterCalls earlier).next.1) :
    s.cursor.all.1 = (s.answers (calls + 1)).mapM id := by
  induction calls generalizing s with
  | zero =>
      obtain ⟨t, given, isEnd⟩ := atEnd
      have given : s.next.1 = .ok t := given
      rw [Cursor.all_of_end given isEnd, answers, given]
      rfl
  | succ calls ih =>
      have rest := ih (s := s.next.2) atEnd fun earlier fewer =>
        before (earlier + 1) (Nat.succ_lt_succ fewer)
      rw [answers, List.mapM_cons]
      cases given : s.next.1 with
      | error e =>
          rw [Cursor.all_of_fault given]
          rfl
      | ok t =>
          have goesOn : t.kind ≠ .endOfText := fun isEnd =>
            before 0 (Nat.succ_pos calls) ⟨t, given, isEnd⟩
          have whole : s.cursor.all.1 = s.next.2.cursor.all.1.map (t :: ·) :=
            Cursor.all_of_token given goesOn
          rw [whole, rest]
          cases (s.next.2.answers (calls + 1)).mapM id <;> rfl

/-- Reading on after any calls, faults among them, is starting over on the rest of the
text, so many characters and lines further on. The line is the one behind the passed
characters, each call before the end moves forward, the end is come to and stays, and
reading the whole text comes to what the calls give from the beginning. -/
theorem reading_on_is_starting_over (source : String) (calls : Nat) :
    let s := (ofString source).afterCalls calls
    let fresh := ofString (String.ofList (source.toList.drop s.cursor.current))
    (s.next.1 = answerLater (s.cursor.line - 1) fresh.next.1 ∧
        s.next.2.cursor.current = fresh.next.2.cursor.current + s.cursor.current ∧
        s.next.2.cursor.line = fresh.next.2.cursor.line + (s.cursor.line - 1)) ∧
      s.cursor.line = 1 + (source.toList.take s.cursor.current).count '\n' ∧
      s.cursor.current ≤ source.length ∧
      (s.cursor.current < source.length →
        s.cursor.current < s.next.2.cursor.current ∧
          s.next.2.cursor.current ≤ source.length) ∧
      (s.cursor.current = source.length → s.next = (.ok (.endOfText s.cursor.line), s)) ∧
      ∃ last ≤ source.length,
        IsEnd ((ofString source).afterCalls last).next.1 ∧
          (∀ earlier < last, ¬IsEnd ((ofString source).afterCalls earlier).next.1) ∧
          s.all.1 = ((ofString source).answers (last + 1)).mapM id := by
  intro s fresh
  have text : s.text = source.toList := text_afterCalls _ _
  have stands : s.cursor.StandsIn source.toList := text ▸ (ofString_stands source).afterCalls
  have length : source.length = source.toList.length := String.length_toList.symm
  have line := stands.line
  have further : Cursor.Further s.cursor.current (s.cursor.line - 1) fresh.cursor s.cursor :=
    { rest := by simp [fresh, ofString, Cursor.ofText, stands.rest]
      current := (Nat.zero_add _).symm
      line := by
        show s.cursor.line = 1 + (s.cursor.line - 1)
        rw [line, lineBehind]
        omega }
  obtain ⟨answer, after, -⟩ := further.next
  obtain ⟨last, few, atEnd, before⟩ := exists_end (ofString source)
  have whole : s.all.1 = (ofString source).cursor.all.1 := by
    show (Cursor.ofText s.text).all.1 = _
    rw [text]
    rfl
  refine ⟨⟨answer, after.current, after.line⟩, line, length ▸ stands.inside, ?_, ?_, last, ?_,
    atEnd, before, whole.trans (all_eq_answers atEnd before)⟩
  · rw [length]
    exact stands.advances
  · rw [length, ← stands.rest_eq_nil_iff]
    exact next_of_rest_nil
  · rw [length]
    exact few

end Scanner

end TreeWalk
