import TreeWalk.Proofs.Lexis.Scanning
import TreeWalk.Session

/-!
# Scanning two texts as one

Two texts with a line feed between them are scanned to the tokens of the first and then
those of the second, which stand as many lines later as the first text has.

## Implementation notes

Only a blank and a string can hold a line feed. So no piece reaches across the one
between the texts: a string that could is one already in the first text.
-/

namespace TreeWalk

/-- A piece that begins with a quote ends with the next one. -/
theorem IsPiece.of_quote {cs : List Char} {piece : Piece} (h : IsPiece ('"' :: cs) piece) :
    ∃ content, '"' ∉ content ∧ cs = content ++ ['"'] := by
  have sound := h.not_isFault
  obtain ⟨_, _, ⟨⟩, cut⟩ := h.cutsWhole.whole
  rw [Cut.first_quote, Cut.afterQuote] at cut
  split at cut
  next =>
    obtain ⟨rfl, -, -⟩ := Cut.mk.inj cut
    exact absurd trivial sound
  next quote rest found =>
    have isQuote := List.head?_dropWhile_not (· != '"') cs
    obtain rfl : quote = '"' := by simpa [found] using isQuote
    obtain ⟨-, text, -⟩ := Cut.mk.inj cut
    refine ⟨_, fun among => ?_, (List.cons.inj text).2.symm⟩
    simpa using List.mem_takeWhile_imp among

/-- Of two pieces that begin with a quote neither goes on where the other ends. -/
theorem IsPiece.length_le_of_quote {cs cs' : List Char} {piece piece' : Piece}
    (h : IsPiece ('"' :: cs) piece) (h' : IsPiece ('"' :: cs') piece')
    (begins : cs' <+: cs) : cs.length ≤ cs'.length := by
  obtain ⟨content, inside, rfl⟩ := h.of_quote
  obtain ⟨content', -, rfl⟩ := h'.of_quote
  obtain ⟨tail, whole⟩ := begins
  rw [List.append_assoc] at whole
  obtain ⟨rest, rfl, ends⟩ | ⟨rest, rfl, -⟩ := List.append_eq_append_iff.1 whole
  · cases rest with
    | nil => simp
    | cons c rest =>
      obtain ⟨rfl, -⟩ := List.cons.inj ends
      exact absurd (by simp) inside
  · simp

/-- A piece that holds a line feed is a blank or a string. -/
theorem IsPiece.of_lineFeed {text : List Char} {piece : Piece} (h : IsPiece text piece)
    (inside : '\n' ∈ text) : text = ['\n'] ∨ ∃ cs, text = '"' :: cs := by
  have noDigit : ¬ IsDigit '\n' := by
    unfold IsDigit
    decide
  have noName : ¬ BeginsName '\n' := by
    unfold BeginsName
    decide
  have marks : ∀ entry ∈ markTexts, '\n' ∉ entry.1 := by decide
  have words : ∀ entry ∈ TokenKind.keywords, '\n' ∉ entry.1.toList := by decide
  cases h with
  | blank => exact .inl (congrArg (fun c => [c]) (List.mem_singleton.1 inside).symm)
  | comment outside => simp [outside] at inside
  | mark listed => exact absurd inside (marks _ listed)
  | string => exact .inr ⟨_, rfl⟩
  | whole _ digits => exact absurd (digits _ inside) noDigit
  | decimal _ _ digits =>
    refine absurd (digits '\n' ?_) noDigit
    simpa using inside
  | keyword listed => exact absurd inside (by simpa using words _ listed)
  | name begins others _ =>
    obtain same | among := List.mem_cons.1 inside
    · exact absurd (same ▸ begins) noName
    · exact ((others _ among).elim noName noDigit).elim

/-- What begins a text that goes on behind a line feed begins it already, or holds the
line feed and all before it. -/
theorem prefix_or_lineFeed {text whole more : List Char} (begins : text <+: whole ++ '\n' :: more) :
    text <+: whole ∨ '\n' ∈ text ∧ whole <+: text := by
  obtain short | ⟨tail, rfl⟩ :=
    List.prefix_or_prefix_of_prefix begins (List.prefix_append whole ('\n' :: more))
  · exact .inl short
  · cases tail with
    | nil => exact .inl (by simp)
    | cons c tail =>
      obtain ⟨rest, same⟩ := (List.prefix_append_right_inj whole).1 begins
      obtain ⟨rfl, -⟩ := List.cons.inj same
      exact .inr ⟨by simp, List.prefix_append _ _⟩

/-- The longest piece stays the longest when the text goes on behind a line feed. -/
theorem Cut.IsLongest.extend {cut : Cut} (h : cut.IsLongest) (more : List Char) :
    Cut.IsLongest { cut with rest := cut.rest ++ '\n' :: more } where
  isPiece := h.isPiece
  longest {text piece} isPiece begins := by
    have begins : text <+: cut.text ++ cut.rest ++ '\n' :: more := by
      rwa [List.append_assoc]
    obtain short | ⟨inside, across⟩ := prefix_or_lineFeed begins
    · exact h.longest isPiece short
    · obtain ⟨c, cs, own, -⟩ := h.isPiece.cutsWhole.whole
      obtain rfl | ⟨cs', rfl⟩ := isPiece.of_lineFeed inside
      · simp [own]
      · rw [own, List.cons_append, List.cons_prefix_cons] at across
        obtain ⟨rfl, across⟩ := across
        have le := isPiece.length_le_of_quote (own ▸ h.isPiece)
          ((List.prefix_append _ _).trans across)
        simpa [own] using le

theorem isLongest_lineFeed (rest : List Char) : Cut.IsLongest ⟨.blank, ['\n'], rest⟩ :=
  Cut.first_blank (c := '\n') (by decide) rest ▸ Cut.first_isLongest (by
    rw [Cut.first_blank (by decide)]
    exact id)

/-- Two texts with a line feed between them are divided as each of them is. -/
theorem Divides.join {text text' : List Char} {pieces pieces' : List (List Char × Piece)}
    (h : Divides text pieces []) (h' : Divides text' pieces' []) :
    Divides (text ++ '\n' :: text') (pieces ++ (['\n'], .blank) :: pieces') [] := by
  generalize atEnd : ([] : List Char) = rest at h
  induction h with
  | stop =>
    subst atEnd
    exact .piece (isLongest_lineFeed text') h'
  | @piece cut pieces rest longest _ ih =>
    have step := Divides.piece (longest.extend text') (ih atEnd)
    rwa [← List.append_assoc] at step

/-- A token that stands some lines later. -/
def Token.later (t : Token) (lines : Nat) : Token := { t with line := t.line + lines }

theorem tokensBehind_ne_nil (before : List Char) (pieces : List (List Char × Piece)) :
    tokensBehind before pieces ≠ [] := by
  induction pieces generalizing before with
  | nil => exact List.cons_ne_nil _ _
  | cons piece pieces ih =>
    obtain ⟨text, piece⟩ := piece
    cases piece with
    | word => exact List.cons_ne_nil _ _
    | blank | unexpected | unterminated => exact ih _

theorem tokensBehind_append (before : List Char) (pieces pieces' : List (List Char × Piece)) :
    tokensBehind before (pieces ++ pieces') =
      (tokensBehind before pieces).dropLast ++
        tokensBehind (before ++ pieces.flatMap Prod.fst) pieces' := by
  induction pieces generalizing before with
  | nil => simp [tokensBehind]
  | cons piece pieces ih =>
    obtain ⟨text, piece⟩ := piece
    rw [List.cons_append, List.flatMap_cons, ← List.append_assoc]
    cases piece with
    | word kind literal =>
      rw [tokensBehind, tokensBehind, ih, List.dropLast_cons_of_ne_nil (tokensBehind_ne_nil _ _)]
      rfl
    | blank | unexpected | unterminated => exact ih _

theorem lineBehind_later (before before' : List Char) :
    (lineBehind (before ++ before') : Int) = lineBehind before' + before.count '\n' := by
  simp only [lineBehind, List.count_append]
  push_cast
  omega

/-- The tokens behind a longer text stand later. -/
theorem tokensBehind_later (before before' : List Char) (pieces : List (List Char × Piece)) :
    tokensBehind (before ++ before') pieces =
      (tokensBehind before' pieces).map (·.later (before.count '\n')) := by
  induction pieces generalizing before' with
  | nil => simp [tokensBehind, Token.later, Token.endOfText, lineBehind_later]
  | cons piece pieces ih =>
    obtain ⟨text, piece⟩ := piece
    have rest := ih (before' ++ text)
    rw [← List.append_assoc] at rest
    cases piece with
    | word kind literal =>
      rw [tokensBehind, tokensBehind, rest, List.map_cons, Token.later, List.append_assoc,
        lineBehind_later]
    | blank | unexpected | unterminated => exact rest

/-- The tokens of a divided text are words up to the end token. -/
theorem Divides.closed {text rest : List Char} {pieces : List (List Char × Piece)}
    (h : Divides text pieces rest) (before : List Char) :
    ∃ words close, tokensBehind before pieces = words ++ [close] ∧ close.kind = .endOfText ∧
      ∀ t ∈ words, t.kind ≠ .endOfText := by
  induction h generalizing before with
  | stop => exact ⟨[], _, rfl, rfl, fun t among => absurd among List.not_mem_nil⟩
  | @piece cut pieces rest longest _ ih =>
    obtain ⟨words, close, cutAtEnd, isEnd, noEnd⟩ := ih (before ++ cut.text)
    have isPiece := longest.isPiece
    cases piece : cut.piece with
    | word kind literal =>
      rw [piece] at isPiece
      rw [tokensBehind, cutAtEnd]
      refine ⟨_ :: words, close, rfl, isEnd, fun t among => ?_⟩
      obtain rfl | among := List.mem_cons.1 among
      · exact isPiece.kind_ne_endOfText
      · exact noEnd t among
    | blank | unexpected | unterminated => exact ⟨words, close, cutAtEnd, isEnd, noEnd⟩

theorem scanSource_eq_ok_iff {source : String} {tokens : List Token} :
    (scanSource source).result = .ok tokens ↔
      ∃ pieces, Divides source.toList pieces [] ∧ tokens = tokensBehind [] pieces := by
  refine Iff.trans ?_ (@Scanner.all_eq_ok_iff (.ofString source) tokens)
  unfold scanSource
  split
  next scanned => simp [scanned, Noted.done]
  next scanned => simp [scanned, Noted.failed]

/-- The tokens of a source end with the end token, which is the only one. -/
theorem scanSource_closed {source : String} {tokens : List Token}
    (scanned : (scanSource source).result = .ok tokens) :
    ∃ words close, tokens = words ++ [close] ∧ close.kind = .endOfText ∧
      ∀ t ∈ words, t.kind ≠ .endOfText := by
  obtain ⟨pieces, division, rfl⟩ := scanSource_eq_ok_iff.1 scanned
  exact division.closed []

/-- Two sources with a line feed between them are scanned to the tokens of both, those of
the second one later. -/
theorem scanSource_join {one other : String} {tokens tokens' : List Token}
    (scanned : (scanSource one).result = .ok tokens)
    (scanned' : (scanSource other).result = .ok tokens') :
    (scanSource (one ++ "\n" ++ other)).result =
      .ok (tokens.dropLast ++ tokens'.map (·.later (1 + one.toList.count '\n'))) := by
  obtain ⟨pieces, division, rfl⟩ := scanSource_eq_ok_iff.1 scanned
  obtain ⟨pieces', division', rfl⟩ := scanSource_eq_ok_iff.1 scanned'
  refine scanSource_eq_ok_iff.2 ⟨_, by simpa using division.join division', ?_⟩
  have whole := division.append
  rw [List.append_nil] at whole
  have later := tokensBehind_later (one.toList ++ ['\n']) [] pieces'
  rw [List.append_nil, List.count_append, List.count_singleton_self, Nat.add_comm] at later
  rw [tokensBehind_append, List.nil_append, ← whole, ← later]
  rfl

end TreeWalk
