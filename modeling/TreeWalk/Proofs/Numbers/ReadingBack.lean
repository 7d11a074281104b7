import TreeWalk.Proofs.Lexis.Joining
import TreeWalk.Proofs.Lexis.Spacing
import TreeWalk.Proofs.Numbers.Distinct
import TreeWalk.Session

/-!
# Printed numbers read back

The text that printing a finite number without a sign and an exponent gives is one token as
a whole, the literal of this token is the number, and the text is an expression with the
number as its value. The text of a natural number is its decimal digits.

## Implementation notes

Whether the text has an exponent is said of the long form, as it does not depend on the form.
That a text is a numeral of the shortest decimal is all that scanning has to know: it is cut
as a whole where nothing follows, so there is no second look at its digits and its point.
-/

namespace TreeWalk

open Binary64 NumberText

/-- A finite number without a sign whose text has no exponent. -/
structure IsPlainNumber (x : Float) : Prop where
  unsigned : isNegative x = false
  finite : ofFloat x < infinity
  noExponent : 'e' ∉ (NumberText.ofFloat .long x).toList

/-- A number is a natural number: it is worth as many units as so many ones. -/
def IsNatural (x : Float) (n : Nat) : Prop := units (ofFloat x) = n * one

namespace IsPlainNumber

variable {x : Float}

theorem isUnsigned (h : IsPlainNumber x) : IsUnsigned x :=
  ⟨h.unsigned, Nat.le_of_lt h.finite⟩

theorem inFull (h : IsPlainNumber x) : InFull (Decimal.shortest (ofFloat x)) := by
  have plain := h.noExponent
  rw [ofFloat_eq h.isUnsigned, String.toList_ofList, ofMagnitude_finite h.finite] at plain
  exact inFull_of_plain plain

/-- The text of a number is a word with the number as its literal. -/
theorem isPiece (h : IsPlainNumber x) :
    IsPiece (Scalar.number x).text.toList (.word .number (.number x)) := by
  have numeral := ofDecimal_isNumeral h.inFull
  rw [IsNumeral, Decimal.magnitude_shortest h.finite, toFloat_ofFloat h.unsigned] at numeral
  rwa [Scalar.text, ofFloat_eq h.isUnsigned, String.toList_ofList, ofMagnitude_finite h.finite]

theorem text_eq (h : IsPlainNumber x) {n : Nat} (natural : IsNatural x n) :
    (Scalar.number x).text = toString n := by
  rw [Scalar.text, ofFloat_eq h.isUnsigned, ofMagnitude_whole h.finite h.inFull natural]
  exact Nat.toString_eq_ofList_toDigits.symm

end IsPlainNumber

/-- A text that is a word is scanned to this word. -/
theorem scanSource_word {source : String} {kind : TokenKind} {literal : Scalar}
    (isPiece : IsPiece source.toList (.word kind literal)) :
    (scanSource source).result = .ok
      [⟨kind, source, literal, lineBehind source.toList⟩,
        .endOfText (lineBehind source.toList)] := by
  have longest := isPiece.isLongest (by simp : ∀ c ∈ ([] : List Char).head?, c ∈ blanks)
  have division := Divides.piece longest .stop
  rw [List.append_nil] at division
  refine scanSource_eq_ok_iff.2 ⟨_, division, ?_⟩
  simp [tokensBehind]

/-- A numeral is on one line. -/
theorem lineBehind_number {text : List Char} {literal : Scalar}
    (isPiece : IsPiece text (.word .number literal)) : lineBehind text = 1 := by
  rw [lineBehind, List.count_eq_zero_of_not_mem fun among => ?_]
  obtain digit | point := isDigit_or_point isPiece among
  · exact absurd (isDigit_iff.2 digit) (by decide)
  · cases point

/-- An expression that is a literal is evaluated to it, with the scope rules or without. -/
theorem step_literal {source : String} {literal : Scalar} {mode : Mode}
    (parsed : parseExpression source = .ok (.literal literal)) (session : Session) (fuel : Nat)
    (evaluates : mode = .evaluate ∨ mode = .evaluateRaw) :
    (session.step (fuel + 1) mode source).1.result = .ok (some (.scalar literal)) := by
  obtain rfl | rfl := evaluates
  · rw [Session.step, parsed]
    rfl
  · rw [Session.step, parsed]
    rfl

/-- A finite number without a sign and an exponent reads back from its text: the text is
scanned to one token with the number as its literal, it is parsed to the literal expression,
and evaluating it gives a value with this text. The text of a natural number is its digits. -/
theorem printed_numbers_read_back {x : Float} (plain : IsPlainNumber x) :
    let text := (Scalar.number x).text
    (scanSource text).result = .ok [⟨.number, text, .number x, 1⟩, .endOfText 1] ∧
    parseExpression text = .ok (.literal (.number x)) ∧
    (∀ (session : Session) (fuel : Nat) (mode : Mode), mode = .evaluate ∨ mode = .evaluateRaw →
      ∃ value, (session.step (fuel + 1) mode text).1.result = .ok (some value) ∧
        (session.step (fuel + 1) mode text).2.machine.heap.text value = text) ∧
    ∀ n, IsNatural x n → text = toString n := by
  intro text
  have scanned := scanSource_word plain.isPiece
  rw [lineBehind_number plain.isPiece] at scanned
  have parsed : parseExpression text = .ok (.literal (.number x)) := by
    rw [parseExpression, scanned]
    rfl
  refine ⟨scanned, parsed, fun session fuel mode evaluates => ?_, fun n => plain.text_eq⟩
  exact ⟨_, step_literal parsed session fuel evaluates, rfl⟩

namespace Prices

/-- The double nearest to `1.05`. -/
def coffee : Float := Float.ofBits 0x3FF0CCCCCCCCCCCD

/-- The double of `1200`. -/
def rent : Float := Float.ofBits 0x4092C00000000000

theorem isPlainNumber_coffee : IsPlainNumber coffee := by
  constructor <;> decide +kernel

theorem isPlainNumber_rent : IsPlainNumber rent := by
  constructor <;> decide +kernel

theorem isNatural_rent : IsNatural rent 1200 := by
  unfold IsNatural
  decide +kernel

/-- The fraction is one token with its zero and its point, and the hundreds have no point. -/
theorem printed_numbers_read_back_prices :
    IsPlainNumber coffee ∧ IsPlainNumber rent ∧ IsNatural rent 1200 ∧
      (scanSource "1.05").result =
        .ok [⟨.number, "1.05", .number coffee, 1⟩, .endOfText 1] ∧
      parseExpression "1200" = .ok (.literal (.number rent)) ∧
      let step := (Session.initial fun _ => 0).step 1 .evaluate "1200"
      ∃ value, step.1.result = .ok (some value) ∧ step.2.machine.heap.text value = "1200" := by
  have written : (Scalar.number coffee).text = "1.05" := by decide +kernel
  obtain ⟨scanned, -⟩ := printed_numbers_read_back isPlainNumber_coffee
  obtain ⟨-, parsed, evaluated, digits⟩ := printed_numbers_read_back isPlainNumber_rent
  have natural := digits 1200 isNatural_rent
  rw [natural] at parsed evaluated
  rw [written] at scanned
  exact ⟨isPlainNumber_coffee, isPlainNumber_rent, isNatural_rent, scanned, parsed,
    evaluated (.initial fun _ => 0) 0 .evaluate (.inl rfl)⟩

end Prices

end TreeWalk
