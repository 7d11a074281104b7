import TreeWalk.NumberText
import TreeWalk.Proofs.Lexis.Longest
import TreeWalk.Proofs.Numbers.Shortest

/-!
# Texts of numbers are numerals

The text of a decimal that is written out in full is a piece of the lexical grammar, and what
it stands for is the double nearest to the decimal. For a whole number of up to sixteen
digits the text is its decimal digits.

## Implementation notes

A text with a point in it has the digits and the exponent of its decimal, so it is the same
decimal; a text without a point may have more digits and no exponent, and then only the
value is the same.
-/

namespace TreeWalk.NumberText

open Binary64 Decimal

theorem digitsOf_ne_nil (n : Nat) : digitsOf n ≠ [] := Nat.toDigits_ne_nil

theorem isDigit_of_mem_digitsOf {n : Nat} {c : Char} (among : c ∈ digitsOf n) : IsDigit c :=
  isDigit_iff.1 (Nat.isDigit_of_mem_toDigits (by decide) (by decide) among)

theorem isDigit_zero : IsDigit '0' := isDigit_iff.1 rfl

theorem isDigit_of_mem_zeros {k : Nat} {c : Char} (among : c ∈ zeros k) : IsDigit c :=
  (List.mem_replicate.1 among).2 ▸ isDigit_zero

theorem ofDigits_digitsOf (n : Nat) : ofDigits (digitsOf n) = n :=
  Nat.ofDigitChars_ten_toDigits

theorem digitsOf_injective {n n' : Nat} (same : digitsOf n = digitsOf n') : n = n' := by
  rw [← ofDigits_digitsOf n, same, ofDigits_digitsOf]

theorem ofDigits_zeros_append (k : Nat) (digits : List Char) :
    ofDigits (zeros k ++ digits) = ofDigits digits := by
  change Nat.ofDigitChars 10 (List.replicate k '0' ++ digits) 0 = Nat.ofDigitChars 10 digits 0
  rw [Nat.ofDigitChars_append, Nat.ofDigitChars_replicate_zero, Nat.mul_zero]

theorem ofDigits_append_zeros (digits : List Char) (k : Nat) :
    ofDigits (digits ++ zeros k) = ofDigits digits * 10 ^ k := by
  change Nat.ofDigitChars 10 (digits ++ List.replicate k '0') 0 =
    Nat.ofDigitChars 10 digits 0 * 10 ^ k
  rw [Nat.ofDigitChars_append, Nat.ofDigitChars_replicate_zero, Nat.mul_comm]

/-- Zeros behind the digits of a number are factors of ten. -/
theorem digitsOf_append_zeros {n : Nat} (positive : 0 < n) (k : Nat) :
    digitsOf n ++ zeros k = digitsOf (n * 10 ^ k) := by
  induction k with
  | zero => simp [zeros]
  | succ k ih =>
    have last := Nat.toDigits_append_toDigits (b := 10) (n := n * 10 ^ k) (d := 0) (by decide)
      (Nat.mul_pos positive (Nat.pow_pos (by decide))) (by decide)
    calc digitsOf n ++ zeros (k + 1)
        = (digitsOf n ++ zeros k) ++ zeros 1 := by
          rw [List.append_assoc, zeros, zeros, zeros, List.replicate_append_replicate]
      _ = digitsOf (n * 10 ^ k) ++ digitsOf 0 := by rw [ih]; rfl
      _ = digitsOf (n * 10 ^ (k + 1)) := by
          rw [digitsOf, digitsOf, last, Nat.add_zero, Nat.pow_succ', Nat.mul_left_comm]
          rfl

theorem lt_pow_length (n : Nat) : n < 10 ^ (digitsOf n).length := by
  have positive := List.length_pos_iff.2 (digitsOf_ne_nil n)
  exact (Nat.length_toDigits_le_iff (by decide) positive).1 (Nat.le_refl _)

/-- A word that is a number is a row of digits, perhaps with a point inside. -/
theorem number_cases {text : List Char} {literal : Scalar}
    (isPiece : IsPiece text (.word .number literal)) :
    (text ≠ [] ∧ ∀ c ∈ text, IsDigit c) ∨
      ∃ whole fraction, whole ≠ [] ∧ text = whole ++ '.' :: fraction ∧
        ∀ c ∈ whole ++ fraction, IsDigit c := by
  cases isPiece with
  | mark listed =>
    have others : ∀ entry ∈ markTexts, entry.2 ≠ .number := by decide
    exact absurd rfl (others _ listed)
  | whole some digits => exact .inl ⟨some, digits⟩
  | decimal some _ digits => exact .inr ⟨_, _, some, rfl, digits⟩
  | keyword listed =>
    have others : ∀ entry ∈ TokenKind.keywords, entry.2 ≠ .number := by decide
    exact absurd rfl (others _ listed)

theorem isDigit_or_point {text : List Char} {literal : Scalar} {c : Char}
    (isPiece : IsPiece text (.word .number literal)) (among : c ∈ text) : IsDigit c ∨ c = '.' := by
  obtain ⟨-, digits⟩ | ⟨whole, fraction, -, rfl, digits⟩ := number_cases isPiece
  · exact .inl (digits c among)
  · have digit := digits c
    rw [List.mem_append] at digit
    rw [List.mem_append, List.mem_cons] at among
    tauto

theorem isDigit_head_number {text : List Char} {literal : Scalar}
    (isPiece : IsPiece text (.word .number literal)) : ∃ c ∈ text.head?, IsDigit c := by
  obtain ⟨some, digits⟩ | ⟨whole, fraction, some, rfl, digits⟩ := number_cases isPiece
  · obtain ⟨c, rest, rfl⟩ := List.exists_cons_of_ne_nil some
    exact ⟨c, rfl, digits c List.mem_cons_self⟩
  · obtain ⟨c, rest, rfl⟩ := List.exists_cons_of_ne_nil some
    exact ⟨c, rfl, digits c List.mem_cons_self⟩

/-- A text stands for the double nearest to a decimal. -/
def IsNumeral (text : List Char) (d : Decimal) : Prop :=
  IsPiece text (.word .number (.number (toFloat false d.magnitude)))

theorem isNumeral_whole {digits : List Char} (some : digits ≠ [])
    (areDigits : ∀ c ∈ digits, IsDigit c) : IsNumeral digits ⟨ofDigits digits, 0⟩ := by
  have piece := IsPiece.whole some areDigits
  rw [numeral_eq, Cut.numberLiteral, ofText, List.append_nil] at piece
  exact piece

theorem isNumeral_decimal {whole fraction : List Char} (some : whole ≠ []) (more : fraction ≠ [])
    (areDigits : ∀ c ∈ whole ++ fraction, IsDigit c) :
    IsNumeral (whole ++ '.' :: fraction)
      ⟨ofDigits (whole ++ fraction), -(fraction.length : Int)⟩ := by
  have piece := IsPiece.decimal some more areDigits
  rw [numeral_eq, Cut.numberLiteral, ofText] at piece
  exact piece

theorem leading_isNumeral (n k : Nat) :
    IsNumeral ('0' :: '.' :: (zeros k ++ digitsOf n))
      ⟨n, -((k + (digitsOf n).length : Nat) : Int)⟩ := by
  have numeral := @isNumeral_decimal ['0'] (zeros k ++ digitsOf n) (by simp)
    (by simp [digitsOf_ne_nil]) (by
      simp only [List.mem_append, List.mem_singleton]
      rintro c (rfl | among | among)
      · exact isDigit_zero
      · exact isDigit_of_mem_zeros among
      · exact isDigit_of_mem_digitsOf among)
  have value : ofDigits (['0'] ++ (zeros k ++ digitsOf n)) = n := by
    rw [← List.append_assoc, show ['0'] ++ zeros k = zeros (k + 1) from rfl,
      ofDigits_zeros_append, ofDigits_digitsOf]
  have places : (zeros k ++ digitsOf n).length = k + (digitsOf n).length := by
    rw [List.length_append, zeros, List.length_replicate]
  rwa [value, places] at numeral

theorem split_isNumeral {n whole : Nat} (positive : 0 < whole)
    (inside : whole < (digitsOf n).length) :
    IsNumeral ((digitsOf n).take whole ++ '.' :: (digitsOf n).drop whole)
      ⟨n, -(((digitsOf n).length - whole : Nat) : Int)⟩ := by
  have before : (digitsOf n).take whole ≠ [] := by
    rw [Ne, List.take_eq_nil_iff, not_or]
    exact ⟨Nat.ne_of_gt positive, digitsOf_ne_nil n⟩
  have behind : (digitsOf n).drop whole ≠ [] := by
    rw [Ne, List.drop_eq_nil_iff]
    exact Nat.not_le.2 inside
  have numeral := isNumeral_decimal before behind fun c among =>
    isDigit_of_mem_digitsOf (List.take_append_drop whole (digitsOf n) ▸ among)
  rwa [List.take_append_drop, ofDigits_digitsOf, List.length_drop] at numeral

/-- Zeros behind the digits stand for an exponent. -/
theorem trailing_isNumeral (n k : Nat) : IsNumeral (digitsOf n ++ zeros k) ⟨n, k⟩ := by
  have numeral := @isNumeral_whole (digitsOf n ++ zeros k) (by simp [digitsOf_ne_nil]) (by
    simp only [List.mem_append]
    rintro c (among | among)
    · exact isDigit_of_mem_digitsOf among
    · exact isDigit_of_mem_zeros among)
  have value : (Decimal.mk (n * 10 ^ k) 0).magnitude = (Decimal.mk n k).magnitude := by
    rw [magnitude_whole]
    exact (magnitude_whole _ 0).trans (congrArg (nearest · 1) (Nat.mul_one _))
  rwa [IsNumeral, ofDigits_append_zeros, ofDigits_digitsOf, value] at numeral

/-- What is written out in full is a numeral of the decimal. -/
theorem positional_isNumeral (n : Nat) (exponent : Int) :
    IsNumeral (positional .short (digitsOf n) (exponent + (digitsOf n).length))
      ⟨n, exponent⟩ := by
  obtain ⟨whole, same⟩ : ∃ whole, exponent + (digitsOf n).length = whole := ⟨_, rfl⟩
  obtain rfl : exponent = whole - (digitsOf n).length := by omega
  rw [same]
  simp only [positional]
  split
  next small =>
    convert leading_isNumeral n (-whole).toNat using 2
    omega
  next positive =>
    split
    next inside =>
      convert @split_isNumeral n whole.toNat (by omega) (by omega) using 2
      omega
    next outside =>
      rw [List.append_nil]
      convert trailing_isNumeral n (whole.toNat - (digitsOf n).length) using 2
      omega

theorem e_mem_scientific (digits : List Char) (leading : Int) :
    'e' ∈ scientific digits leading := by
  unfold scientific exponentPart
  split <;> simp

/-- Where the point of a decimal stands, counted from its first digit. -/
def wholeDigits (d : Decimal) : Int := d.exponent + (digitsOf d.digits).length

/-- A decimal that is written out in full. -/
def InFull (d : Decimal) : Prop :=
  leastPositional ≤ wholeDigits d - 1 ∧ wholeDigits d - 1 ≤ mostPositional

theorem ofDecimal_inFull {d : Decimal} (inFull : InFull d) (form : Form) :
    ofDecimal form d = positional form (digitsOf d.digits) (wholeDigits d) :=
  if_pos inFull

theorem ofDecimal_not_inFull {d : Decimal} (short : ¬ InFull d) (form : Form) :
    ofDecimal form d = scientific (digitsOf d.digits) (wholeDigits d - 1) :=
  if_neg short

/-- Only what is written out in full has no exponent. -/
theorem inFull_of_plain {d : Decimal} {form : Form} (plain : 'e' ∉ ofDecimal form d) :
    InFull d := by
  by_contra short
  rw [ofDecimal_not_inFull short] at plain
  exact plain (e_mem_scientific _ _)

theorem ofDecimal_isNumeral {d : Decimal} (inFull : InFull d) :
    IsNumeral (ofDecimal .short d) d := by
  rw [ofDecimal_inFull inFull]
  exact positional_isNumeral d.digits d.exponent

variable {m n : Nat} {form : Form} {x : Float}

theorem ofMagnitude_finite (finite : m < infinity) (form : Form) :
    ofMagnitude form m = ofDecimal form (shortest m) :=
  if_pos finite

/-- The text of a whole number without an exponent is its digits. -/
theorem ofMagnitude_whole (finite : m < infinity) (inFull : InFull (shortest m))
    (whole : units m = n * one) : ofMagnitude .short m = digitsOf n := by
  rw [ofMagnitude_finite finite]
  by_cases zero : n = 0
  · have none : m = 0 := units_eq_zero (by rw [whole, zero, Nat.zero_mul])
    rw [none, shortest_zero, zero]
    rfl
  · obtain ⟨digits, k, least, value⟩ := shortest_whole finite whole (Nat.pos_of_ne_zero zero)
    rw [least] at inFull ⊢
    rw [ofDecimal_inFull inFull]
    have point : wholeDigits ⟨digits, k⟩ = (k : Int) + (digitsOf digits).length := rfl
    have small := inFull.2
    rw [point, mostPositional] at small
    have same : digits * 10 ^ k = n := by
      refine value (Nat.lt_of_lt_of_le
        (Nat.mul_lt_mul_of_pos_right (lt_pow_length digits) (Nat.pow_pos (by decide))) ?_)
      rw [← Nat.pow_add]
      exact Nat.pow_le_pow_right (by decide) (by rw [keptDigits]; omega)
    have positive : 0 < digits := Nat.pos_of_ne_zero fun none => zero (by simp [← same, none])
    have some := List.length_pos_iff.2 (digitsOf_ne_nil digits)
    have behind : ((k : Int) + (digitsOf digits).length).toNat - (digitsOf digits).length = k := by
      omega
    simp only [point, positional]
    rw [if_neg (by omega), if_neg (by omega), behind, List.append_nil,
      digitsOf_append_zeros positive, same]

end TreeWalk.NumberText
