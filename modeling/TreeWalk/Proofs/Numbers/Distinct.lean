import TreeWalk.Proofs.Numbers.Doubles
import TreeWalk.Proofs.Numbers.Texts

/-!
# Distinct numbers have distinct texts

A magnitude up to that of infinity is known from its text.

## Implementation notes

The text of a finite magnitude gives back its shortest decimal or at least the value of it,
and both give back the magnitude. What tells the forms apart is the exponent: a text has one
if it has the letter of one.
-/

namespace TreeWalk.NumberText

open Binary64 Decimal

theorem ne_of_isDigit {c d : Char} (digit : IsDigit c) (other : d.isDigit = false) : c ≠ d := by
  rintro rfl
  rw [isDigit_iff.2 digit] at other
  cases other

/-- The digits in front of an exponent, with a point after the first one. -/
def mantissa : List Char → List Char
  | [] => []
  | [d] => [d]
  | d :: rest => d :: '.' :: rest

theorem scientific_eq (digits : List Char) (leading : Int) :
    scientific digits leading = mantissa digits ++ exponentPart leading := by
  unfold scientific mantissa
  split <;> simp

/-- The digits of an exponent, padded. -/
def exponentDigits (exponent : Int) : List Char :=
  zeros (exponentWidth - (digitsOf exponent.natAbs).length) ++ digitsOf exponent.natAbs

theorem exponentPart_eq (exponent : Int) :
    exponentPart exponent =
      'e' :: (if exponent < 0 then '-' else '+') :: exponentDigits exponent :=
  rfl

theorem isDigit_of_mem_exponentDigits {exponent : Int} {c : Char}
    (among : c ∈ exponentDigits exponent) : IsDigit c :=
  (List.mem_append.1 among).elim isDigit_of_mem_zeros isDigit_of_mem_digitsOf

theorem ofDigits_exponentDigits (exponent : Int) :
    ofDigits (exponentDigits exponent) = exponent.natAbs := by
  rw [exponentDigits, ofDigits_zeros_append, ofDigits_digitsOf]

theorem exponentPart_injective {exponent exponent' : Int}
    (same : exponentPart exponent = exponentPart exponent') : exponent = exponent' := by
  rw [exponentPart_eq, exponentPart_eq, List.cons.injEq, List.cons.injEq] at same
  obtain ⟨-, sign, digits⟩ := same
  have size : exponent.natAbs = exponent'.natAbs := by
    rw [← ofDigits_exponentDigits, digits, ofDigits_exponentDigits]
  split at sign <;> split at sign <;> first | omega | cases sign

theorem mem_mantissa {digits : List Char} {c : Char} (among : c ∈ mantissa digits) :
    c ∈ digits ∨ c = '.' := by
  unfold mantissa at among
  split at among <;> simp_all
  tauto

/-- Without its point a mantissa is the digits. -/
theorem filter_mantissa {digits : List Char} (areDigits : ∀ c ∈ digits, IsDigit c) :
    (mantissa digits).filter (· != '.') = digits := by
  have noPoint : ∀ c ∈ digits, (c != '.') = true := fun c among =>
    bne_iff_ne.2 (ne_of_isDigit (areDigits c among) rfl)
  unfold mantissa
  split
  · rfl
  · exact List.filter_eq_self.2 noPoint
  next d rest _ =>
    have others : rest.filter (· != '.') = rest :=
      List.filter_eq_self.2 fun c among => noPoint c (List.mem_cons_of_mem d among)
    simp [noPoint d List.mem_cons_self, others]

theorem mem_scientific {n : Nat} {leading : Int} {c : Char}
    (among : c ∈ scientific (digitsOf n) leading) : IsDigit c ∨ c ∈ ['.', 'e', '+', '-'] := by
  rw [scientific_eq, exponentPart_eq, List.mem_append, List.mem_cons, List.mem_cons] at among
  obtain before | rfl | sign | behind := among
  · obtain digit | rfl := mem_mantissa before
    · exact .inl (isDigit_of_mem_digitsOf digit)
    · exact .inr (by decide)
  · exact .inr (by decide)
  · right
    rw [sign]
    split <;> decide
  · exact .inl (isDigit_of_mem_exponentDigits behind)

/-- A number with an exponent has no other letter for one. -/
theorem scientific_injective {n n' : Nat} {leading leading' : Int}
    (same : scientific (digitsOf n) leading = scientific (digitsOf n') leading') :
    n = n' ∧ leading = leading' := by
  have noLetter {c : Char} (digit : IsDigit c) : c ≠ 'e' := ne_of_isDigit digit rfl
  have before : 'e' ∉ mantissa (digitsOf n) := by
    intro among
    obtain digit | point := mem_mantissa among
    · exact noLetter (isDigit_of_mem_digitsOf digit) rfl
    · cases point
  have behind : 'e' ∉ (if leading < 0 then '-' else '+') :: exponentDigits leading := by
    rw [List.mem_cons, not_or]
    exact ⟨by split <;> decide, fun among => noLetter (isDigit_of_mem_exponentDigits among) rfl⟩
  rw [scientific_eq, scientific_eq, exponentPart_eq leading, exponentPart_eq leading',
    List.append_cons_inj_of_notMem before behind] at same
  obtain ⟨digits, -, exponents⟩ := same
  refine ⟨digitsOf_injective ?_, exponentPart_injective ?_⟩
  · rw [← filter_mantissa fun c => isDigit_of_mem_digitsOf, digits,
      filter_mantissa fun c => isDigit_of_mem_digitsOf]
  · rw [exponentPart_eq, exponentPart_eq, exponents]

variable {d d' : Decimal}

theorem magnitude_le (d : Decimal) : d.magnitude ≤ infinity := Nat.min_le_left _ _

theorem magnitude_of_numeral {text : List Char} (numeral : IsNumeral text d)
    (numeral' : IsNumeral text d') : d.magnitude = d'.magnitude := by
  have same := IsPiece.unique numeral numeral'
  simp only [Piece.word.injEq, Scalar.number.injEq, true_and] at same
  rw [← ofFloat_toFloat (magnitude_le d), same, ofFloat_toFloat (magnitude_le d')]

theorem e_not_mem_of_inFull (inFull : InFull d) : 'e' ∉ ofDecimal .short d := by
  intro among
  obtain digit | point := isDigit_or_point (ofDecimal_isNumeral inFull) among
  · exact ne_of_isDigit digit rfl rfl
  · cases point

/-- A decimal is known from its text up to its value. -/
theorem magnitude_of_ofDecimal (same : ofDecimal .short d = ofDecimal .short d') :
    d.magnitude = d'.magnitude := by
  by_cases inFull : InFull d <;> by_cases inFull' : InFull d'
  · exact magnitude_of_numeral (ofDecimal_isNumeral inFull) (same ▸ ofDecimal_isNumeral inFull')
  · refine absurd ?_ (e_not_mem_of_inFull inFull)
    rw [same, ofDecimal_not_inFull inFull']
    exact e_mem_scientific _ _
  · refine absurd ?_ (e_not_mem_of_inFull inFull')
    rw [← same, ofDecimal_not_inFull inFull]
    exact e_mem_scientific _ _
  · rw [ofDecimal_not_inFull inFull, ofDecimal_not_inFull inFull'] at same
    obtain ⟨digits, leading⟩ := scientific_injective same
    obtain ⟨n, exponent⟩ := d
    obtain ⟨n', exponent'⟩ := d'
    obtain rfl : n = n' := digits
    obtain rfl : exponent = exponent' := by
      simp only [wholeDigits] at leading
      omega
    rfl

variable {m m' : Nat}

theorem ofMagnitude_infinity (form : Form) : ofMagnitude form infinity = ['i', 'n', 'f'] :=
  if_neg (Nat.lt_irrefl _)

theorem isDigit_head_scientific (n : Nat) (leading : Int) :
    ∃ c ∈ (scientific (digitsOf n) leading).head?, IsDigit c := by
  obtain ⟨c, rest, cut⟩ := List.exists_cons_of_ne_nil (digitsOf_ne_nil n)
  have digit : IsDigit c := isDigit_of_mem_digitsOf (cut ▸ List.mem_cons_self)
  refine ⟨c, ?_, digit⟩
  rw [cut]
  cases rest <;> rfl

/-- The text of a finite magnitude begins with a digit. -/
theorem isDigit_head (finite : m < infinity) : ∃ c ∈ (ofMagnitude .short m).head?, IsDigit c := by
  rw [ofMagnitude_finite finite]
  by_cases inFull : InFull (shortest m)
  · exact isDigit_head_number (ofDecimal_isNumeral inFull)
  · rw [ofDecimal_not_inFull inFull]
    exact isDigit_head_scientific _ _

theorem ofMagnitude_ne_infinity (finite : m < infinity) :
    ofMagnitude .short m ≠ ofMagnitude .short infinity := by
  obtain ⟨c, first, digit⟩ := isDigit_head finite
  intro same
  rw [same, ofMagnitude_infinity] at first
  exact ne_of_isDigit digit rfl (Option.some.inj first).symm

/-- A magnitude is known from its text. -/
theorem ofMagnitude_injective (le : m ≤ infinity) (le' : m' ≤ infinity)
    (same : ofMagnitude .short m = ofMagnitude .short m') : m = m' := by
  obtain finite | rfl := Nat.lt_or_eq_of_le le <;> obtain finite' | rfl := Nat.lt_or_eq_of_le le'
  · rw [ofMagnitude_finite finite, ofMagnitude_finite finite'] at same
    rw [← magnitude_shortest finite, magnitude_of_ofDecimal same, magnitude_shortest finite']
  · exact absurd same (ofMagnitude_ne_infinity finite)
  · exact absurd same.symm (ofMagnitude_ne_infinity finite')
  · rfl

variable {x y : Float}

/-- A number without a sign has the text of its magnitude. -/
theorem ofFloat_eq (h : IsUnsigned x) (form : Form) :
    NumberText.ofFloat form x = String.ofList (ofMagnitude form (Binary64.ofFloat x)) := by
  rw [NumberText.ofFloat, if_neg (Nat.not_lt.2 h.le), if_neg (by simp [h.positive])]

/-- Distinct numbers without a sign have distinct texts. -/
theorem ofFloat_injective (h : IsUnsigned x) (h' : IsUnsigned y)
    (same : NumberText.ofFloat .short x = NumberText.ofFloat .short y) : x = y := by
  rw [ofFloat_eq h, ofFloat_eq h', String.ofList_inj] at same
  rw [← toFloat_ofFloat h.positive, ofMagnitude_injective h.le h'.le same,
    toFloat_ofFloat h'.positive]

end TreeWalk.NumberText
