import TreeWalk.Binary64
import Mathlib.Algebra.Order.Ring.Nat
import Mathlib.Data.Nat.Log

/-!
# Magnitudes are read exactly

A finite magnitude is a count of units: 53 significant bits, shifted. The fraction that is
this count of units is rounded to the magnitude itself, however it is written, and so is
every count that has no more bits than that.

## Implementation notes

A magnitude is taken apart as `shift * fractions + bits`, which is also how `nearest` puts it
together. No rounding happens where the denominator divides the numerator, and that is the
only case that is needed to see that what is written reads back.
-/

namespace TreeWalk.Binary64

theorem one_positive : 0 < one := by
  unfold one
  generalize 1074 = n
  exact Nat.two_pow_pos n

/-- A whole number of ones has the logarithm of one at least. -/
theorem le_log2_mul_one {n : Nat} (positive : 0 < n) : 1074 ≤ Nat.log2 (n * one) := by
  unfold one
  generalize 1074 = shift
  have one_le : 0 < Nat.pow 2 shift := Nat.two_pow_pos shift
  exact (Nat.le_log2 (Nat.ne_of_gt (Nat.mul_pos positive one_le))).2
    (Nat.le_mul_of_pos_left _ positive)

theorem fractions_eq : fractions = 2 ^ 52 := rfl

theorem nearest_eq (num den : Nat) :
    nearest num den = min infinity (excess (num * one / den) * fractions +
      roundHalfEven (num * one) (den * 2 ^ excess (num * one / den))) := by
  rfl

/-- What is no fraction is not rounded. -/
theorem roundHalfEven_mul (n : Nat) {den : Nat} (positive : 0 < den) :
    roundHalfEven (n * den) den = n := by
  simp [roundHalfEven, Nat.mul_div_cancel n positive, positive]

theorem roundHalfEven_of_dvd {num den : Nat} (positive : 0 < den) (whole : den ∣ num) :
    roundHalfEven num den = num / den := by
  obtain ⟨n, rfl⟩ := whole
  rw [Nat.mul_comm den, roundHalfEven_mul n positive, Nat.mul_div_cancel n positive]

theorem roundHalfEven_mul_left {c : Nat} (positive : 0 < c) (num den : Nat) :
    roundHalfEven (c * num) (c * den) = roundHalfEven num den := by
  have twice (a b : Nat) : 2 * (c * a) < c * b ↔ 2 * a < b := by
    rw [Nat.mul_left_comm, Nat.mul_lt_mul_left positive]
  have twice' (a b : Nat) : c * b < 2 * (c * a) ↔ b < 2 * a := by
    rw [Nat.mul_left_comm, Nat.mul_lt_mul_left positive]
  simp only [roundHalfEven, Nat.mul_div_mul_left num den positive, Nat.mul_mod_mul_left, twice,
    twice']

/-- Only the value of a fraction matters. -/
theorem nearest_mul_left {c : Nat} (positive : 0 < c) (num den : Nat) :
    nearest (c * num) (c * den) = nearest num den := by
  simp only [nearest_eq, Nat.mul_assoc, Nat.mul_div_mul_left _ den positive,
    roundHalfEven_mul_left positive]

/-- Bits that make a magnitude together with a shift: at most 53 of them, and fewer only
without a shift. -/
structure AreBits (shift bits : Nat) : Prop where
  small : bits < 2 * fractions
  full : shift = 0 ∨ fractions ≤ bits

theorem exists_bits (m : Nat) :
    ∃ shift bits, m = shift * fractions + bits ∧ AreBits shift bits := by
  have divided := Nat.div_add_mod' m fractions
  have less := Nat.mod_lt m (show 0 < fractions by decide)
  by_cases below : m < fractions
  · exact ⟨0, m, by simp, by omega, .inl rfl⟩
  · have positive : 0 < m / fractions := Nat.div_pos (Nat.le_of_not_lt below) (by decide)
    refine ⟨m / fractions - 1, fractions + m % fractions, ?_, by omega, .inr (by omega)⟩
    rw [Nat.sub_mul, Nat.one_mul]
    have le := Nat.mul_le_mul_right fractions positive
    omega

theorem units_eq {shift bits : Nat} (h : AreBits shift bits) :
    units (shift * fractions + bits) = bits * 2 ^ shift := by
  have small := h.small
  by_cases below : bits < fractions
  · obtain rfl := h.full.resolve_right (Nat.not_le.2 below)
    simp [units, below]
  · have rest : (shift * fractions + bits) % fractions = bits - fractions := by
      rw [Nat.mul_add_mod', Nat.mod_eq_sub_mod (Nat.le_of_not_lt below),
        Nat.mod_eq_of_lt (by omega)]
    have quotient : (shift * fractions + bits) / fractions = shift + 1 := by
      rw [Nat.add_comm, Nat.add_mul_div_right _ _ (by decide), Nat.add_comm]
      congr 1
      exact Nat.div_eq_of_lt_le (by omega) (by omega)
    rw [units, if_neg (by omega), rest, quotient, Nat.add_sub_cancel' (Nat.le_of_not_lt below)]
    rfl

/-- A count of units with so many bits loses its shift. -/
theorem excess_eq {shift bits : Nat} (h : AreBits shift bits) :
    excess (bits * 2 ^ shift) = shift := by
  have small := h.small
  rw [fractions_eq] at small
  obtain rfl | full := h.full
  · rw [Nat.pow_zero, Nat.mul_one, excess]
    by_cases zero : bits = 0
    · rw [zero]
      rfl
    · have := (Nat.log2_lt zero).2 (show bits < 2 ^ 53 by omega)
      omega
  · rw [fractions_eq] at full
    have positive : 0 < 2 ^ shift := Nat.pow_pos Nat.two_pos
    have zero : bits * 2 ^ shift ≠ 0 := Nat.mul_ne_zero (by omega) (Nat.ne_of_gt positive)
    have low := (Nat.le_log2 zero (k := 52 + shift)).2 (by
      rw [Nat.pow_add]
      exact Nat.mul_le_mul_right _ full)
    have high := (Nat.log2_lt zero (k := 53 + shift)).2 (by
      rw [Nat.pow_add]
      exact Nat.mul_lt_mul_of_pos_right (by omega) positive)
    rw [excess]
    omega

/-- Only the least magnitude is worth nothing. -/
theorem units_eq_zero {m : Nat} (zero : units m = 0) : m = 0 := by
  obtain ⟨shift, bits, rfl, areBits⟩ := exists_bits m
  rw [units_eq areBits] at zero
  obtain rfl := (Nat.mul_eq_zero.1 zero).resolve_right (Nat.ne_of_gt (Nat.two_pow_pos shift))
  simp [areBits.full.resolve_right (by decide)]

/-- The value of a magnitude is rounded to the magnitude. -/
theorem nearest_units {m : Nat} (finite : m < infinity) : nearest (units m) one = m := by
  obtain ⟨shift, bits, rfl, areBits⟩ := exists_bits m
  have positive : 0 < one * 2 ^ shift := Nat.mul_pos one_positive (Nat.two_pow_pos shift)
  rw [nearest_eq, Nat.mul_div_cancel _ one_positive, units_eq areBits, excess_eq areBits,
    Nat.mul_assoc, Nat.mul_comm (2 ^ shift), roundHalfEven_mul _ positive]
  exact Nat.min_eq_right (Nat.le_of_lt finite)

/-- As many bits as are kept of a count, and its shift. -/
theorem areBits_excess (count : Nat) : AreBits (excess count) (count / 2 ^ excess count) := by
  have positive : 0 < 2 ^ excess count := Nat.two_pow_pos _
  by_cases zero : count = 0
  · subst zero
    exact ⟨by simp [fractions_eq], .inl rfl⟩
  have high := (Nat.log2_lt zero).1 (Nat.lt_succ_self count.log2)
  refine ⟨?_, ?_⟩
  · rw [Nat.div_lt_iff_lt_mul positive, fractions_eq, ← Nat.pow_succ', ← Nat.pow_add]
    refine Nat.lt_of_lt_of_le high (Nat.pow_le_pow_right Nat.two_pos ?_)
    rw [excess]
    omega
  · by_cases short : count.log2 ≤ 52
    · exact .inl (Nat.sub_eq_zero_of_le short)
    · right
      rw [Nat.le_div_iff_mul_le positive, fractions_eq, ← Nat.pow_add, excess,
        Nat.add_sub_cancel' (by omega)]
      exact (Nat.le_log2 zero).1 (Nat.le_refl _)

/-- A count with few bits loses none. -/
theorem pow_excess_dvd {bits : Nat} (small : bits < 2 * fractions) (shift : Nat) :
    2 ^ excess (bits * 2 ^ shift) ∣ bits * 2 ^ shift := by
  by_cases zero : bits * 2 ^ shift = 0
  · rw [zero]
    exact Nat.dvd_zero _
  refine Nat.dvd_trans (Nat.pow_dvd_pow 2 ?_) (Nat.dvd_mul_left _ _)
  have high := (Nat.log2_lt zero (k := 53 + shift)).2 (by
    rw [Nat.pow_add]
    exact Nat.mul_lt_mul_of_pos_right small (Nat.two_pow_pos shift))
  rw [excess]
  omega

/-- A number that loses no bits is the value of the magnitude that it is rounded to. -/
theorem units_nearest {n : Nat} (finite : nearest n 1 < infinity)
    (exact : 2 ^ excess (n * one) ∣ n * one) : units (nearest n 1) = n * one := by
  have positive : 0 < 2 ^ excess (n * one) := Nat.two_pow_pos _
  rw [nearest_eq, Nat.div_one, Nat.one_mul, roundHalfEven_of_dvd positive exact] at finite ⊢
  rw [Nat.min_eq_right (by omega), units_eq (areBits_excess _), Nat.div_mul_cancel exact]

end TreeWalk.Binary64
