import TreeWalk.Decimal
import TreeWalk.Proofs.Numbers.Magnitudes

/-!
# Shortest decimals

The shortest decimal of a magnitude reads back as the magnitude, and that of a whole number
with few digits has the value of the number.

## Implementation notes

What is found on a grid has been read back, so only the finest decimal, which is the value
itself, has to be computed with. A whole number lies on the grid of ones, so its search
never leaves the grids without a fraction; what is found there before has zeros at the end
of fewer than 53 bits, and no magnitude but one has its value.
-/

namespace TreeWalk.Decimal

open Binary64

theorem magnitude_of_onGrid {m : Nat} {exponent : Int} {d : Decimal}
    (hit : onGrid m exponent = some d) : d.magnitude = m := by
  simpa using List.find?_some hit

theorem exponent_of_onGrid {m : Nat} {exponent : Int} {d : Decimal}
    (hit : onGrid m exponent = some d) : d.exponent = exponent := by
  have listed := List.mem_of_find?_eq_some hit
  simp only [List.mem_cons, List.not_mem_nil, or_false] at listed
  obtain rfl | rfl := listed <;> rfl

theorem one_eq : one = 2 ^ finest := by
  unfold one finest
  generalize 1074 = shift
  rfl

theorem magnitude_fraction (digits places : Nat) :
    (Decimal.mk digits (-(places : Int))).magnitude = nearest digits (10 ^ places) := by
  simp [magnitude]

theorem magnitude_whole (digits zeros : Nat) :
    (Decimal.mk digits zeros).magnitude = nearest (digits * 10 ^ zeros) 1 := by
  simp [magnitude]

theorem ten_pow (n : Nat) : 10 ^ n = 5 ^ n * 2 ^ n := Nat.mul_pow 5 2 n

theorem magnitude_exact {m : Nat} (finite : m < infinity) : (exact m).magnitude = m := by
  have one_eq := one_eq
  unfold exact
  -- only the relation of the two powers matters, not what they are
  generalize finest = places at one_eq ⊢
  have ten : 10 ^ places = 5 ^ places * one := by rw [one_eq, ten_pow]
  rw [Nat.pow_eq, magnitude_fraction, ten, Nat.mul_comm, nearest_mul_left (Nat.pow_pos (by decide)),
    nearest_units finite]

theorem magnitude_shortestFrom {m : Nat} (finite : m < infinity) (steps : Nat) :
    (shortestFrom m steps).magnitude = m := by
  induction steps with
  | zero =>
    rw [shortestFrom]
    exact magnitude_exact finite
  | succ steps ih =>
    rw [shortestFrom]
    cases hit : onGrid m (steps + 1 - finest) with
    | some d => exact magnitude_of_onGrid hit
    | none => exact ih

theorem shortest_zero : shortest 0 = ⟨0, 0⟩ := rfl

theorem magnitude_zero : (Decimal.mk 0 0).magnitude = 0 := by
  simp [magnitude, nearest_eq, excess, roundHalfEven]

/-- The shortest decimal reads back. -/
theorem magnitude_shortest {m : Nat} (finite : m < infinity) : (shortest m).magnitude = m := by
  rw [shortest]
  split
  next zero => rw [zero, magnitude_zero]
  next => exact magnitude_shortestFrom finite _

variable {m n : Nat}

theorem onGrid_zero (finite : m < infinity) (whole : units m = n * one) :
    onGrid m 0 = some ⟨n, 0⟩ := by
  have reads : (Decimal.mk n 0).magnitude = m := by
    have value := magnitude_whole n 0
    rw [Nat.pow_zero, Nat.mul_one, ← nearest_mul_left one_positive n 1, Nat.mul_comm, Nat.mul_one,
      ← whole, nearest_units finite] at value
    exact value
  have near : roundHalfEven (units m) one = n := by rw [whole, roundHalfEven_mul n one_positive]
  have scale : Nat.pow 10 (0 : Int).toNat = 1 := rfl
  simp only [onGrid, Int.neg_zero, scale, Nat.mul_one, near]
  exact List.find?_cons_of_pos (by simpa using reads)

/-- A decimal that ends in zeros and has the digits of few bits keeps its value. -/
theorem units_of_whole {digits zeros : Nat} (finite : m < infinity)
    (reads : (Decimal.mk digits zeros).magnitude = m)
    (few : digits * 5 ^ zeros < 2 * fractions) : units m = digits * 10 ^ zeros * one := by
  rw [magnitude_whole] at reads
  subst reads
  refine units_nearest finite ?_
  have shifted : digits * 10 ^ zeros * one = digits * 5 ^ zeros * 2 ^ (zeros + finest) := by
    rw [one_eq, ten_pow, Nat.pow_add, ← Nat.mul_assoc, ← Nat.mul_assoc]
  rw [shifted]
  exact pow_excess_dvd few _

/-- Whole numbers of so many digits that end in a zero have no more bits than are kept. -/
def keptDigits : Nat := 16

theorem few_of_lt {digits zeros : Nat} (short : digits * 10 ^ (zeros + 1) < 10 ^ keptDigits) :
    digits * 5 ^ (zeros + 1) < 2 * fractions := by
  have two : 2 ≤ 2 ^ (zeros + 1) := Nat.le_self_pow (Nat.succ_ne_zero _) 2
  rw [ten_pow, ← Nat.mul_assoc] at short
  have half := Nat.lt_of_le_of_lt (Nat.mul_le_mul_left (digits * 5 ^ (zeros + 1)) two) short
  have bound : 10 ^ keptDigits < 4 * fractions := by decide
  omega

theorem shortestFrom_whole (finite : m < infinity) (whole : units m = n * one) (steps : Nat) :
    ∃ digits zeros : Nat, shortestFrom m (finest + steps) = ⟨digits, zeros⟩ ∧
      (digits * 10 ^ zeros < 10 ^ keptDigits → digits * 10 ^ zeros = n) := by
  induction steps with
  | zero =>
    obtain ⟨rest, last⟩ : ∃ rest, finest + 0 = rest + 1 := ⟨1073, rfl⟩
    have grid : (rest : Int) + 1 - finest = 0 := by omega
    rw [last, shortestFrom, grid, onGrid_zero finite whole]
    exact ⟨n, 0, rfl, fun _ => Nat.mul_one n⟩
  | succ steps ih =>
    have grid : ((finest + steps : Nat) : Int) + 1 - finest = ((steps + 1 : Nat) : Int) := by omega
    rw [← Nat.add_assoc, shortestFrom, grid]
    cases hit : onGrid m ((steps + 1 : Nat) : Int) with
    | none => exact ih
    | some d =>
      obtain ⟨digits, exponent⟩ := d
      obtain rfl := exponent_of_onGrid hit
      refine ⟨digits, steps + 1, rfl, fun short => ?_⟩
      have value := units_of_whole finite (magnitude_of_onGrid hit) (few_of_lt short)
      exact Nat.eq_of_mul_eq_mul_right one_positive (value.symm.trans whole)

/-- The shortest decimal of a positive whole number has no fraction, and if it has no more
digits than are kept then it is the number. -/
theorem shortest_whole (finite : m < infinity) (whole : units m = n * one) (positive : 0 < n) :
    ∃ digits zeros : Nat, shortest m = ⟨digits, zeros⟩ ∧
      (digits * 10 ^ zeros < 10 ^ keptDigits → digits * 10 ^ zeros = n) := by
  have log := le_log2_mul_one positive
  obtain ⟨steps, enough⟩ : ∃ steps, coarsest m = finest + steps := by
    refine ⟨coarsest m - finest, ?_⟩
    rw [coarsest, whole, finest]
    omega
  have some : m ≠ 0 := by
    rintro rfl
    exact absurd whole.symm (Nat.ne_of_gt (Nat.mul_pos positive one_positive))
  rw [shortest, if_neg some, enough]
  exact shortestFrom_whole finite whole steps

end TreeWalk.Decimal
