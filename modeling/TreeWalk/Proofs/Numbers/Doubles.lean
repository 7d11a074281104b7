import TreeWalk.Proofs.Numbers.Magnitudes
import Mathlib

/-!
# Doubles without a sign

A double whose sign bit is not set is the same as its magnitude, up to that of infinity.

## Implementation notes

A double is made of bits by unpacking them and packing the result, which is the identity
on all bits but those of a number that is no number. No magnitude up to that of infinity
is one of those: with its exponent full it has no fraction.
-/

namespace TreeWalk.Binary64

open Float.Model (UnpackedFloat Format)

theorem valid_of_le {b : BitVec Format.binary64.numBits} (le : b.toNat ≤ infinity) :
    Format.binary64.Valid b := by
  refine ⟨fun full fraction => absurd (BitVec.eq_of_toNat_eq ?_) fraction⟩
  have exponent := congrArg BitVec.toNat full
  simp [UnpackedFloat.unpackExponent, UnpackedFloat.unpackMantissa, infinity,
    Nat.shiftRight_eq_div_pow] at le exponent ⊢
  omega

theorem toBits_ofBits {b : UInt64} (le : b.toNat ≤ infinity) : (Float.ofBits b).toBits = b :=
  congrArg UInt64.ofBitVec (UnpackedFloat.pack_unpack_of_valid (valid_of_le le))

variable {m : Nat} {x : Float}

/-- The bits of a magnitude are the magnitude. -/
theorem toNat_toBits_toFloat (le : m ≤ infinity) : (toFloat false m).toBits.toNat = m := by
  have small : m < 2 ^ 64 := Nat.lt_of_le_of_lt le (by decide)
  have same : (UInt64.ofNat m).toNat = m := UInt64.toNat_ofNat_of_lt' small
  change (Float.ofBits (UInt64.ofNat m)).toBits.toNat = m
  rw [toBits_ofBits (by rwa [same]), same]

theorem ofFloat_toFloat (le : m ≤ infinity) : ofFloat (toFloat false m) = m := by
  rw [ofFloat, toNat_toBits_toFloat le]
  exact Nat.mod_eq_of_lt (Nat.lt_of_le_of_lt le (by decide))

theorem isNegative_toFloat (le : m ≤ infinity) : isNegative (toFloat false m) = false := by
  rw [isNegative, toNat_toBits_toFloat le]
  exact decide_eq_false (Nat.not_le.2 (Nat.lt_of_le_of_lt le (by decide)))

theorem toFloat_ofFloat (unsigned : isNegative x = false) : toFloat false (ofFloat x) = x := by
  have small : x.toBits.toNat < signBit := Nat.not_le.1 (of_decide_eq_false unsigned)
  rw [ofFloat, Nat.mod_eq_of_lt small]
  change Float.ofBits (UInt64.ofNat x.toBits.toNat) = x
  rw [UInt64.ofNat_toNat, Float.ofBits_toBits]

/-- A number without a sign: finite or infinite, but no number that is no number. -/
structure IsUnsigned (x : Float) : Prop where
  positive : isNegative x = false
  le : ofFloat x ≤ infinity

theorem isUnsigned_toFloat (le : m ≤ infinity) : IsUnsigned (toFloat false m) :=
  ⟨isNegative_toFloat le, Nat.le_of_eq (ofFloat_toFloat le) |>.trans le⟩

end TreeWalk.Binary64
