import Mathlib

/-!
# Bit-flag sets

The three conversions the `bitflags!` macro gives a flag set declared with the
flags `all`: `from_bits` refuses a word with a bit that no flag declares,
`from_bits_truncate` drops such bits, and `contains` tests a set of flags.  The
words here are natural numbers; a `u32` word has its bits below 32.

A flag set kept as a bit vector of its width is a set of bits: `a &&& b = a` says
that `a` is a subset of `b`, and `a &&& b = 0` that the two are disjoint.
-/

namespace Bitflags

/-- `from_bits`: the word, when each of its bits is declared in `all`. -/
def fromBits (all bits : Nat) : Option Nat := if bits &&& all = bits then some bits else none

/-- `from_bits_truncate`: the word with the undeclared bits cleared. -/
def fromBitsTruncate (all bits : Nat) : Nat := bits &&& all

/-- `contains`: every flag of `other` is set in `flags`. -/
def contains (flags other : Nat) : Bool := flags &&& other == other

variable {all bits b : Nat}

theorem fromBits_eq_none_iff : fromBits all bits = none ↔ bits &&& all ≠ bits := by
  by_cases declared : bits &&& all = bits
  · simp [fromBits, declared]
  · simp [fromBits, declared]

/-! ## Flag sets as bit vectors -/

section Sets

variable {w : Nat} {a b e : BitVec w}

theorem subset_or_of_subset (sub : a &&& b = a) (c : BitVec w) : a &&& (b ||| c) = a := by
  rw [BitVec.and_or_distrib_left, sub]
  ext i
  simp only [BitVec.getElem_or, BitVec.getElem_and]
  cases a[i] <;> simp

theorem subset_or_self (a b : BitVec w) : a &&& (b ||| a) = a := by
  ext i
  simp only [BitVec.getElem_or, BitVec.getElem_and]
  cases a[i] <;> simp

theorem subset_trans {c : BitVec w} (ab : a &&& b = a) (bc : b &&& c = b) : a &&& c = a := by
  rw [← ab, BitVec.and_assoc, bc]

theorem disjoint_of_subset (sub : a &&& b = a) (apart : b &&& e = 0#w) : a &&& e = 0#w := by
  rw [← sub, BitVec.and_assoc, apart, BitVec.and_zero]

theorem disjoint_or_iff : e &&& (a ||| b) = 0#w ↔ e &&& a = 0#w ∧ e &&& b = 0#w := by
  rw [BitVec.and_or_distrib_left, BitVec.or_eq_zero_iff]

end Sets

/-! ## Masks that round down -/

/-- Clearing the low `k` bits of a word of `w` bits, with the mask `2^w - 2^k`, rounds it down
to a multiple of `2^k`. -/
theorem and_two_pow_sub_two_pow {x w k : Nat} (hk : k ≤ w) (hx : x < 2 ^ w) :
    x &&& (2 ^ w - 2 ^ k) = x / 2 ^ k * 2 ^ k := by
  apply Nat.eq_of_testBit_eq
  intro i
  have mask : 2 ^ w - 2 ^ k = (2 ^ (w - k) - 1) * 2 ^ k := by
    rw [Nat.sub_mul, Nat.one_mul, ← Nat.pow_add, Nat.sub_add_cancel hk]
  rw [Nat.testBit_and, mask, Nat.testBit_mul_two_pow, Nat.testBit_mul_two_pow,
    Nat.testBit_two_pow_sub_one, Nat.testBit_div_two_pow]
  by_cases low : k ≤ i
  · rw [Nat.sub_add_cancel low]
    by_cases high : i < w
    · simp [low]
      omega
    · -- the bits of `x` stop below `w`
      have beyond : x.testBit i = false :=
        Nat.testBit_lt_two_pow (Nat.lt_of_lt_of_le hx (Nat.pow_le_pow_right (by omega) (by omega)))
      simp [low, beyond]
  · simp [low]

end Bitflags
