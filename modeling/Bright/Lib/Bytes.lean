import Mathlib.Data.Nat.Bitwise
import Mathlib.Order.Lattice

/-!
# The bytes of a 64-bit word

A word is determined by its eight bytes (`eq_of_byteAt`).  The bytes of a
disjunction are those of its parts, and a byte that is shifted by a multiple of
eight below 64 stands in one place alone (`byteAt_shiftLeft`).
-/

namespace Bright.Lib

namespace Bytes

/-- The byte at a place, the lowest at place zero. -/
def byteAt (value : UInt64) (k : ℕ) : UInt8 :=
  UInt8.ofNat (value.toNat >>> (8 * k))

theorem testBit_byteAt (value : UInt64) (k bit : ℕ) :
    (byteAt value k).toNat.testBit bit =
      (decide (bit < 8) && value.toNat.testBit (8 * k + bit)) := by
  rw [byteAt, UInt8.toNat_ofNat', Nat.testBit_mod_two_pow,
    Nat.testBit_shiftRight]

theorem testBit_of_high (c : UInt8) {bit : ℕ} (high : 8 ≤ bit) :
    c.toNat.testBit bit = false := by
  apply Nat.testBit_lt_two_pow
  calc
    c.toNat < 2 ^ 8 := c.toNat_lt
    _ ≤ 2 ^ bit := Nat.pow_le_pow_right (by decide) high

theorem eq_of_testBit {first second : UInt8}
    (bits : ∀ bit, first.toNat.testBit bit = second.toNat.testBit bit) :
    first = second :=
  UInt8.toNat_inj.mp (Nat.eq_of_testBit_eq bits)

theorem eq_of_byteAt {first second : UInt64}
    (bytes : ∀ k < 8, byteAt first k = byteAt second k) : first = second := by
  apply UInt64.toNat_inj.mp
  apply Nat.eq_of_testBit_eq
  intro bit
  rcases Nat.lt_or_ge bit 64 with inside | outside
  · have same := congrArg (fun c : UInt8 => c.toNat.testBit (bit % 8))
      (bytes (bit / 8) (by omega))
    have place : 8 * (bit / 8) + bit % 8 = bit := Nat.div_add_mod bit 8
    have digit : bit % 8 < 8 := Nat.mod_lt bit (by decide)
    simpa only [testBit_byteAt, place, digit, decide_true, Bool.true_and]
      using same
  · have high : ∀ value : UInt64, value.toNat.testBit bit = false := by
      intro value
      apply Nat.testBit_lt_two_pow
      calc
        value.toNat < 2 ^ 64 := value.toNat_lt
        _ ≤ 2 ^ bit := Nat.pow_le_pow_right (by decide) outside
    rw [high first, high second]

@[simp] theorem byteAt_zero (k : ℕ) : byteAt 0 k = 0 := by
  rw [byteAt, UInt64.toNat_zero, Nat.zero_shiftRight]
  rfl

theorem byteAt_or (first second : UInt64) (k : ℕ) :
    byteAt (first ||| second) k = byteAt first k ||| byteAt second k := by
  apply eq_of_testBit
  intro bit
  rw [UInt8.toNat_or, Nat.testBit_or]
  simp only [testBit_byteAt, UInt64.toNat_or, Nat.testBit_or,
    Bool.and_or_distrib_left]

/-- A byte moved up by `place` bytes. -/
theorem byteAt_shiftLeft (c : UInt8) {shift : UInt64} {place : ℕ}
    (amount : shift.toNat = 8 * place) (fits : place < 8) (k : ℕ) :
    byteAt (c.toUInt64 <<< shift) k = if place = k then c else 0 := by
  have small : shift.toNat % 64 = 8 * place := by omega
  apply eq_of_testBit
  intro bit
  rw [testBit_byteAt, UInt64.toNat_shiftLeft, small, Nat.testBit_mod_two_pow,
    Nat.testBit_shiftLeft, UInt8.toNat_toUInt64]
  rcases Nat.lt_or_ge bit 8 with low | high
  · rcases Nat.lt_trichotomy place k with below | same | above
    · have beyond : 8 ≤ 8 * k + bit - 8 * place := by omega
      rw [testBit_of_high c beyond, if_neg (Nat.ne_of_lt below)]
      simp
    · subst same
      have room : 8 * place + bit < 64 := by omega
      simp [low, room]
    · have before : ¬ 8 * k + bit ≥ 8 * place := by omega
      rw [if_neg (Nat.ne_of_gt above)]
      simp [before]
  · have out : ¬ bit < 8 := Nat.not_lt.mpr high
    have none : (if place = k then c else 0).toNat.testBit bit = false :=
      testBit_of_high _ high
    rw [none]
    simp [out]

theorem byteAt_toUInt64 (c : UInt8) (k : ℕ) :
    byteAt c.toUInt64 k = if 0 = k then c else 0 := by
  have unmoved : c.toUInt64 <<< (0 : UInt64) = c.toUInt64 := by simp
  have still : (0 : UInt64).toNat = 8 * 0 := rfl
  rw [← byteAt_shiftLeft c still (by decide) k, unmoved]

end Bytes

end Bright.Lib
