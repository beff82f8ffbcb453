import Mathlib

/-!
# 64-bit words

Arithmetic of 64-bit words as the numbers that they stand for.
-/

namespace CosmoRuby.Lib

theorem and_digits {k a b : Nat} (x y : Nat) (ha : a < 2 ^ k) (hb : b < 2 ^ k) :
    (2 ^ k * x + a) &&& (2 ^ k * y + b) = 2 ^ k * (x &&& y) + (a &&& b) := by
  apply Nat.eq_of_testBit_eq
  intro i
  rw [Nat.testBit_and, Nat.testBit_two_pow_mul_add x ha, Nat.testBit_two_pow_mul_add y hb,
    Nat.testBit_two_pow_mul_add _ (Nat.and_lt_two_pow a hb)]
  split <;> rw [Nat.testBit_and]

theorem and_not_one (x : BitVec 64) : x &&& ~~~(1 : BitVec 64) = (x >>> 1) <<< 1 := by
  rw [BitVec.shiftLeft_ushiftRight]
  rfl

theorem toNat_and_not_one (x : BitVec 64) :
    (x &&& ~~~(1 : BitVec 64)).toNat = x.toNat / 2 * 2 := by
  have hx := x.isLt
  rw [and_not_one, BitVec.toNat_shiftLeft, BitVec.toNat_ushiftRight, Nat.shiftRight_eq_div_pow,
    Nat.shiftLeft_eq]
  omega

end CosmoRuby.Lib
