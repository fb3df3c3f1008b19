import Mathlib.Data.Nat.Bitwise
import Mathlib.Data.Nat.Digits.Defs
/-!
# Masks and bytes

Masked words as remainders, and a number of four bytes: put together with `|||`, taken
apart with quotients.
-/

namespace LibNeoos.Lib

/-- The low bits. -/
theorem toNat_and_mask {w : Nat} (v : BitVec w) {k : Nat} (hk : k ≤ w) :
    (v &&& BitVec.ofNat w (2 ^ k - 1)).toNat = v.toNat % 2 ^ k := by
  have hlt : 2 ^ k - 1 < 2 ^ w := by
    have hle : 2 ^ k ≤ 2 ^ w := Nat.pow_le_pow_right (by decide) hk
    have hpos := Nat.two_pow_pos k
    omega
  rw [BitVec.toNat_and, BitVec.toNat_ofNat, Nat.mod_eq_of_lt hlt, Nat.and_two_pow_sub_one_eq_mod]

/-- A byte of a number, masked out. -/
theorem and_byte (x k : Nat) : x &&& 255 * 2 ^ k = x / 2 ^ k % 256 * 2 ^ k := by
  have h255 : 255 = 2 ^ 8 - 1 := rfl
  have h256 : 256 = 2 ^ 8 := rfl
  apply Nat.eq_of_testBit_eq
  intro i
  rw [Nat.testBit_and, Nat.testBit_mul_two_pow, Nat.testBit_mul_two_pow, h255, h256, Nat.testBit_two_pow_sub_one,
    Nat.testBit_mod_two_pow, Nat.testBit_div_two_pow]
  by_cases hi : k ≤ i
  · rw [Nat.sub_add_cancel hi]
    simp [hi, Bool.and_comm]
  · simp [hi]

/-- Four bytes side by side. -/
theorem or_bytes {x y z w : Nat} (hy : y < 256) (hz : z < 256) (hw : w < 256) :
    x * 2 ^ 24 ||| y * 2 ^ 16 ||| z * 2 ^ 8 ||| w = x * 2 ^ 24 + y * 2 ^ 16 + z * 2 ^ 8 + w := by
  rw [Nat.or_assoc, Nat.or_assoc, Nat.mul_comm x, Nat.mul_comm y, Nat.mul_comm z,
    ← Nat.two_pow_add_eq_or_of_lt (i := 8) hw, ← Nat.two_pow_add_eq_or_of_lt (i := 16) (by omega),
    ← Nat.two_pow_add_eq_or_of_lt (i := 24) (by omega)]
  omega

theorem bytes_of_sum {x y z w : Nat} (hy : y < 256) (hz : z < 256) (hw : w < 256) :
    (x * 2 ^ 24 + y * 2 ^ 16 + z * 2 ^ 8 + w) % 256 = w ∧
    (x * 2 ^ 24 + y * 2 ^ 16 + z * 2 ^ 8 + w) / 2 ^ 8 % 256 = z ∧
    (x * 2 ^ 24 + y * 2 ^ 16 + z * 2 ^ 8 + w) / 2 ^ 16 % 256 = y ∧
    (x * 2 ^ 24 + y * 2 ^ 16 + z * 2 ^ 8 + w) / 2 ^ 24 = x := by
  have h₁ : (x * 2 ^ 24 + y * 2 ^ 16 + z * 2 ^ 8 + w) / 2 ^ 8 = x * 2 ^ 16 + y * 2 ^ 8 + z := by omega
  have h₂ : (x * 2 ^ 24 + y * 2 ^ 16 + z * 2 ^ 8 + w) / 2 ^ 16 = x * 2 ^ 8 + y := by omega
  omega

theorem ofDigits_four (a b c d : Nat) :
    Nat.ofDigits 256 [a, b, c, d] = d * 2 ^ 24 + c * 2 ^ 16 + b * 2 ^ 8 + a := by
  simp only [Nat.ofDigits_cons, Nat.ofDigits_nil]
  omega

end LibNeoos.Lib
