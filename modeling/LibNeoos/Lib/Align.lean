import Mathlib.Data.Nat.Bitwise
/-!
# Rounding up, and copies that are shifted

`roundup v a` is the least multiple of `a` that is at least `v`. For a power of two
the masked sum `(v + a - 1) & ~(a - 1)` of machine words computes it.

`shifted_eq_iff` is about a finite block of values, followed by zeros, that is
looked at with an offset: one sees the same values only if the offset is 0 or all of
them are 0.
-/

namespace LibNeoos.Lib

/-! ## Rounding up -/

/-- The least multiple of `a` that is at least `v`. -/
def roundup (v a : Nat) : Nat := (v + a - 1) / a * a

theorem le_roundup {v a : Nat} (ha : 0 < a) : v ≤ roundup v a := by
  have h1 := Nat.div_add_mod (v + a - 1) a
  have h2 := Nat.mod_lt (v + a - 1) ha
  unfold roundup
  rw [Nat.mul_comm]
  omega

theorem roundup_lt {v a : Nat} (ha : 0 < a) : roundup v a < v + a := by
  have := Nat.div_mul_le_self (v + a - 1) a
  unfold roundup
  omega

theorem dvd_roundup {v a : Nat} : a ∣ roundup v a := Nat.dvd_mul_left ..

theorem roundup_le {v a n : Nat} (ha : 0 < a) (hn : a ∣ n) (hv : v ≤ n) : roundup v a ≤ n := by
  obtain ⟨c, rfl⟩ := hn
  unfold roundup
  rw [Nat.mul_comm a c]
  apply Nat.mul_le_mul_right
  have : (v + a - 1) / a < c + 1 := by
    rw [Nat.div_lt_iff_lt_mul ha, Nat.add_mul, Nat.mul_comm c a]
    omega
  omega

/-- A coarser grid rounds higher. -/
theorem roundup_mono_of_dvd {v a b : Nat} (ha : 0 < a) (hb : 0 < b) (h : a ∣ b) : roundup v a ≤ roundup v b :=
  roundup_le ha (h.trans dvd_roundup) (le_roundup hb)

/-! ## The masked sum -/

theorem testBit_clear_low (x k i : Nat) : (x / 2 ^ k * 2 ^ k).testBit i = (decide (k ≤ i) && x.testBit i) := by
  rw [Nat.testBit_mul_two_pow]
  by_cases h : k ≤ i
  · simp [h, Nat.testBit_div_two_pow]
  · simp [h]

theorem toNat_sub_one {w : Nat} {a : BitVec w} (ha : 0 < a.toNat) : (a - 1).toNat = a.toNat - 1 := by
  have hw : 1 < 2 ^ w ∨ w = 0 := by
    cases w with
    | zero => exact .inr rfl
    | succ n => exact .inl (Nat.one_lt_two_pow (by omega))
  rcases hw with hw | rfl
  · have h1 : (1 : BitVec w).toNat = 1 := by
      simpa using Nat.mod_eq_of_lt hw
    rw [BitVec.toNat_sub_of_le, h1]
    rw [BitVec.le_def, h1]
    exact ha
  · have := a.isLt
    omega

/-- Clearing the low bits of a word. -/
theorem toNat_clear_low {w : Nat} {x a : BitVec w} {k : Nat} (ha : a.toNat = 2 ^ k) :
    (x &&& ~~~(a - 1)).toNat = x.toNat / 2 ^ k * 2 ^ k := by
  have hsub : (a - 1).toNat = 2 ^ k - 1 := by rw [toNat_sub_one (by rw [ha]; exact Nat.two_pow_pos k), ha]
  apply Nat.eq_of_testBit_eq
  intro i
  rw [testBit_clear_low, BitVec.toNat_and, Nat.testBit_and, BitVec.testBit_toNat (~~~(a - 1)), BitVec.getLsbD_not,
    ← BitVec.testBit_toNat (a - 1), hsub, Nat.testBit_two_pow_sub_one]
  by_cases hi : i < w
  · by_cases hik : i < k
    · simp [hi, hik]
    · simp [hi, hik, Nat.not_lt.1 hik]
  · rw [BitVec.testBit_toNat, BitVec.getLsbD_of_ge x i (by omega)]
    simp

/-- The masked sum rounds up, where the sum does not wrap. -/
theorem toNat_masked_sum {w : Nat} {v a : BitVec w} {k : Nat} (ha : a.toNat = 2 ^ k) (h : v.toNat + a.toNat ≤ 2 ^ w) :
    ((v + a - 1) &&& ~~~(a - 1)).toNat = roundup v.toNat a.toNat := by
  have hpos : 0 < a.toNat := by
    rw [ha]
    exact Nat.two_pow_pos k
  have hsum : (v + a - 1).toNat = v.toNat + a.toNat - 1 := by
    have hassoc : v + a - 1 = v + (a - 1) := by
      rw [BitVec.sub_eq_add_neg, BitVec.add_assoc, ← BitVec.sub_eq_add_neg]
    have hlt : v.toNat + (a - 1).toNat < 2 ^ w := by
      rw [toNat_sub_one hpos]
      omega
    rw [hassoc, BitVec.toNat_add_of_lt hlt, toNat_sub_one hpos]
    omega
  rw [toNat_clear_low ha, hsum, roundup, ha]

/-! ## Shifted copies -/

/-- A block of `n` values with zeros behind it, looked at `d` further on. -/
theorem shifted_eq_iff {α : Type} [Zero α] {z : Nat → α} {n d k : Nat} (hz : ∀ i, n ≤ i → z i = 0) (hk : n ≤ k) :
    (∀ i < k, z (d + i) = z i) ↔ d = 0 ∨ ∀ i < n, z i = 0 := by
  constructor
  · intro h
    by_cases hd : d = 0
    · exact .inl hd
    · right
      -- from the end of the block down: the value seen in place of `z i` is one further on
      have hdown : ∀ j i, n ≤ i + j → z i = 0 := by
        intro j
        induction j with
        | zero => exact fun i hi => hz i hi
        | succ j ih =>
          intro i hi
          by_cases hin : i < n
          · rw [← h i (by omega)]
            exact ih (d + i) (by omega)
          · exact hz i (by omega)
      exact fun i _ => hdown n i (by omega)
  · rintro (rfl | h) i _
    · rw [Nat.zero_add]
    · have hall : ∀ j, z j = 0 := fun j => if hj : j < n then h j hj else hz j (by omega)
      rw [hall, hall]

end LibNeoos.Lib
