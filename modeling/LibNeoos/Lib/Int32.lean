import Mathlib.Tactic.Ring
/-!
# The `int` of 32 bits

A C `int` is an `Int` here; `int32` is what it holds after an operation that can leave
its range, with the remainder taken in two's complement.
-/

namespace LibNeoos.Lib

/-- The value a 32-bit `int` holds after an operation with the exact result `x`. -/
def int32 (x : Int) : Int := x.bmod (2 ^ 32)

@[simp] abbrev INT_MAX : Int := 2147483647

/-- The values of an `int32_t`. -/
def IsInt32 (v : Int) : Prop := -2 ^ 31 ≤ v ∧ v < 2 ^ 31

instance (v : Int) : Decidable (IsInt32 v) := inferInstanceAs (Decidable (_ ∧ _))

theorem int32_isInt32 (x : Int) : IsInt32 (int32 x) := by
  have hle := @Int.le_bmod x (2 ^ 32) (by decide)
  have hlt := @Int.bmod_lt x (2 ^ 32) (by decide)
  unfold IsInt32 int32
  omega

theorem int32_le_max (x : Int) : int32 x ≤ INT_MAX := by
  have h := (int32_isInt32 x).2
  rw [INT_MAX]
  omega

theorem int32_of_range {x : Int} (h : -2 ^ 31 ≤ x) (h' : x < 2 ^ 31) : int32 x = x := by
  unfold int32
  rw [Int.bmod_eq_of_le (by omega) (by omega)]

theorem int32_of_lt {n : Nat} (h : n < 2 ^ 31) : int32 n = n := int32_of_range (by omega) (by omega)

theorem int32_succ (x : Int) : int32 (int32 x + 1) = int32 (x + 1) := by
  simp [int32]

theorem int32_mul_add (a b d : Int) : int32 (int32 a * b + d) = int32 (a * b + d) := by
  rw [int32, int32, int32, ← Int.bmod_add_bmod, Int.bmod_mul_bmod, Int.bmod_add_bmod]

theorem int32_inj {x y : Nat} (h : int32 x = int32 y) (hle : y ≤ x) (hlt : x - y < 2 ^ 32) : x = y := by
  have hmod : (x : Int) % (2 ^ 32 : Nat) = y % (2 ^ 32 : Nat) := by
    rw [← Int.bmod_emod (x := x), ← Int.bmod_emod (x := y)]
    exact congrArg (· % ((2 ^ 32 : Nat) : Int)) h
  omega

/-- An unsigned number that does not fit an `int` becomes a negative one. -/
theorem int32_nonneg_iff {n : Nat} (h : n < 2 ^ 32) : 0 ≤ int32 n ↔ (n : Int) ≤ INT_MAX := by
  simp only [int32, Int.bmod_def, INT_MAX]
  split <;> omega

end LibNeoos.Lib
