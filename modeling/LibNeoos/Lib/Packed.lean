import Mathlib.Data.List.Basic
/-!
# Blocks packed one after another

A batch of blocks of different lengths is stored as one flat list, and a cursor
walks over it by adding the length of each block it passes. After `c` blocks
the cursor is at `((l.take c).flatten).length`.
-/

namespace LibNeoos.Lib.Packed

variable {α : Type}

/-- The offset of block number `c`. -/
def offset (l : List (List α)) (c : Nat) : Nat := (l.take c).flatten.length

@[simp] theorem offset_zero (l : List (List α)) : offset l 0 = 0 := rfl

theorem offset_length (l : List (List α)) : offset l l.length = l.flatten.length := by
  rw [offset, List.take_length]

theorem flatten_split (l : List (List α)) (c : Nat) : l.flatten = (l.take c).flatten ++ (l.drop c).flatten := by
  rw [← List.flatten_append, List.take_append_drop]

/-- What is stored from the offset of block `c` on are the blocks from `c` on. -/
theorem drop_offset (l : List (List α)) (c : Nat) : l.flatten.drop (offset l c) = (l.drop c).flatten := by
  rw [flatten_split l c, offset, List.drop_left]

theorem offset_succ {l : List (List α)} {c : Nat} (h : c < l.length) :
    offset l (c + 1) = offset l c + l[c].length := by
  rw [offset, offset, List.take_succ_eq_append_getElem h, List.flatten_append, List.length_append]
  simp

theorem offset_le (l : List (List α)) (c : Nat) : offset l c ≤ l.flatten.length := by
  rw [offset, flatten_split l c, List.length_append]
  exact Nat.le_add_right _ _

/-- With no empty block, the cursor is at the end only behind the last block. -/
theorem offset_lt {l : List (List α)} (hl : ∀ b ∈ l, b ≠ []) {c : Nat} (h : c < l.length) :
    offset l c < l.flatten.length := by
  have hne : (l.drop c).flatten ≠ [] := by
    rw [List.drop_eq_getElem_cons h, List.flatten_cons]
    intro hnil
    exact hl _ (List.getElem_mem h) (List.append_eq_nil_iff.1 hnil).1
  have hlen := congrArg List.length (drop_offset l c)
  rw [List.length_drop] at hlen
  have := List.length_pos_iff.2 hne
  omega

/-- The block at the cursor. -/
theorem take_drop_offset {l : List (List α)} {c : Nat} (h : c < l.length) :
    (l.flatten.drop (offset l c)).take l[c].length = l[c] := by
  rw [drop_offset, List.drop_eq_getElem_cons h, List.flatten_cons]
  exact List.take_left

end LibNeoos.Lib.Packed
