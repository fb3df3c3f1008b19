import Mathlib.Data.List.Basic
/-!
# A cursor in a buffer

Code that fills a buffer stores a byte and goes on to the next place. A store behind
the end of the buffer has no defined result. What the code has done is seen in two
lists: the bytes written so far, and the rest of the buffer, as it was.
-/

namespace LibNeoos.Lib

/-- A buffer and a position in it. -/
structure Cursor where
  buf : List UInt8
  pos : Nat
  fits : pos ≤ buf.length

namespace Cursor

/-- `buf[pos++] = b` -/
def put (c : Cursor) (b : UInt8) : Option Cursor :=
  if h : c.pos < c.buf.length then some ⟨c.buf.set c.pos b, c.pos + 1, by rw [List.length_set]; exact h⟩ else none

def puts (c : Cursor) (bs : List UInt8) : Option Cursor := bs.foldlM put c

/-- What is in front of the position. -/
def written (c : Cursor) : List UInt8 := c.buf.take c.pos

/-- What is at the position and behind it. -/
def left (c : Cursor) : List UInt8 := c.buf.drop c.pos

theorem buf_eq (c : Cursor) : c.buf = c.written ++ c.left := (List.take_append_drop ..).symm

theorem length_written (c : Cursor) : c.written.length = c.pos := by
  rw [written, List.length_take, Nat.min_eq_left c.fits]

theorem length_left (c : Cursor) : c.left.length = c.buf.length - c.pos := List.length_drop ..

/-- The cursor at the start of a buffer. -/
def start (buf : List UInt8) : Cursor := ⟨buf, 0, Nat.zero_le _⟩

@[simp] theorem written_start (buf : List UInt8) : (start buf).written = [] := rfl

@[simp] theorem left_start (buf : List UInt8) : (start buf).left = buf := rfl

/-- A store where there is room. -/
theorem put_spec {c : Cursor} (h : c.left ≠ []) (b : UInt8) :
    ∃ c', c.put b = some c' ∧ c'.written = c.written ++ [b] ∧ c'.left = c.left.tail := by
  have hlt : c.pos < c.buf.length := by
    rw [← List.length_pos_iff, length_left] at h
    omega
  refine ⟨_, dif_pos hlt, ?_, ?_⟩
  · simp only [written]
    rw [List.take_succ_eq_append_getElem (by simpa using hlt), List.getElem_set_self,
      List.take_set_of_le (Nat.le_refl _)]
  · simp only [left]
    rw [List.drop_set_of_lt (Nat.lt_succ_self _), List.tail_drop]

/-- As many stores as there is room for. -/
theorem puts_spec {c : Cursor} {bs : List UInt8} (h : bs.length ≤ c.left.length) :
    ∃ c', c.puts bs = some c' ∧ c'.written = c.written ++ bs ∧ c'.left = c.left.drop bs.length := by
  induction bs generalizing c with
  | nil => exact ⟨c, rfl, (List.append_nil _).symm, rfl⟩
  | cons b bs ih =>
    rw [List.length_cons] at h
    have hne : c.left ≠ [] := by
      intro h0
      rw [h0, List.length_nil] at h
      omega
    obtain ⟨c₁, hput, hw₁, hl₁⟩ := put_spec hne b
    obtain ⟨c₂, hputs, hw₂, hl₂⟩ := ih (c := c₁) (by rw [hl₁, List.length_tail]; omega)
    refine ⟨c₂, ?_, ?_, ?_⟩
    · rw [puts, List.foldlM_cons, hput]
      exact hputs
    · rw [hw₂, hw₁, List.append_assoc, List.singleton_append]
    · rw [hl₂, hl₁, List.length_cons, ← List.drop_one, List.drop_drop, Nat.add_comm]

theorem puts_append (c : Cursor) (bs cs : List UInt8) : c.puts (bs ++ cs) = (c.puts bs).bind (·.puts cs) :=
  List.foldlM_append

theorem puts_singleton (c : Cursor) (b : UInt8) : c.puts [b] = c.put b := by
  rw [puts, List.foldlM_cons]
  cases c.put b <;> rfl

/-- A text and the zero that ends it, at the start of a buffer with room for both. -/
theorem puts_text {s buf : List UInt8} (h : s.length + 1 ≤ buf.length) :
    ∃ c, ((start buf).puts s).bind (·.put 0) = some c ∧ c.buf = s ++ 0 :: buf.drop (s.length + 1) := by
  have hroom : (s ++ [0]).length ≤ (start buf).left.length := by
    rw [List.length_append]
    exact h
  obtain ⟨c, hputs, hw, hl⟩ := puts_spec hroom
  refine ⟨c, ?_, ?_⟩
  · rw [← hputs, puts_append]
    simp only [puts_singleton]
  · rw [c.buf_eq, hw, hl, written_start, left_start, List.nil_append, List.append_assoc, List.length_append]
    rfl

end Cursor

end LibNeoos.Lib
