import Mathlib.Data.List.Basic
/-!
# Buffers of fixed size

An array of `n` elements, as a local of a function is: what it holds at first is
whatever was there. A write has to fit (`poke`), and `recv` puts a message into it the
way a kernel does: what does not fit is cut off, and what is behind the message stays.

What matters of a buffer is the part that has been written: adjacent writes from the
start are one list (`poke_take`), and after `recv` the first elements are the message
(`recv_take`), whatever the buffer held before.
-/

namespace LibNeoos.Lib

variable {α : Type} {n : Nat}

structure Buffer (α : Type) (n : Nat) where
  elems : List α
  size : elems.length = n

namespace Buffer

/-- Write `xs` from position `i` on. -/
def poke (b : Buffer α n) (i : Nat) (xs : List α) (h : i + xs.length ≤ n) : Buffer α n :=
  ⟨b.elems.take i ++ xs ++ b.elems.drop (i + xs.length), by
    have hsize := b.size
    simp only [List.length_append, List.length_take, List.length_drop]
    omega⟩

theorem poke_elems (b : Buffer α n) {i : Nat} {xs : List α} (h : i + xs.length ≤ n) :
    (b.poke i xs h).elems = b.elems.take i ++ xs ++ b.elems.drop (i + xs.length) := rfl

/-- What is written is behind what was there before it. -/
theorem poke_take (b : Buffer α n) {i : Nat} {xs : List α} (h : i + xs.length ≤ n) :
    (b.poke i xs h).elems.take (i + xs.length) = b.elems.take i ++ xs := by
  have hsize := b.size
  have hlen : (b.elems.take i ++ xs).length = i + xs.length := by
    simp only [List.length_append, List.length_take]
    omega
  calc (b.poke i xs h).elems.take (i + xs.length)
      = (b.elems.take i ++ xs ++ b.elems.drop (i + xs.length)).take (b.elems.take i ++ xs).length := by
        rw [hlen, poke_elems]
    _ = b.elems.take i ++ xs := List.take_left

/-- A message of any length arrives; the number is that of the elements written. -/
def recv (b : Buffer α n) (msg : List α) : Buffer α n × Nat :=
  (⟨msg.take n ++ b.elems.drop (msg.take n).length, by
    have hsize := b.size
    simp only [List.length_append, List.length_take, List.length_drop]
    omega⟩, (msg.take n).length)

theorem recv_take (b : Buffer α n) (msg : List α) : (b.recv msg).1.elems.take (b.recv msg).2 = msg.take n :=
  List.take_left

theorem recv_count (b : Buffer α n) (msg : List α) : (b.recv msg).2 = min msg.length n := by
  show (msg.take n).length = min msg.length n
  rw [List.length_take, Nat.min_comm]

end Buffer

end LibNeoos.Lib
