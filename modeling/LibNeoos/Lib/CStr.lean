import Mathlib.Data.List.TakeWhile
/-!
# Strings in memory

A pointer is the list of the bytes that can be read from it on: `*p` is its head,
`p++` its tail, and a read of the empty list has no defined result. A pointer to a
string has a zero byte among them; a function that returns for every such pointer,
also for one with nothing behind the zero, never reads past it.
-/

namespace LibNeoos.Lib

/-- A pointer to a string. -/
structure CStr where
  mem : List UInt8
  terminated : 0 ∈ mem

namespace CStr

/-- The bytes before the zero that ends the string. -/
def text (s : CStr) : List UInt8 := s.mem.takeWhile (· ≠ 0)

/-- What can be read behind the zero. -/
def behind (s : CStr) : List UInt8 := (s.mem.dropWhile (· ≠ 0)).tail

theorem zero_notMem (s : CStr) : 0 ∉ s.text := by
  intro h
  simpa using List.mem_takeWhile_imp h

theorem split_at_zero {l : List UInt8} (h : 0 ∈ l) :
    l = l.takeWhile (· ≠ 0) ++ 0 :: (l.dropWhile (· ≠ 0)).tail := by
  induction l with
  | nil => cases h
  | cons c l ih =>
    by_cases hc : c = 0
    · subst hc
      simp
    · have hmem : 0 ∈ l := by simpa [Ne.symm hc] using h
      rw [List.takeWhile_cons_of_pos (by simpa using hc), List.dropWhile_cons_of_pos (by simpa using hc),
        List.cons_append, ← ih hmem]

theorem mem_eq (s : CStr) : s.mem = s.text ++ 0 :: s.behind := split_at_zero s.terminated

/-- A string with its bytes, and nothing to read behind it. -/
def ofText (t : List UInt8) : CStr := ⟨t ++ [0], by simp⟩

theorem text_ofText {t : List UInt8} (h : 0 ∉ t) : (ofText t).text = t := by
  have hall : ∀ c ∈ t, decide (c ≠ 0) = true := by
    intro c hc
    simp only [ne_eq, decide_eq_true_eq]
    rintro rfl
    exact h hc
  rw [text, ofText, List.takeWhile_append_of_pos hall]
  simp

end CStr

end LibNeoos.Lib
