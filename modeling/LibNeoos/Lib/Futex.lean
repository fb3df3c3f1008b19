import Mathlib.Data.List.Nodup
import Mathlib.Data.List.TakeDrop
/-!
# A futex

A word of memory and the threads that sleep on it. Waiting compares the word
with an expected value and falls asleep in one step. A wake-up call takes a
given number of sleepers, or all there are if they are fewer, off the queue;
which ones is left open, and `fifo` says it is those that have slept longest. A
sleeper may also stop waiting for no reason, because of a signal, as if the word
had changed, or at its timeout; one that has been taken off the queue can only
return from its wait.
-/

namespace LibNeoos.Lib

/-- A word and those asleep on it, the longest sleeper first. -/
structure Futex (T : Type) where
  word : Int
  queue : List T := []
  deriving DecidableEq

/-- How a wait ends. -/
inductive Wakeup
  | woken
  | again
  | interrupted
  | timeout
  deriving DecidableEq, Repr

/-- What is not up to a thread in its next operation: that a weak
compare-exchange fails for no reason, whom a wake-up call wakes, and how a wait
ends. -/
inductive Choice (T : Type)
  | go
  | fail
  | wake (ts : List T)
  | resume (o : Wakeup)
  deriving DecidableEq

namespace Futex

variable {T : Type}

/-- Falls asleep if the word is the expected one. -/
def wait (f : Futex T) (t : T) (expected : Int) : Option (Futex T) :=
  if f.word = expected then some { f with queue := f.queue ++ [t] } else none

theorem wait_some {f f' : Futex T} {t : T} {e : Int} (h : f.wait t e = some f') :
    f.word = e ∧ f' = { f with queue := f.queue ++ [t] } := by
  unfold wait at h
  split at h
  · exact ⟨‹_›, (Option.some.inj h).symm⟩
  · cases h

variable [DecidableEq T]

/-- A wake-up call for `count` threads may wake these. -/
def mayWake (f : Futex T) (count : Nat) (ts : List T) : Bool :=
  ts.isSublist f.queue && ts.length == min count f.queue.length

def wake (f : Futex T) (ts : List T) : Futex T := { f with queue := f.queue.filter (· ∉ ts) }

/-- A wait may end this way. -/
def mayResume (f : Futex T) (t : T) (timed : Bool) (o : Wakeup) : Bool :=
  if t ∈ f.queue then o ≠ .timeout ∨ timed = true else o = .woken

def leave (f : Futex T) (t : T) : Futex T := { f with queue := f.queue.filter (· ≠ t) }

/-- The threads woken are those that have slept longest. -/
def fifo (f : Futex T) (count : Nat) (ts : List T) : Bool := ts = f.queue.take count

variable {f : Futex T} {t u : T} {ts : List T} {n : Nat}

@[simp] theorem wake_word : (f.wake ts).word = f.word := rfl
@[simp] theorem leave_word : (f.leave t).word = f.word := rfl

@[simp] theorem mem_wake : u ∈ (f.wake ts).queue ↔ u ∈ f.queue ∧ u ∉ ts := by
  simp [wake]

@[simp] theorem mem_leave : u ∈ (f.leave t).queue ↔ u ∈ f.queue ∧ u ≠ t := by
  simp [leave]

theorem mayWake_spec (h : f.mayWake n ts = true) : ts.Sublist f.queue ∧ ts.length = min n f.queue.length := by
  simpa [mayWake] using h

/-- Where there is a sleeper and one is to be woken, one is. -/
theorem exists_woken (h : f.mayWake n ts = true) (hn : 0 < n) (hu : u ∈ f.queue) : ∃ x ∈ ts, x ∈ f.queue := by
  obtain ⟨hsub, hlen⟩ := mayWake_spec h
  have hpos : 0 < ts.length := by
    have := List.length_pos_of_mem hu
    omega
  obtain ⟨x, hx⟩ := List.exists_mem_of_length_pos hpos
  exact ⟨x, hx, hsub.subset hx⟩

theorem wake_sublist : (f.wake ts).queue.Sublist f.queue := List.filter_sublist
theorem leave_sublist : (f.leave t).queue.Sublist f.queue := List.filter_sublist

/-- A thread that has been taken off the queue returns normally. -/
theorem mayResume_of_not_mem {b : Bool} {o : Wakeup} (h : t ∉ f.queue) (ho : f.mayResume t b o = true) :
    o = .woken := by
  simpa [mayResume, h] using ho

end Futex

end LibNeoos.Lib
