import LibNeoos.Errno
import LibNeoos.Lib.Int32
import LibNeoos.Lib.Threads
/-!
# The semaphore of `semaphore.c`

`sem_trywait`, `sem_wait_common` and `sem_post`, one atomic operation or system
call at a time, and the system of any number of threads that make any calls on
one semaphore. `value.word` is `sem->value`, `value.queue` are the threads asleep
on it.

The memory also has a log of the operations that changed the value, each with
the thread and the number of the call that did it. `Thread.Moves` is all that a
step can do.
-/

namespace LibNeoos.Semaphore

open Lib

/-! ## The code -/

/-- Points of `sem_trywait`, named after the operation that is next. -/
inductive TryPoint
  | load
  | cas (v : Int)
  deriving DecidableEq, Repr

/-- Points of `sem_wait_common`. -/
inductive WaitPoint
  | load
  | cas (v : Int)
  | wait
  | asleep
  deriving DecidableEq, Repr

/-- Points of `sem_post`. -/
inductive PostPoint
  | fetch_add
  | wake
  deriving DecidableEq, Repr

/-- Where a thread is in the function the program called. -/
inductive Frame
  | idle
  | trywait (p : TryPoint)
  | wait (p : WaitPoint)
  | post (p : PostPoint)
  | ret (rc : Int)
  deriving DecidableEq, Repr

section
variable {T : Type} [DecidableEq T]

/-- The test of the loop of `sem_trywait`. -/
def sem_trywait_test (v : Int) : Frame := if v > 0 then .trywait (.cas v) else .ret (-EAGAIN)

/-- A compare-exchange that fails leaves the value it found in `v`. -/
def sem_trywait (sem : Futex T) : TryPoint → Choice T → Option (Futex T × Frame)
  | .load, .go => some (sem, sem_trywait_test sem.word)
  | .cas v, .go =>
    if sem.word = v then some ({ sem with word := v - 1 }, .ret 0) else some (sem, sem_trywait_test sem.word)
  | .cas _, .fail => some (sem, sem_trywait_test sem.word)
  | _, _ => none

def sem_wait_common (t : T) (sem : Futex T) (timed : Bool) : WaitPoint → Choice T → Option (Futex T × Frame)
  | .load, .go => some (sem, .wait (if sem.word > 0 then .cas sem.word else .wait))
  | .cas v, .go =>
    if sem.word = v then some ({ sem with word := v - 1 }, .ret 0) else some (sem, .wait .load)
  | .cas _, .fail => some (sem, .wait .load)
  | .wait, .go =>
    match sem.wait t 0 with
    | some sem' => some (sem', .wait .asleep)
    | none => some (sem, .wait .load)
  -- the wait returns without having slept
  | .wait, .resume o => if o ≠ .timeout then some (sem, .wait .load) else none
  | .asleep, .resume o =>
    if sem.mayResume t timed o then
      some (sem.leave t, if o.rc = -ETIMEDOUT then .ret (-ETIMEDOUT) else .wait .load)
    else none
  | _, _ => none

def sem_post (sem : Futex T) : PostPoint → Choice T → Option (Futex T × Frame)
  | .fetch_add, .go => some ({ sem with word := int32 (sem.word + 1) }, .post .wake)
  | .wake, .wake ts => if sem.mayWake 1 ts then some (sem.wake ts, .ret 0) else none
  | _, _ => none

end

/-! ## The system -/

/-- The calls a program can make. -/
inductive Call
  | wait (sem : Ptr)
  | trywait (sem : Ptr)
  | timedwait_relative (sem rel : Ptr)
  | post (sem : Ptr)
  deriving DecidableEq, Repr

/-- The start of a call: the null checks. -/
def Call.enter : Call → Frame
  | .wait sem => if sem = .null then .ret (-EINVAL) else .wait .load
  | .trywait sem => if sem = .null then .ret (-EINVAL) else .trywait .load
  | .timedwait_relative sem rel =>
    if rel = .null then .ret (-EINVAL) else if sem = .null then .ret (-EINVAL) else .wait .load
  | .post sem => if sem = .null then .ret (-EINVAL) else .post .fetch_add

def Call.timed : Call → Bool
  | .timedwait_relative .. => true
  | _ => false

def Call.isPost : Call → Bool
  | .post _ => true
  | _ => false

/-- An operation that changed the value: the thread, the number of its call, and
whether it was a successful compare-exchange or a `fetch_add`. -/
structure Entry (T : Type) where
  thread : T
  call : Nat
  takes : Bool
  deriving DecidableEq

structure Mem (T : Type) where
  value : Futex T
  log : List (Entry T) := []

/-- A thread, with its last call and the number of its calls. -/
structure Thread where
  call : Call := .wait .null
  frame : Frame := .idle
  calls : Nat := 0
  deriving DecidableEq, Repr

/-- A call, or the next operation of the call that is going on. -/
inductive Act (T : Type)
  | call (c : Call)
  | op (a : Choice T)

section
variable {T : Type} [DecidableEq T]

/-- What the next operation adds to the log. -/
def Thread.entry (t : T) (m : Mem T) (p : Thread) : Choice T → List (Entry T)
  | .go =>
    match p.frame with
    | .trywait (.cas v) | .wait (.cas v) => if m.value.word = v then [⟨t, p.calls, true⟩] else []
    | .post .fetch_add => [⟨t, p.calls, false⟩]
    | _ => []
  | _ => []

def Thread.op (t : T) (m : Mem T) (p : Thread) (a : Choice T) : Option (Futex T × Frame) :=
  match p.frame with
  | .idle => none
  | .trywait q => sem_trywait m.value q a
  | .wait q => sem_wait_common t m.value p.call.timed q a
  | .post q => sem_post m.value q a
  | .ret _ => if a = .go then some (m.value, .idle) else none

def Thread.move (t : T) (m : Mem T) (p : Thread) : Act T → Option (Mem T × Thread)
  | .call c => if p.frame = .idle then some (m, ⟨c, c.enter, p.calls + 1⟩) else none
  | .op a => (p.op t m a).map fun r => (⟨r.1, m.log ++ p.entry t m a⟩, { p with frame := r.2 })

abbrev Sys (T : Type) := Conf T (Mem T) Thread

/-- A semaphore initialised with `v`, and all threads outside the library. -/
def start (v : Nat) : Sys T := ⟨⟨⟨v, []⟩, []⟩, fun _ => {}⟩

abbrev step : Sys T → T × Act T → Option (Sys T) := Conf.step Thread.move

/-- The number of `fetch_add`s so far. -/
def Mem.adds (m : Mem T) : Nat := m.log.countP fun e => !e.takes

/-- The number of successful compare-exchanges so far. -/
def Mem.takes (m : Mem T) : Nat := m.log.countP fun e => e.takes

/-! ## What a step can do -/

/-- All that a step can do. -/
inductive Thread.Moves (t : T) (m : Mem T) (p : Thread) (m' : Mem T) (p' : Thread) : Prop
  | enter (c : Call) : p.frame = .idle → m' = m → p' = ⟨c, c.enter, p.calls + 1⟩ → Moves t m p m' p'
  | exit (rc : Int) : p.frame = .ret rc → m' = m → p' = { p with frame := .idle } → Moves t m p m' p'
  | tries (q : TryPoint) : p.frame = .trywait q → m' = m → p' = { p with frame := sem_trywait_test m.value.word } →
      Moves t m p m' p'
  | looks (q q' : WaitPoint) : p.frame = .wait q → q ≠ .asleep → q' ≠ .asleep → (∀ v, q' = .cas v → 0 < v) → m' = m →
      p' = { p with frame := .wait q' } → Moves t m p m' p'
  | take (v : Int) : p.frame = .trywait (.cas v) ∨ p.frame = .wait (.cas v) → m.value.word = v →
      m' = ⟨{ m.value with word := v - 1 }, m.log ++ [⟨t, p.calls, true⟩]⟩ → p' = { p with frame := .ret 0 } →
      Moves t m p m' p'
  | sleep : p.frame = .wait .wait → m.value.word = 0 → m' = ⟨{ m.value with queue := m.value.queue ++ [t] }, m.log⟩ →
      p' = { p with frame := .wait .asleep } → Moves t m p m' p'
  | resume : p.frame = .wait .asleep → m' = ⟨m.value.leave t, m.log⟩ → p' = { p with frame := .wait .load } →
      Moves t m p m' p'
  | timeout : p.frame = .wait .asleep → t ∈ m.value.queue → m' = ⟨m.value.leave t, m.log⟩ →
      p' = { p with frame := .ret (-ETIMEDOUT) } → Moves t m p m' p'
  | add : p.frame = .post .fetch_add →
      m' = ⟨{ m.value with word := int32 (m.value.word + 1) }, m.log ++ [⟨t, p.calls, false⟩]⟩ →
      p' = { p with frame := .post .wake } → Moves t m p m' p'
  | wake (ts : List T) : p.frame = .post .wake → m.value.mayWake 1 ts = true → m' = ⟨m.value.wake ts, m.log⟩ →
      p' = { p with frame := .ret 0 } → Moves t m p m' p'

variable {t : T} {m m' : Mem T} {p p' p₁ : Thread} {a : Act T}

theorem trywait_moves {b : Choice T} {q : TryPoint} {f : Frame} {sem : Futex T} (hf : p.frame = .trywait q)
    (h : sem_trywait m.value q b = some (sem, f)) :
    p.Moves t m ⟨sem, m.log ++ p.entry t m b⟩ { p with frame := f } := by
  unfold sem_trywait at h
  split at h
  · cases h
    exact .tries _ hf (by simp [Thread.entry, hf]) rfl
  · split at h <;> cases h
    · rename_i v hv
      exact .take v (.inl hf) hv (by simp [Thread.entry, hf, hv]) rfl
    · exact .tries _ hf (by simp_all [Thread.entry]) rfl
  · cases h
    exact .tries _ hf (by simp [Thread.entry]) rfl
  · cases h

theorem wait_moves {b : Choice T} {q : WaitPoint} {f : Frame} {sem : Futex T} {timed : Bool} (hf : p.frame = .wait q)
    (h : sem_wait_common t m.value timed q b = some (sem, f)) :
    p.Moves t m ⟨sem, m.log ++ p.entry t m b⟩ { p with frame := f } := by
  unfold sem_wait_common at h
  split at h
  · cases h
    refine .looks _ _ hf (by simp) ?_ ?_ (by simp [Thread.entry, hf]) rfl
    · split <;> simp
    · intro v hv
      split at hv <;> cases hv
      assumption
  · split at h <;> cases h
    · rename_i v hv
      exact .take v (.inr hf) hv (by simp [Thread.entry, hf, hv]) rfl
    · exact .looks _ _ hf (by simp) (by simp) (by simp) (by simp_all [Thread.entry]) rfl
  · cases h
    exact .looks _ _ hf (by simp) (by simp) (by simp) (by simp [Thread.entry]) rfl
  · split at h <;> cases h
    · obtain ⟨hw, rfl⟩ := Futex.wait_some ‹_›
      exact .sleep hf hw (by simp [Thread.entry, hf]) rfl
    · exact .looks _ _ hf (by simp) (by simp) (by simp) (by simp [Thread.entry, hf]) rfl
  · split at h <;> cases h
    exact .looks _ _ hf (by simp) (by simp) (by simp) (by simp [Thread.entry]) rfl
  · split at h <;> cases h
    rename_i o ho
    by_cases htime : o = .timeout
    · subst htime
      have hq : t ∈ m.value.queue := by
        by_contra hq
        cases Futex.mayResume_of_not_mem hq ho
      exact .timeout hf hq (by simp [Thread.entry]) rfl
    · refine .resume hf (by simp [Thread.entry]) ?_
      rw [if_neg]
      cases o <;> simp_all [Wakeup.rc]
  · cases h

theorem post_moves {b : Choice T} {q : PostPoint} {f : Frame} {sem : Futex T} (hf : p.frame = .post q)
    (h : sem_post m.value q b = some (sem, f)) : p.Moves t m ⟨sem, m.log ++ p.entry t m b⟩ { p with frame := f } := by
  unfold sem_post at h
  split at h
  · cases h
    exact .add hf (by simp [Thread.entry, hf]) rfl
  · split at h <;> cases h
    exact .wake _ hf ‹_› (by simp [Thread.entry]) rfl
  · cases h

theorem Thread.move_moves (h : p.move t m a = some (m', p')) : p.Moves t m m' p' := by
  unfold Thread.move at h
  split at h
  · split at h <;> cases h
    exact .enter _ ‹_› rfl rfl
  · obtain ⟨⟨sem, f⟩, h1, h2⟩ := Option.map_eq_some_iff.1 h
    cases h2
    unfold Thread.op at h1
    split at h1
    · cases h1
    · exact trywait_moves ‹_› h1
    · exact wait_moves ‹_› h1
    · exact post_moves ‹_› h1
    · rename_i hf
      split at h1 <;> cases h1
      exact .exit _ hf (by simp_all [Thread.entry]) rfl

end

end LibNeoos.Semaphore
