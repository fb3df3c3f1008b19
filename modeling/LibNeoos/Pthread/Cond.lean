import LibNeoos.Pthread.Mutex
/-!
# Threads that share a mutex and a condition variable

`cond_wait_common`, `pthread_cond_signal` and `pthread_cond_broadcast`, again one
operation at a time, and the system of any number of threads that make any calls
on one mutex and one condition variable. `m.cond.word` is `c->seq`.

A thread is in a function the program called (`frame`) and perhaps in a function
of the mutex that this one called (`mtx`). `bumps` counts the `fetch_add`s on
`seq`, and each thread remembers that count from its last read of `seq`.
-/

namespace LibNeoos.Pthread

open Lib

/-! ## The code -/

/-- Points of `cond_wait_common`. `unlocking` and `locking` are inside the calls
of the mutex functions; `seq` and `rc` are its variables. -/
inductive WaitPoint
  | load
  | unlocking (seq : Int)
  | wait (seq : Int)
  | asleep
  | locking (rc : Int)
  deriving DecidableEq, Repr

/-- Points of `pthread_cond_signal` and `pthread_cond_broadcast`. -/
inductive SignalPoint
  | fetch_add
  | wake
  deriving DecidableEq, Repr

/-- Where a thread is in the function the program called. -/
inductive Frame
  | idle
  | mutex
  | wait (p : WaitPoint)
  | signal (p : SignalPoint)
  | ret (rc : Int)
  deriving DecidableEq, Repr

section
variable {T : Type} [DecidableEq T]

/-- The condition variable and the frame after the next operation, and the mutex
function that is called next. -/
def cond_wait_common (t : T) (c : Futex T) (timed : Bool) : WaitPoint → Choice T → Option (Futex T × Frame × Point)
  | .load, .go => some (c, .wait (.unlocking c.word), .unlock .fetch_sub)
  | .unlocking seq, .go => some (c, .wait (.wait seq), .rest)
  | .wait seq, .go =>
    match c.wait t seq with
    | some c' => some (c', .wait .asleep, .rest)
    | none => some (c, .wait (.locking (-EAGAIN)), .lock .cas)
  -- the wait returns without having slept
  | .wait _, .resume o => if o ≠ .timeout then some (c, .wait (.locking o.rc), .lock .cas) else none
  | .asleep, .resume o =>
    if c.mayResume t timed o then some (c.leave t, .wait (.locking o.rc), .lock .cas) else none
  | .locking rc, .go => some (c, .ret (if rc = -ETIMEDOUT then -ETIMEDOUT else 0), .rest)
  | _, _ => none

/-- Adds one to `seq`, then wakes up to `count` threads. -/
def bump_and_wake (count : Nat) (c : Futex T) : SignalPoint → Choice T → Option (Futex T × Frame)
  | .fetch_add, .go => some ({ c with word := int32 (c.word + 1) }, .signal .wake)
  | .wake, .wake ts => if c.mayWake count ts then some (c.wake ts, .ret 0) else none
  | _, _ => none

def pthread_cond_signal (c : Futex T) : SignalPoint → Choice T → Option (Futex T × Frame) := bump_and_wake 1 c

def pthread_cond_broadcast (c : Futex T) : SignalPoint → Choice T → Option (Futex T × Frame) :=
  bump_and_wake 0x7FFFFFFF c

end

/-! ## The system -/

/-- The calls a program can make. -/
inductive Call
  | trylock (m : Ptr)
  | lock (m : Ptr)
  | unlock (m : Ptr)
  | cond_wait (c m : Ptr)
  | cond_timedwait_relative (c m rel : Ptr)
  | cond_signal (c : Ptr)
  | cond_broadcast (c : Ptr)
  deriving DecidableEq, Repr

/-- The start of a call: the null checks, and the mutex function it enters. -/
def Call.enter : Call → Frame × Point
  | .trylock m => if m = .null then (.ret (-EINVAL), .rest) else (.mutex, .trylock)
  | .lock m => if m = .null then (.ret (-EINVAL), .rest) else (.mutex, .lock .cas)
  | .unlock m => if m = .null then (.ret (-EINVAL), .rest) else (.mutex, .unlock .fetch_sub)
  | .cond_wait c m => if c = .null ∨ m = .null then (.ret (-EINVAL), .rest) else (.wait .load, .rest)
  | .cond_timedwait_relative c m rel =>
    if rel = .null then (.ret (-EINVAL), .rest)
    else if c = .null ∨ m = .null then (.ret (-EINVAL), .rest)
    else (.wait .load, .rest)
  | .cond_signal c | .cond_broadcast c => if c = .null then (.ret (-EINVAL), .rest) else (.signal .fetch_add, .rest)

def Call.timed : Call → Bool
  | .cond_timedwait_relative .. => true
  | _ => false

/-- The call is one of the two waits on the condition variable. -/
def Call.isWait : Call → Bool
  | .cond_wait .. | .cond_timedwait_relative .. => true
  | _ => false

/-- The call returns 0 only with the mutex held. -/
def Call.takes : Call → Bool
  | .trylock _ | .lock _ | .cond_wait .. | .cond_timedwait_relative .. => true
  | _ => false

def Call.broadcasts : Call → Bool
  | .cond_broadcast _ => true
  | _ => false

/-- The mutex, the condition variable, and how often `seq` has been added to. -/
structure Mem (T : Type) where
  mutex : Futex T := ⟨0, []⟩
  cond : Futex T := ⟨0, []⟩
  bumps : Nat := 0

/-- A thread. `call` is the program's last call, `waits` the number of times it
has read `seq`, and `readAt` the value of `bumps` at the last of them. -/
structure Thread where
  call : Call := .lock .null
  frame : Frame := .idle
  mtx : Use := {}
  waits : Nat := 0
  readAt : Nat := 0
  deriving DecidableEq, Repr

/-- A call, or the next operation of the call that is going on. -/
inductive Act (T : Type)
  | call (c : Call)
  | op (a : Choice T)

section
variable {T : Type} [DecidableEq T]

/-- The next operation of the function the program called. -/
def Thread.outer (t : T) (m : Mem T) (p : Thread) (a : Choice T) : Option (Mem T × Thread) :=
  match p.frame with
  | .idle => none
  | .mutex =>
    match p.mtx.pc, a with
    | .ret rc, .go => some (m, { p with frame := .ret rc, mtx := { p.mtx with pc := .rest } })
    | _, _ => none
  | .wait q =>
    (cond_wait_common t m.cond p.call.timed q a).map fun r =>
      ({ m with cond := r.1 },
        { p with frame := r.2.1, mtx := { p.mtx with pc := r.2.2 },
                 waits := if q = .load then p.waits + 1 else p.waits,
                 readAt := if q = .load then m.bumps else p.readAt })
  | .signal q =>
    ((if p.call.broadcasts then pthread_cond_broadcast else pthread_cond_signal) m.cond q a).map fun r =>
      ({ m with cond := r.1, bumps := if q = .fetch_add then m.bumps + 1 else m.bumps }, { p with frame := r.2 })
  | .ret _ => if a = .go then some (m, { p with frame := .idle }) else none

def Thread.move (t : T) (m : Mem T) (p : Thread) : Act T → Option (Mem T × Thread)
  | .call c =>
    if p.frame = .idle then
      some (m, { p with call := c, frame := c.enter.1, mtx := { p.mtx with pc := c.enter.2 } })
    else none
  | .op a =>
    if p.mtx.outside then p.outer t m a
    else (p.mtx.move t m.mutex a).map fun r => ({ m with mutex := r.1 }, { p with mtx := r.2 })

abbrev Sys (T : Type) := Conf T (Mem T) Thread

/-- All threads outside the library, the objects as their initialisers leave them. -/
def start : Sys T := ⟨{}, fun _ => {}⟩

abbrev step : Sys T → T × Act T → Option (Sys T) := Conf.step Thread.move

/-- `pthread_mutex_unlock` is called, by the program or in a wait, only by the
holder. -/
def disciplined (s : Sys T) (l : T × Act T) : Bool :=
  match l.2 with
  | .call (.unlock .obj) => (s.thr l.1).mtx.holds
  | .call _ => true
  | .op _ => (s.thr l.1).frame = .wait .load → (s.thr l.1).mtx.holds

/-! ## What a step does to the mutex -/

variable {t : T} {m m' : Mem T} {p p' : Thread} {a : Act T}

theorem Call.enter_entry (c : Call) (b : Bool) : Use.entry ⟨c.enter.2, b⟩ := by
  cases c <;> simp only [Call.enter] <;> split_ifs <;> simp [Use.entry]

/-- A function that the program called does nothing to the mutex itself. -/
theorem Thread.outer_mutex {b : Choice T} (ho : p.mtx.outside = true) (h : p.outer t m b = some (m', p')) :
    m'.mutex = m.mutex ∧ p'.mtx.entry ∧ p'.mtx.holds = p.mtx.holds ∧
      (p'.mtx.pc = .unlock .fetch_sub → p.frame = .wait .load) := by
  have hkeep : p.mtx.entry ∧ (p.mtx.pc = .unlock .fetch_sub → p.frame = .wait .load) := by
    refine ⟨Use.outside_entry ho, fun hpc => ?_⟩
    simp [Use.outside, hpc] at ho
  unfold Thread.outer at h
  split at h
  · cases h
  · split at h <;> cases h
    simp [Use.entry]
  · rename_i hf
    obtain ⟨⟨c, f, pc⟩, h1, h2⟩ := Option.map_eq_some_iff.1 h
    cases h2
    unfold cond_wait_common at h1
    split at h1 <;> (try split at h1) <;> cases h1 <;> simp [Use.entry, hf]
  · obtain ⟨⟨c, f⟩, h1, h2⟩ := Option.map_eq_some_iff.1 h
    cases h2
    exact ⟨rfl, hkeep.1, rfl, hkeep.2⟩
  · split at h <;> cases h
    exact ⟨rfl, hkeep.1, rfl, hkeep.2⟩

/-- A step of the system is a step of the mutex. -/
theorem Thread.move_step (hf : p.frame = .idle → p.mtx.pc = .rest) (h : p.move t m a = some (m', p')) :
    Step t m.mutex p.mtx p'.mtx m'.mutex := by
  unfold Thread.move at h
  split at h
  · split at h <;> cases h
    exact .outside (by simp [Use.outside, hf ‹_›]) (Call.enter_entry _ _) rfl
  · split at h
    · obtain ⟨hm, he, hh, -⟩ := Thread.outer_mutex ‹_› h
      rw [hm]
      exact .outside ‹_› he hh
    · obtain ⟨⟨x, v⟩, h1, h2⟩ := Option.map_eq_some_iff.1 h
      cases h2
      exact .inside (Use.move_moves h1)

/-- A thread calls `pthread_mutex_unlock` where the program does or at the start of a wait. -/
theorem Thread.move_unlock (h : p.move t m a = some (m', p')) (hpc : p'.mtx.pc = .unlock .fetch_sub) :
    p'.mtx.holds = p.mtx.holds ∧ (a = .call (.unlock .obj) ∨ (p.frame = .wait .load ∧ ∃ b, a = .op b)) := by
  unfold Thread.move at h
  split at h
  · rename_i c
    split at h <;> cases h
    refine ⟨rfl, .inl ?_⟩
    cases c <;> simp only [Call.enter] at hpc <;> split_ifs at hpc
    rename_i q hq
    cases q
    · exact absurd rfl hq
    · rfl
  · split at h
    · obtain ⟨-, -, hh, hl⟩ := Thread.outer_mutex ‹_› h
      exact ⟨hh, .inr ⟨hl hpc, _, rfl⟩⟩
    · obtain ⟨⟨x, v⟩, h1, h2⟩ := Option.map_eq_some_iff.1 h
      cases h2
      exact absurd hpc (Use.move_moves h1).pc_ne

/-! ## What a thread's place says about the mutex -/

/-- The thread is in `pthread_mutex_lock`, or has returned from it with the mutex. -/
def Use.locking (v : Use) : Prop := (∃ q, v.pc = .lock q) ∨ (v.pc = .ret 0 ∧ v.holds = true)

/-- The thread is in a function that takes the mutex, or has returned from one,
and then with the mutex if the code is 0. -/
def Use.taking (v : Use) : Prop := v.pc = .trylock ∨ (∃ q, v.pc = .lock q) ∨ ∃ rc, v.pc = .ret rc ∧
    (rc = 0 → v.holds = true)

/-- A thread that returns from a call that takes the mutex has it. -/
def Thread.sound (p : Thread) : Prop :=
  match p.frame with
  | .idle => p.mtx.pc = .rest
  | .mutex => p.call.isWait = false ∧ (p.call.takes = true → p.mtx.taking)
  | .wait (.locking _) => p.call.isWait = true ∧ p.mtx.locking
  | .wait _ => p.call.isWait = true
  | .signal _ => p.mtx.pc = .rest ∧ p.call.takes = false
  | .ret rc => p.mtx.pc = .rest ∧ (p.call.takes = true → rc = 0 → p.mtx.holds = true) ∧
      (p.call.isWait = true → rc = -ETIMEDOUT → p.mtx.holds = true)

theorem Call.takes_of_isWait {c : Call} (h : c.isWait = true) : c.takes = true := by
  cases c <;> simp_all [Call.isWait, Call.takes]

theorem Thread.enter_sound (c : Call) (b : Bool) :
    ({ p with call := c, frame := c.enter.1, mtx := ⟨c.enter.2, b⟩ } : Thread).sound := by
  cases c <;> simp only [Call.enter] <;> split_ifs <;>
    simp [Thread.sound, Call.isWait, Call.takes, Use.taking]

theorem Thread.sound.isWait (hs : p.sound) {q : WaitPoint} (hf : p.frame = .wait q) : p.call.isWait = true := by
  cases q <;> simp only [Thread.sound, hf] at hs
  case locking => exact hs.1
  all_goals exact hs

/-- Once `pthread_mutex_lock` has returned in a wait, the thread has the mutex. -/
theorem Thread.sound.holds (hs : p.sound) {rc : Int} (hf : p.frame = .wait (.locking rc)) (ho : p.mtx.outside = true) :
    p.mtx.holds = true := by
  simp only [Thread.sound, hf] at hs
  rcases hs.2 with ⟨q, hq⟩ | ⟨-, h⟩
  · simp [Use.outside, hq] at ho
  · exact h

theorem cond_wait_sound {b : Choice T} {c : Futex T} {q : WaitPoint} {f : Frame} {pc : Point} (hs : p.sound)
    (hf : p.frame = .wait q) (ho : p.mtx.outside = true)
    (h : cond_wait_common t m.cond p.call.timed q b = some (c, f, pc))
    {i j : Nat} : ({ p with frame := f, mtx := { p.mtx with pc }, waits := i, readAt := j } : Thread).sound := by
  have hw := hs.isWait hf
  unfold cond_wait_common at h
  split at h
  case h_6 =>
    have hh := hs.holds hf ho
    cases h
    exact ⟨rfl, fun _ _ => hh, fun _ _ => hh⟩
  all_goals (try split at h) <;> cases h <;> simp [Thread.sound, Use.locking, hw]

/-- The two operations of a signal or a broadcast. -/
theorem signal_cases {b : Choice T} {c c' : Futex T} {q : SignalPoint} {f : Frame} {all : Bool}
    (h : (if all then pthread_cond_broadcast else pthread_cond_signal) c q b = some (c', f)) :
    (q = .fetch_add ∧ c' = { c with word := int32 (c.word + 1) } ∧ f = .signal .wake) ∨
      (q = .wake ∧ f = .ret 0 ∧ ∃ ts, b = .wake ts ∧ c.mayWake (if all then 0x7FFFFFFF else 1) ts = true ∧
        c' = c.wake ts) := by
  have hb : bump_and_wake (if all then 0x7FFFFFFF else 1) c q b = some (c', f) := by
    cases all <;> exact h
  generalize (if all then 0x7FFFFFFF else 1) = count at hb ⊢
  unfold bump_and_wake at hb
  split at hb
  · cases hb
    exact .inl ⟨rfl, rfl, rfl⟩
  · split at hb <;> cases hb
    exact .inr ⟨rfl, rfl, _, rfl, ‹_›, rfl⟩
  · cases hb

theorem Thread.outer_sound {b : Choice T} (hs : p.sound) (ho : p.mtx.outside = true)
    (h : p.outer t m b = some (m', p')) : p'.sound := by
  unfold Thread.outer at h
  split at h
  · cases h
  · rename_i hf
    simp only [Thread.sound, hf] at hs
    split at h <;> cases h
    rename_i hpc
    refine ⟨rfl, fun ht h0 => ?_, fun hw => ?_⟩
    · obtain h | ⟨q, h⟩ | ⟨rc, h, hrc⟩ := hs.2 ht
      · rw [h] at hpc; cases hpc
      · rw [h] at hpc; cases hpc
      · rw [h] at hpc; cases hpc
        exact hrc h0
    · rw [hs.1] at hw
      cases hw
  · obtain ⟨⟨c, f, pc⟩, h1, h2⟩ := Option.map_eq_some_iff.1 h
    cases h2
    exact cond_wait_sound hs ‹_› ho h1
  · rename_i hf
    simp only [Thread.sound, hf] at hs
    obtain ⟨⟨c, f⟩, h1, h2⟩ := Option.map_eq_some_iff.1 h
    cases h2
    have hw : p.call.isWait = false := by
      by_contra hw
      simp [Call.takes_of_isWait (by simpa using hw)] at hs
    rcases signal_cases h1 with ⟨-, -, rfl⟩ | ⟨-, rfl, -⟩
    · exact hs
    · simp [Thread.sound, hs, hw]
  · rename_i hf
    simp only [Thread.sound, hf] at hs
    split at h <;> cases h
    exact hs.1

theorem Thread.inner_sound {c : Futex T} {v : Use} (hs : p.sound) (ho : p.mtx.outside = false)
    (hm : p.mtx.Moves t m.mutex c v) : ({ p with mtx := v } : Thread).sound := by
  have hne : p.mtx.pc ≠ .rest := fun h => by simp [Use.outside, h] at ho
  unfold Thread.sound at hs ⊢
  dsimp only
  split at hs
  · exact absurd hs hne
  · refine ⟨hs.1, fun ht => ?_⟩
    obtain h | ⟨q, h⟩ | ⟨rc, h, -⟩ := hs.2 ht
    · exact .inr (.inr (hm.of_trylock h))
    · exact (hm.of_lock h).elim (fun h => .inr (.inl h)) fun h => .inr (.inr ⟨0, h.1, fun _ => h.2⟩)
    · simp [Use.outside, h] at ho
  · refine ⟨hs.1, ?_⟩
    rcases hs.2 with ⟨q, h⟩ | ⟨h, -⟩
    · exact hm.of_lock h
    · simp [Use.outside, h] at ho
  · exact hs
  · exact absurd hs.1 hne
  · exact absurd hs.1 hne

theorem Thread.move_sound (hs : p.sound) (h : p.move t m a = some (m', p')) : p'.sound := by
  unfold Thread.move at h
  split at h
  · split at h <;> cases h
    exact Thread.enter_sound _ _
  · split at h
    · exact Thread.outer_sound hs ‹_› h
    · rename_i ho
      obtain ⟨⟨x, v⟩, h1, h2⟩ := Option.map_eq_some_iff.1 h
      cases h2
      exact Thread.inner_sound hs (by simpa using ho) (Use.move_moves h1)

/-! ## Runs -/

variable {ok : Sys T → T × Act T → Sys T → Prop} {s : Sys T}

theorem run_sound (h : Run step ok start s) (t : T) : (s.thr t).sound :=
  run_local (fun _ _ p => p.sound) (fun _ => rfl) (fun _ _ _ _ hs _ hm => Thread.move_sound hs hm)
    (fun _ _ _ _ u hs _ _ _ => hs u) h t

/-- Every thread's place in the functions of the mutex. -/
abbrev uses (s : Sys T) : T → Use := Thread.mtx ∘ s.thr

theorem step_uses {s' : Sys T} {l : T × Act T} (h : step s l = some s') :
    uses s' = Function.update (uses s) l.1 (s'.thr l.1).mtx := by
  obtain ⟨p, -, hp⟩ := Conf.step_some h
  rw [uses, hp, Function.comp_update, Function.update_self]

theorem step_mutex {s' : Sys T} {l : T × Act T} (hs : ∀ t, (s.thr t).sound) (h : step s l = some s') :
    Step l.1 s.mem.mutex (uses s l.1) (s'.thr l.1).mtx s'.mem.mutex := by
  refine Thread.move_step (fun hf => ?_) (Conf.step_self h)
  have := hs l.1
  rwa [Thread.sound, hf] at this

theorem run_alert (h : Run step ok start s) : Alert s.mem.mutex (uses s) := by
  refine h.inv_reach (fun s => Alert s.mem.mutex (uses s)) ⟨by simp [start], by simp [start]⟩ ?_
  intro s l s' hrun hi _ hst
  rw [step_uses hst]
  exact hi.step (step_mutex (run_sound hrun) hst)

theorem run_excl (h : Run step (fun s l _ => disciplined s l = true) start s) : Excl s.mem.mutex (uses s) := by
  refine h.inv_reach (fun s => Excl s.mem.mutex (uses s)) ?_ ?_
  · refine ⟨.inl rfl, fun t h => ?_, fun t u h => ?_, fun t p h => ?_⟩ <;> simp [Use.owns, start] at h
  · intro s l s' hrun hi hd hst
    rw [step_uses hst]
    refine hi.step (step_mutex (run_sound hrun) hst) fun hpc => ?_
    obtain ⟨hh, ha⟩ := Thread.move_unlock (Conf.step_self hst) hpc
    rw [hh]
    rcases ha with ha | ⟨hf, b, ha⟩ <;> simp only [disciplined, ha] at hd
    · exact hd
    · simpa [hf] using hd

/-! ## Mutual exclusion -/

/-- In every run in which only the holder unlocks: the state is 0, 1 or 2; at
most one thread holds the mutex; the state is not 0 while one does or is about
to store 0; and a call that takes the mutex, with the code 0 or, for a wait,
`-ETIMEDOUT`, returns with the mutex held. -/
theorem mutex_excludes (h : Run step (fun s l _ => disciplined s l = true) start s) :
    (s.mem.mutex.word = 0 ∨ s.mem.mutex.word = 1 ∨ s.mem.mutex.word = 2) ∧
    (∀ t u, (s.thr t).mtx.holds = true → (s.thr u).mtx.holds = true → t = u) ∧
    (∀ t, (s.thr t).mtx.holds = true ∨ (s.thr t).mtx.pc = .unlock .store → s.mem.mutex.word ≠ 0) ∧
    (∀ t rc, (s.thr t).frame = .ret rc → (s.thr t).call.isWait = true → rc = 0 ∨ rc = -ETIMEDOUT →
      (s.thr t).mtx.holds = true) ∧
    (∀ t, (s.thr t).frame = .ret 0 → (s.thr t).call.takes = true → (s.thr t).mtx.holds = true) := by
  have hx := run_excl h
  have hs : ∀ t rc, (s.thr t).frame = .ret rc → ((s.thr t).call.takes = true → rc = 0 → (s.thr t).mtx.holds = true) ∧
      ((s.thr t).call.isWait = true → rc = -ETIMEDOUT → (s.thr t).mtx.holds = true) := by
    intro t rc hf
    have := run_sound h t
    rw [Thread.sound, hf] at this
    exact this.2
  refine ⟨hx.word, fun t u ht hu => hx.one t u (.inl ht) (.inl hu), hx.busy, fun t rc hf hw hrc => ?_, fun t hf ht =>
    (hs t 0 hf).1 ht rfl⟩
  rcases hrc with hrc | hrc
  · exact (hs t rc hf).1 (Call.takes_of_isWait hw) hrc
  · exact (hs t rc hf).2 hw hrc

/-- Thread 0 waits on the condition variable, thread 1 signals it, and the wait returns. -/
theorem mutex_excludes_signalled : ∃ s : Sys (Fin 2),
    Run step (fun s l _ => disciplined s l = true) start s ∧ (s.thr 0).frame = .ret 0 ∧
      (s.thr 0).call = .cond_wait .obj .obj ∧ (s.thr 0).mtx.holds = true ∧ s.mem.mutex.word ≠ 0 := by
  have h : ((exec step disciplined (start : Sys (Fin 2))
      ([(0, .call (.lock .obj)), (0, .op .go), (0, .op .go), (0, .op .go), (0, .call (.cond_wait .obj .obj)),
        (0, .op .go), (0, .op .go), (0, .op .go), (0, .op .go), (1, .call (.cond_signal .obj)), (1, .op .go),
        (1, .op (.wake [0])), (0, .op (.resume .woken)), (0, .op .go), (0, .op .go)] :
        List (Fin 2 × Act (Fin 2)))).map fun s =>
      decide ((s.thr 0).frame = .ret 0 ∧ (s.thr 0).call = .cond_wait .obj .obj)) = some true := by
    decide +kernel
  obtain ⟨s, hrun, hf, hc⟩ := exec_reaches h fun _ _ _ hb => hb
  obtain ⟨-, -, hbusy, hwait, -⟩ := mutex_excludes hrun
  have hh := hwait 0 0 hf (by rw [hc]; rfl) (.inl rfl)
  exact ⟨s, hrun, hf, hc, hh, hbusy 0 (.inl hh)⟩

/-! ## No wake-up of the mutex is lost -/

/-- In every run, while a thread sleeps on the mutex the state is 2, an unlocker
has yet to call `futex_wake`, or a thread is awake in the slow path of
`pthread_mutex_lock`. So no thread sleeps while the mutex is free and all that
are awake are elsewhere, or while the next unlock would wake nobody, no wake-up
is to come and all that contend are asleep. -/
theorem mutex_wakeup_not_lost (h : Run step (fun _ _ _ => True) start s) :
    (∀ t ∈ s.mem.mutex.queue, s.mem.mutex.word = 2 ∨ (∃ u, (s.thr u).mtx.wakes) ∨
      ∃ u, (s.thr u).mtx.contends s.mem.mutex u) ∧
    (¬ ∃ t ∈ s.mem.mutex.queue, s.mem.mutex.word = 0 ∧
      ∀ u, u ∉ s.mem.mutex.queue → (s.thr u).mtx.outside = true) ∧
    (¬ ∃ t ∈ s.mem.mutex.queue, s.mem.mutex.word = 1 ∧ (∀ u, ¬ (s.thr u).mtx.wakes) ∧
      ∀ u p, (s.thr u).mtx.pc = .lock p → p ≠ .cas → u ∈ s.mem.mutex.queue) := by
  have hi := run_alert h
  have heard : ∀ t ∈ s.mem.mutex.queue, s.mem.mutex.word = 2 ∨ (∃ u, (s.thr u).mtx.wakes) ∨
      ∃ u, (s.thr u).mtx.contends s.mem.mutex u := by
    intro t ht
    rcases hi.heard (List.ne_nil_of_mem ht) with h2 | ⟨u, hu | hu⟩
    · exact .inl h2
    · exact .inr (.inl ⟨u, hu⟩)
    · exact .inr (.inr ⟨u, hu⟩)
  refine ⟨heard, ?_, ?_⟩
  · rintro ⟨t, ht, h0, hout⟩
    -- the sleepers are not awake in any function, and the others are in none
    have away : ∀ u, ¬ (s.thr u).mtx.wakes ∧ ¬ (s.thr u).mtx.contends s.mem.mutex u := by
      intro u
      by_cases hu : u ∈ s.mem.mutex.queue
      · have hpc : (s.thr u).mtx.pc = .lock .asleep := hi.asleep u hu
        simp [Use.wakes, Use.contends, hpc, hu]
      · rcases Use.outside_iff.1 (hout u hu) with hpc | ⟨rc, hpc⟩ <;> simp [Use.wakes, Use.contends, hpc]
    rcases heard t ht with h2 | ⟨u, hu⟩ | ⟨u, hu⟩
    · omega
    · exact (away u).1 hu
    · exact (away u).2 hu
  · rintro ⟨t, ht, h1, hw, hc⟩
    rcases heard t ht with h2 | ⟨u, hu⟩ | ⟨u, hu⟩
    · omega
    · exact hw u hu
    · rcases hu with hpc | hpc | ⟨hpc, hq⟩
      · have hpc' : (s.thr u).mtx.pc = .lock .asleep := hi.asleep u (hc u _ hpc (by simp))
        rw [hpc] at hpc'
        cases hpc'
      · have hpc' : (s.thr u).mtx.pc = .lock .asleep := hi.asleep u (hc u _ hpc (by simp))
        rw [hpc] at hpc'
        cases hpc'
      · exact hq (hc u _ hpc (by simp))

/-- Thread 1 sleeps while thread 0 has the mutex. -/
theorem mutex_wakeup_not_lost_pair : ∃ s : Sys (Fin 2),
    Run step (fun _ _ _ => True) start s ∧ 1 ∈ s.mem.mutex.queue ∧
      (s.mem.mutex.word = 2 ∨ (∃ u, (s.thr u).mtx.wakes) ∨ ∃ u, (s.thr u).mtx.contends s.mem.mutex u) := by
  have h : ((exec step (fun _ _ => true) (start : Sys (Fin 2))
      ([(0, .call (.lock .obj)), (0, .op .go), (1, .call (.lock .obj)), (1, .op .go), (1, .op .go), (1, .op .go)] :
        List (Fin 2 × Act (Fin 2)))).map fun s => decide (1 ∈ s.mem.mutex.queue)) = some true := by
    decide +kernel
  obtain ⟨s, hrun, hq⟩ : ∃ s : Sys (Fin 2), Run step (fun _ _ _ => True) start s ∧ 1 ∈ s.mem.mutex.queue :=
    exec_reaches h fun _ _ _ _ => trivial
  exact ⟨s, hrun, hq, (mutex_wakeup_not_lost hrun).1 1 hq⟩

end

end LibNeoos.Pthread
