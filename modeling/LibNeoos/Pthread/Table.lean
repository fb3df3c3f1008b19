import LibNeoos.Pthread.Mutex
/-!
# The thread table of `pthread.c`

`pthread_create`, `pthread_join`, `pthread_exit` and `pthread_trampoline`, one
operation at a time, over the table `pt_slots` and its lock `pt_lock`, and the
system of a main thread and all those created later, by `pthread_create` or by
`thread_create` itself.

`thread_create`, `thread_join`, `thread_self` and `thread_exit` are the kernel's:
it gives each thread a number, and when a thread that has exited is joined, its
number is free to be given again. A step of `thread_create` stands for the whole
call: the new thread runs what its creator passed.

For the properties the memory also has, for each thread, what was passed to the
`pthread_create` that made it, the slot, and the value it returned or passed to
`pthread_exit`; for each slot whose it is; and who has reaped a thread and not yet
left the table.
-/

namespace LibNeoos.Pthread.Table

open Lib

abbrev PTHREAD_MAX : Nat := 16

/-- `struct pthread_slot`. Addresses are numbers, 0 is the null pointer. -/
structure pthread_slot where
  in_use : Int := 0
  tid : Int := 0
  finished : Int := 0
  start : Nat := 0
  arg : Nat := 0
  retval : Nat := 0
  deriving DecidableEq, Repr

/-! ## The memory -/

/-- A thread in the kernel's eyes. `created` has the slot that its trampoline gets,
`none` for one that the program makes with `thread_create`. -/
inductive Life
  | none
  | created (raw : Option Nat)
  | alive
  | exited
  | reaped
  deriving DecidableEq, Repr

/-- Whose a slot is: nobody's, that of a thread in `pthread_create`, or that of the
thread it was made for. -/
inductive Holder (T : Type)
  | free
  | maker (t : T)
  | thread (u : T)
  deriving DecidableEq

/-- The table and what the kernel knows. -/
structure Mem (T : Type) where
  pt_slots : Nat → pthread_slot := fun _ => {}
  life : T → Life
  tid : T → Int
  given : T → Option (Nat × Nat) := fun _ => .none
  slot : T → Option Nat := fun _ => .none
  result : T → Option Nat := fun _ => .none
  holder : Nat → Holder T := fun _ => .free
  reaper : T → Option T := fun _ => .none

structure Shared (T : Type) where
  pt_lock : Futex T := ⟨0, []⟩
  table : Mem T

section
variable {T : Type} [DecidableEq T]

def Mem.set (m : Mem T) (i : Nat) (f : pthread_slot → pthread_slot) : Mem T :=
  { m with pt_slots := Function.update m.pt_slots i (f (m.pt_slots i)) }

def Mem.hold (m : Mem T) (i : Nat) (x : Holder T) : Mem T := { m with holder := Function.update m.holder i x }

def Mem.live (m : Mem T) (t : T) (x : Life) : Mem T := { m with life := Function.update m.life t x }

/-- Joiner `t` has reaped `u`. -/
def Mem.reap (m : Mem T) (t u : T) : Mem T :=
  { m with life := Function.update m.life u .reaped, reaper := Function.update m.reaper u (some t) }

/-- Joiner `t` has done with the table. -/
def Mem.leaves (m : Mem T) (t : T) : Mem T :=
  { m with reaper := fun u => if m.reaper u = some t then none else m.reaper u }

def Mem.results (m : Mem T) (t : T) (r : Nat) : Mem T := { m with result := Function.update m.result t (some r) }

/-- The kernel creates thread `u`. -/
def Mem.spawn (m : Mem T) (u : T) (tid : Int) (raw : Option Nat) (given : Option (Nat × Nat)) : Mem T :=
  { m with
    life := Function.update m.life u (.created raw)
    tid := Function.update m.tid u tid
    given := Function.update m.given u given
    slot := Function.update m.slot u raw }

end

/-! ## Places -/

/-- The loop of `slot_for_tid` at index `i`: about to read `in_use`, or `tid`. -/
inductive LookPoint
  | in_use (i : Nat)
  | tid (i : Nat)
  deriving DecidableEq, Repr

/-- Points of `pthread_create`, named after the operation that is next; `fill i k`
is before the `k`-th of the six stores into the new slot. -/
inductive CreatePoint
  | lock
  | scan (i : Nat)
  | fill (i k : Nat)
  | unlock (i : Nat)
  | thread_create (i : Nat)
  | relock (i : Nat) (rc : Int)
  | clear (i : Nat) (rc : Int)
  | leave (rc : Int)
  | store (tid : Int)
  deriving DecidableEq, Repr

/-- Points of `pthread_join`. -/
inductive JoinPoint
  | thread_join
  | lock
  | look (q : LookPoint)
  | retval (i : Nat)
  | clear (i : Nat)
  | none
  | leave
  deriving DecidableEq, Repr

/-- Points of `pthread_exit`; `r` is its argument. -/
inductive ExitPoint
  | lock (r : Nat)
  | look (q : LookPoint) (r : Nat)
  | retval (i r : Nat)
  | finished (i : Nat)
  | unlock
  deriving DecidableEq, Repr

/-- Points of `pthread_trampoline`, before and after the call of the start routine. -/
inductive TrampPoint
  | tid (i : Nat)
  | start (i : Nat)
  | arg (i fn : Nat)
  | retval (i r : Nat)
  | finished (i : Nat)
  deriving DecidableEq, Repr

/-- Where a thread is. `user` is in the program's code. -/
inductive Frame
  | unborn
  | user
  | create (q : CreatePoint)
  | join (q : JoinPoint)
  | exit (q : ExitPoint)
  | tramp (q : TrampPoint)
  | thread_exit
  | ret (rc : Int)
  | dead
  deriving DecidableEq, Repr

/-- What a place has to do with `pt_lock`. -/
inductive Guard
  | off
  | locking
  | locked
  | unlocking
  deriving DecidableEq, Repr

def Frame.guard : Frame → Guard
  | .create .lock | .create (.relock ..) | .join .lock | .exit (.lock _) => .locking
  | .create (.scan _) | .create (.fill ..) | .create (.clear ..) => .locked
  | .join (.look _) | .join (.retval _) | .join (.clear _) | .join .none => .locked
  | .exit (.look ..) | .exit (.retval ..) | .exit (.finished _) => .locked
  | .create (.unlock _) | .create (.leave _) | .join .leave | .exit .unlock => .unlocking
  | _ => .off

/-- The function of the mutex that is called at such a place. -/
def Guard.entry : Guard → Point
  | .locking => .lock .cas
  | .unlocking => .unlock .fetch_sub
  | _ => .rest

/-- The program's calls that return. -/
inductive Call
  | create (thread attr : Ptr) (start_routine arg : Nat)
  | join (thread : Int) (retval : Ptr)
  deriving DecidableEq, Repr

/-- A thread. `raw` is the variable of its trampoline, `runs` the routine and the
argument it called; `stored` and `got` are what the last call wrote to `*thread` and
`*retval`, `made`, `reaped` and `freed` the thread it created, the one it reaped,
and whose slots it freed. -/
structure Task (T : Type) where
  frame : Frame := .unborn
  mtx : Use := {}
  call : Call := .join 0 .null
  raw : Option Nat := none
  runs : Option (Nat × Nat) := none
  stored : Option Int := none
  got : Option Nat := none
  made : Option T := none
  reaped : Option T := none
  freed : List (Holder T) := []
  deriving DecidableEq

/-- A step of the program (a call, `thread_create`, `pthread_exit`, a return from the
start routine), the next operation of a function, or what the kernel does: it
creates a thread, refuses a call, ends a `thread_join`, or lets `__tls_setup_self`
fail in a new thread. -/
inductive Act (T : Type)
  | call (c : Call)
  | exit (r : Nat)
  | ret (r : Nat)
  | op (a : Choice T)
  | created (u : T) (tid : Int)
  | refused (rc : Int)
  | reap (u : T)
  | tlsFails
  deriving DecidableEq

/-! ## The code -/

section
variable {T : Type} [DecidableEq T]

def Task.goto (p : Task T) (f : Frame) : Task T := { p with frame := f, mtx := { p.mtx with pc := f.guard.entry } }

/-- The loop of `slot_for_tid`: the next read, or the result. -/
def slot_for_tid (slots : Nat → pthread_slot) (tid : Int) : LookPoint → LookPoint ⊕ Option Nat
  | .in_use i =>
    if (slots i).in_use ≠ 0 then .inl (.tid i)
    else if i + 1 < PTHREAD_MAX then .inl (.in_use (i + 1)) else .inr none
  | .tid i =>
    if (slots i).tid = tid then .inr (some i)
    else if i + 1 < PTHREAD_MAX then .inl (.in_use (i + 1)) else .inr none

/-- The six stores into a new slot. -/
def pthread_slot.fill (start_routine arg : Nat) (s : pthread_slot) : Nat → pthread_slot
  | 0 => { s with in_use := 1 }
  | 1 => { s with tid := 0 }
  | 2 => { s with finished := 0 }
  | 3 => { s with start := start_routine }
  | 4 => { s with arg }
  | _ => { s with retval := 0 }

def pthread_create (t : T) (m : Mem T) (p : Task T) (thread : Ptr) (start_routine arg : Nat) :
    CreatePoint → Act T → Option (Mem T × Task T)
  | .lock, .op .go => some (m, p.goto (.create (.scan 0)))
  | .scan i, .op .go =>
    if (m.pt_slots i).in_use = 0 then some (m, p.goto (.create (.fill i 0)))
    else if i + 1 < PTHREAD_MAX then some (m, p.goto (.create (.scan (i + 1))))
    else some (m, p.goto (.create (.leave (-EAGAIN))))
  | .fill i k, .op .go =>
    some ((m.set i (·.fill start_routine arg k)).hold i (.maker t),
      p.goto (.create (if k < 5 then .fill i (k + 1) else .unlock i)))
  | .unlock i, .op .go => some (m, p.goto (.create (.thread_create i)))
  | .thread_create i, .created u tid =>
    if m.life u = .none ∧ 0 < tid then
      some ((m.spawn u tid (some i) (some (start_routine, arg))).hold i (.thread u),
        { p.goto (.create (.store tid)) with made := some u })
    else none
  | .thread_create i, .refused rc => if rc < 0 then some (m, p.goto (.create (.relock i rc))) else none
  | .relock i rc, .op .go => some (m, p.goto (.create (.clear i rc)))
  | .clear i rc, .op .go => some ((m.set i ({ · with in_use := 0 })).hold i .free, p.goto (.create (.leave rc)))
  | .leave rc, .op .go => some (m, p.goto (.ret rc))
  | .store tid, .op .go =>
    some (m, { p.goto (.ret 0) with stored := if thread = .null then p.stored else some tid })
  | _, _ => none

def pthread_join (t : T) (m : Mem T) (p : Task T) (thread : Int) (retval : Ptr) :
    JoinPoint → Act T → Option (Mem T × Task T)
  | .thread_join, .reap u =>
    if m.life u = .exited ∧ m.tid u = thread then
      some (m.reap t u, { p.goto (.join .lock) with reaped := some u })
    else none
  | .thread_join, .refused rc => if rc ≠ 0 then some (m, p.goto (.ret rc)) else none
  | .lock, .op .go => some (m, p.goto (.join (.look (.in_use 0))))
  | .look q, .op .go =>
    match slot_for_tid m.pt_slots thread q with
    | .inl q' => some (m, p.goto (.join (.look q')))
    | .inr (some i) => some (m, p.goto (.join (if retval ≠ .null then .retval i else .clear i)))
    | .inr none => some (m, p.goto (.join .none))
  | .retval i, .op .go => some (m, { p.goto (.join (.clear i)) with got := some (m.pt_slots i).retval })
  | .clear i, .op .go =>
    some (((m.set i ({ · with in_use := 0 })).hold i .free).leaves t,
      { p.goto (.join .leave) with freed := p.freed ++ [m.holder i] })
  | .none, .op .go =>
    some (m.leaves t, { p.goto (.join .leave) with got := if retval ≠ .null then some 0 else p.got })
  | .leave, .op .go => some (m, p.goto (.ret 0))
  | _, _ => none

def pthread_exit (t : T) (m : Mem T) (p : Task T) : ExitPoint → Act T → Option (Mem T × Task T)
  | .lock r, .op .go => some (m, p.goto (.exit (.look (.in_use 0) r)))
  | .look q r, .op .go =>
    match slot_for_tid m.pt_slots (m.tid t) q with
    | .inl q' => some (m, p.goto (.exit (.look q' r)))
    | .inr (some i) => some (m, p.goto (.exit (.retval i r)))
    | .inr none => some (m, p.goto (.exit .unlock))
  | .retval i r, .op .go => some (m.set i ({ · with retval := r }), p.goto (.exit (.finished i)))
  | .finished i, .op .go => some (m.set i ({ · with finished := 1 }), p.goto (.exit .unlock))
  | .unlock, .op .go => some (m, p.goto .thread_exit)
  | _, _ => none

def pthread_trampoline (t : T) (m : Mem T) (p : Task T) : TrampPoint → Act T → Option (Mem T × Task T)
  | .tid i, .op .go => some (m.set i ({ · with tid := m.tid t }), p.goto (.tramp (.start i)))
  | .start i, .op .go => some (m, p.goto (.tramp (.arg i (m.pt_slots i).start)))
  | .arg i fn, .op .go => some (m, { p.goto .user with raw := some i, runs := some (fn, (m.pt_slots i).arg) })
  | .retval i r, .op .go => some (m.set i ({ · with retval := r }), p.goto (.tramp (.finished i)))
  | .finished i, .op .go => some (m.set i ({ · with finished := 1 }), p.goto .thread_exit)
  | _, _ => none

/-- The start of a call: the checks of `pthread_create`. -/
def Call.enter : Call → Frame
  | .create _ attr start_routine _ =>
    if start_routine = 0 then .ret (-EINVAL) else if attr ≠ .null then .ret (-EINVAL) else .create .lock
  | .join .. => .join .thread_join

/-- What the program's code can do. -/
def Task.program (t : T) (m : Mem T) (p : Task T) : Act T → Option (Mem T × Task T)
  | .call c =>
    some (m, { p.goto c.enter with call := c, stored := none, got := none, made := none, reaped := none, freed := [] })
  | .exit r => some (m.results t r, p.goto (.exit (.lock r)))
  | .ret r =>
    match p.raw with
    | some i => some (m.results t r, p.goto (.tramp (.retval i r)))
    | none => some (m, p.goto .thread_exit)
  | .created u tid => if m.life u = .none ∧ 0 < tid then some (m.spawn u tid none none, p.goto .user) else none
  | _ => none

/-- A thread starts in `thread_trampoline`, which sets up its TLS and calls what it was given. -/
def Task.begin (t : T) (m : Mem T) (p : Task T) (a : Act T) : Option (Mem T × Task T) :=
  match m.life t, a with
  | .created (some i), .op .go => some (m.live t .alive, p.goto (.tramp (.tid i)))
  | .created none, .op .go => some (m.live t .alive, p.goto .user)
  | .created _, .tlsFails => some (m.live t .exited, p.goto .dead)
  | _, _ => none

/-- The next step outside the functions of the mutex. -/
def Task.outer (t : T) (m : Mem T) (p : Task T) (a : Act T) : Option (Mem T × Task T) :=
  match p.frame with
  | .unborn => p.begin t m a
  | .user => p.program t m a
  | .create q =>
    match p.call with
    | .create thread _ start_routine arg => pthread_create t m p thread start_routine arg q a
    | .join .. => none
  | .join q =>
    match p.call with
    | .join thread retval => pthread_join t m p thread retval q a
    | .create .. => none
  | .exit q => pthread_exit t m p q a
  | .tramp q => pthread_trampoline t m p q a
  | .thread_exit => if a = .op .go then some (m.live t .exited, p.goto .dead) else none
  | .ret _ => if a = .op .go then some (m, p.goto .user) else none
  | .dead => none

def Task.move (t : T) (m : Shared T) (p : Task T) (a : Act T) : Option (Shared T × Task T) :=
  if p.mtx.outside then (p.outer t m.table a).map fun r => ({ m with table := r.1 }, r.2)
  else
    match a with
    | .op b => (p.mtx.move t m.pt_lock b).map fun r => ({ m with pt_lock := r.1 }, { p with mtx := r.2 })
    | _ => none

abbrev Sys (T : Type) := Conf T (Shared T) (Task T)

/-- The table empty, and only the main thread, with number `x`. -/
def start (main : T) (x : Int) : Sys T where
  mem := { table := { life := fun t => if t = main then .alive else .none, tid := fun _ => x } }
  thr t := { frame := if t = main then .user else .unborn }

abbrev step : Sys T → T × Act T → Option (Sys T) := Conf.step Task.move

/-! ## The lock -/

/-- The order in which a thread goes through the four kinds of places. -/
def Guard.next : Guard → Guard → Bool
  | .off, .off | .off, .locking | .locking, .locked | .locked, .locked | .locked, .unlocking | .unlocking, .off => true
  | _, _ => false

/-- A thread at such a place has the lock, or is in its functions. -/
def Guard.fits : Guard → Use → Prop
  | .off, v => v = ⟨.rest, false⟩
  | .locking, v => (∃ q, v = ⟨.lock q, false⟩) ∨ v = ⟨.ret 0, true⟩
  | .locked, v => v = ⟨.rest, true⟩
  | .unlocking, v => (∃ q, v = ⟨.unlock q, decide (q = .fetch_sub)⟩) ∨ v = ⟨.ret 0, false⟩

theorem Guard.fits.next {g g' : Guard} {v : Use} (h : g.fits v) (ho : v.outside = true) (hn : g.next g' = true) :
    g'.fits ⟨g'.entry, v.holds⟩ := by
  cases g with
  | off =>
    cases h
    cases g' <;> simp_all [Guard.next, Guard.fits, Guard.entry]
  | locked =>
    cases h
    cases g' <;> simp_all [Guard.next, Guard.fits, Guard.entry]
  | locking =>
    rcases h with ⟨q, rfl⟩ | rfl
    · simp [Use.outside] at ho
    · cases g' <;> simp_all [Guard.next, Guard.fits, Guard.entry]
  | unlocking =>
    rcases h with ⟨q, rfl⟩ | rfl
    · simp [Use.outside] at ho
    · cases g' <;> simp_all [Guard.next, Guard.fits, Guard.entry]

/-- The functions of the mutex keep the thread at its place. -/
theorem Guard.fits.inside {g : Guard} {v x : Use} {t : T} {f f' : Futex T} (h : g.fits v) (hm : v.Moves t f f' x) :
    g.fits x := by
  cases g with
  | off | locked =>
    cases h
    cases hm <;> simp_all
  | locking =>
    rcases h with ⟨q, rfl⟩ | rfl <;> cases hm <;> simp_all [Guard.fits]
  | unlocking =>
    rcases h with ⟨q, rfl⟩ | rfl <;> cases hm <;> simp_all [Guard.fits]

variable {t : T} {m m' : Mem T} {p p' : Task T} {a : Act T}

/-- What every step outside the mutex has in common: it goes to the next kind of
place, and calls the function of the mutex that this place is for. -/
structure Task.Goes (p p' : Task T) : Prop where
  mtx : p'.mtx = { p.mtx with pc := p'.frame.guard.entry }
  next : p.frame.guard.next p'.frame.guard = true

theorem create_goes {thread : Ptr} {fn arg : Nat} {q : CreatePoint} (hf : p.frame = .create q)
    (h : pthread_create t m p thread fn arg q a = some (m', p')) : p.Goes p' := by
  unfold pthread_create at h
  split at h <;> (try split_ifs at h) <;> cases h <;> exact ⟨rfl, by rw [hf]; rfl⟩

theorem join_goes {thread : Int} {retval : Ptr} {q : JoinPoint} (hf : p.frame = .join q)
    (h : pthread_join t m p thread retval q a = some (m', p')) : p.Goes p' := by
  unfold pthread_join at h
  split at h
  case h_4 => split at h <;> (try split_ifs at h) <;> cases h <;> exact ⟨rfl, by rw [hf]; rfl⟩
  all_goals (try split_ifs at h) <;> cases h <;> exact ⟨rfl, by rw [hf]; rfl⟩

omit [DecidableEq T] in
theorem exit_goes {q : ExitPoint} (hf : p.frame = .exit q) (h : pthread_exit t m p q a = some (m', p')) :
    p.Goes p' := by
  unfold pthread_exit at h
  split at h
  case h_2 => split at h <;> cases h <;> exact ⟨rfl, by rw [hf]; rfl⟩
  all_goals cases h <;> exact ⟨rfl, by rw [hf]; rfl⟩

omit [DecidableEq T] in
theorem trampoline_goes {q : TrampPoint} (hf : p.frame = .tramp q) (h : pthread_trampoline t m p q a = some (m', p')) :
    p.Goes p' := by
  unfold pthread_trampoline at h
  split at h <;> cases h <;> exact ⟨rfl, by rw [hf]; rfl⟩

theorem Call.enter_next (c : Call) : Guard.off.next c.enter.guard = true := by
  cases c <;> simp only [Call.enter] <;> (try split_ifs) <;> rfl

theorem program_goes (hf : p.frame = .user) (h : p.program t m a = some (m', p')) : p.Goes p' := by
  unfold Task.program at h
  split at h
  · cases h
    exact ⟨rfl, by rw [hf]; exact Call.enter_next _⟩
  · cases h
    exact ⟨rfl, by rw [hf]; rfl⟩
  · split at h <;> cases h <;> exact ⟨rfl, by rw [hf]; rfl⟩
  · split_ifs at h
    cases h
    exact ⟨rfl, by rw [hf]; rfl⟩
  · cases h

theorem begin_goes (hf : p.frame = .unborn) (h : p.begin t m a = some (m', p')) : p.Goes p' := by
  unfold Task.begin at h
  split at h <;> cases h <;> exact ⟨rfl, by rw [hf]; rfl⟩

theorem Task.outer_goes (h : p.outer t m a = some (m', p')) : p.Goes p' := by
  unfold Task.outer at h
  split at h
  · exact begin_goes ‹_› h
  · exact program_goes ‹_› h
  · split at h
    · exact create_goes ‹_› h
    · cases h
  · split at h
    · exact join_goes ‹_› h
    · cases h
  · exact exit_goes ‹_› h
  · exact trampoline_goes ‹_› h
  · split_ifs at h
    cases h
    exact ⟨rfl, by simp [*]; rfl⟩
  · split_ifs at h
    cases h
    exact ⟨rfl, by simp [*]; rfl⟩
  · cases h

/-- The thread's place fits its use of the lock. -/
abbrev Task.fits (p : Task T) : Prop := p.frame.guard.fits p.mtx

variable {n n' : Shared T}

/-- A step is one of the mutex alone, or one outside its functions. -/
theorem Task.move_cases (h : p.move t n a = some (n', p')) :
    (∃ v, p.mtx.Moves t n.pt_lock n'.pt_lock v ∧ n'.table = n.table ∧ p' = { p with mtx := v }) ∨
      (p.mtx.outside = true ∧ p.outer t n.table a = some (n'.table, p') ∧ n'.pt_lock = n.pt_lock) := by
  unfold Task.move at h
  split at h
  · obtain ⟨⟨m', p1⟩, h1, h2⟩ := Option.map_eq_some_iff.1 h
    cases h2
    exact .inr ⟨‹_›, h1, rfl⟩
  · split at h
    · obtain ⟨⟨f, v⟩, h1, h2⟩ := Option.map_eq_some_iff.1 h
      cases h2
      exact .inl ⟨v, Use.move_moves h1, rfl, rfl⟩
    · cases h

theorem Task.fits.move (hp : p.fits) (h : p.move t n a = some (n', p')) : p'.fits := by
  rcases Task.move_cases h with ⟨v, hm, -, rfl⟩ | ⟨ho, h, -⟩
  · exact Guard.fits.inside hp hm
  · obtain ⟨hmtx, hnext⟩ := Task.outer_goes h
    rw [Task.fits, hmtx]
    exact Guard.fits.next hp ho hnext

theorem Guard.entry_entry (g : Guard) (b : Bool) : Use.entry ⟨g.entry, b⟩ := by
  cases g <;> simp [Use.entry, Guard.entry]

/-- A step of the system is a step of the mutex, and unlocks only what is held. -/
theorem Task.move_step (hp : p.fits) (h : p.move t n a = some (n', p')) :
    Step t n.pt_lock p.mtx p'.mtx n'.pt_lock ∧ (p'.mtx.pc = .unlock .fetch_sub → p'.mtx.holds = true) := by
  rcases Task.move_cases h with ⟨v, hm, -, rfl⟩ | ⟨ho, h', hlock⟩
  · exact ⟨.inside hm, fun hpc => absurd hpc hm.pc_ne⟩
  · obtain ⟨hmtx, hnext⟩ := Task.outer_goes h'
    refine ⟨?_, fun hpc => ?_⟩
    · rw [hmtx, hlock]
      exact .outside ho (Guard.entry_entry ..) rfl
    · have hfits := hp.move h
      rw [Task.fits, hmtx] at hfits
      rw [hmtx] at hpc ⊢
      cases hg : p'.frame.guard <;> simp_all [Guard.fits, Guard.entry]

variable {main : T} {x : Int} {s s' : Sys T} {l : T × Act T} {ok : Sys T → T × Act T → Sys T → Prop}

theorem run_fits (h : Run step ok (start main x) s) (t : T) : (s.thr t).fits := by
  refine run_local (fun _ _ p => p.fits) (fun t => ?_) (fun _ _ _ _ hp _ hm => hp.move hm)
    (fun _ _ _ _ u hp _ _ _ => hp u) h t
  by_cases ht : t = main <;> simp [Task.fits, start, ht, Frame.guard, Guard.fits]

theorem run_excl (h : Run step ok (start main x) s) : Excl s.mem.pt_lock fun t => (s.thr t).mtx := by
  refine h.inv_reach (fun s => Excl s.mem.pt_lock fun t => (s.thr t).mtx) ?_ ?_
  · refine ⟨.inl rfl, fun t ht => ?_, fun t u ht _ => ?_, fun t p hp => ?_⟩
    · simp [start, Use.owns] at ht
    · simp [start, Use.owns] at ht
    · simp [start] at hp
  · intro s l s' hrun hi _ hst
    obtain ⟨hstep, hunlock⟩ := Task.move_step (run_fits hrun l.1) (Conf.step_self hst)
    have hthr : (fun t => (s'.thr t).mtx) = Function.update (fun t => (s.thr t).mtx) l.1 (s'.thr l.1).mtx := by
      funext t
      by_cases ht : t = l.1
      · subst ht
        rw [Function.update_self]
      · rw [Function.update_of_ne ht, Conf.step_other hst ht]
    rw [hthr]
    exact hi.step hstep hunlock

/-- No two threads are at places where they have the lock. -/
theorem locked_unique (h : Run step ok (start main x) s) {t u : T} (ht : (s.thr t).frame.guard = .locked)
    (hu : (s.thr u).frame.guard = .locked) : t = u := by
  have holds : ∀ v, (s.thr v).frame.guard = .locked → (s.thr v).mtx.owns := by
    intro v hv
    have := run_fits h v
    rw [Task.fits, hv] at this
    exact .inl (congrArg Use.holds this)
  exact (run_excl h).one t u (holds t ht) (holds u hu)

end

end LibNeoos.Pthread.Table
