import LibNeoos.Errno
import LibNeoos.Lib.Int32
import LibNeoos.Lib.Threads
/-!
# The mutex of `pthread.c`

`pthread_mutex_trylock`, `pthread_mutex_lock` and `pthread_mutex_unlock`, one
atomic operation or system call at a time: each function takes the point the
calling thread has reached and gives the memory and the point after the next
operation. `m.word` is `m->state`, `m.queue` are the threads asleep on it.

The functions are called by programs and by other functions of the library. A
`Use` is a thread's place in them, with whether it holds the mutex; `Step` is
any step of a system whose threads touch the mutex only through them. The two
invariants are proved for `Step`: `Excl` (mutual exclusion) if only the holder
unlocks, and `Alert` (no wake-up is lost) whoever unlocks.
-/

namespace LibNeoos.Pthread

open Lib

/-! ## The code -/

/-- Points of `pthread_mutex_lock`, named after the operation that is next. The
exchange before the loop and the one in it are followed by the same test. -/
inductive LockPoint
  | cas
  | xchg
  | wait
  | asleep
  deriving DecidableEq, Repr

/-- Points of `pthread_mutex_unlock`. -/
inductive UnlockPoint
  | fetch_sub
  | store
  | wake
  deriving DecidableEq, Repr

/-- Where a thread is with the functions of one mutex: in none of them, in one,
or about to return from one. -/
inductive Point
  | rest
  | trylock
  | lock (p : LockPoint)
  | unlock (p : UnlockPoint)
  | ret (rc : Int)
  deriving DecidableEq, Repr

section
variable {T : Type} [DecidableEq T]

def pthread_mutex_trylock (m : Futex T) : Choice T → Option (Futex T × Point)
  | .go => if m.word = 0 then some ({ m with word := 1 }, .ret 0) else some (m, .ret (-EBUSY))
  | _ => none

def pthread_mutex_lock (t : T) (m : Futex T) : LockPoint → Choice T → Option (Futex T × Point)
  | .cas, .go =>
    if m.word = 0 then some ({ m with word := 1 }, .ret 0)
    else some (m, .lock (if m.word ≠ 2 then .xchg else .wait))
  | .xchg, .go => some ({ m with word := 2 }, if m.word ≠ 0 then .lock .wait else .ret 0)
  | .wait, .go =>
    match m.wait t 2 with
    | some m' => some (m', .lock .asleep)
    | none => some (m, .lock .xchg)
  -- the wait returns without having slept
  | .wait, .resume o => if o ≠ .timeout then some (m, .lock .xchg) else none
  | .asleep, .resume o => if m.mayResume t false o then some (m.leave t, .lock .xchg) else none
  | _, _ => none

def pthread_mutex_unlock (m : Futex T) : UnlockPoint → Choice T → Option (Futex T × Point)
  | .fetch_sub, .go => some ({ m with word := int32 (m.word - 1) }, if m.word ≠ 1 then .unlock .store else .ret 0)
  | .store, .go => some ({ m with word := 0 }, .unlock .wake)
  | .wake, .wake ts => if m.mayWake 1 ts then some (m.wake ts, .ret 0) else none
  | _, _ => none

/-! ## A thread's use of the mutex -/

/-- Where the thread is, and whether it has the mutex: from the operation that
took it to the `fetch_sub` of its unlock. -/
structure Use where
  pc : Point := .rest
  holds : Bool := false
  deriving DecidableEq, Repr

/-- The next operation of a thread that is in one of the functions. -/
def Use.move (t : T) (m : Futex T) (v : Use) (a : Choice T) : Option (Futex T × Use) :=
  match v.pc with
  | .trylock => (pthread_mutex_trylock m a).map fun r => (r.1, ⟨r.2, v.holds || r.2 = .ret 0⟩)
  | .lock p => (pthread_mutex_lock t m p a).map fun r => (r.1, ⟨r.2, v.holds || r.2 = .ret 0⟩)
  | .unlock p => (pthread_mutex_unlock m p a).map fun r => (r.1, ⟨r.2, v.holds && p ≠ .fetch_sub⟩)
  | .rest | .ret _ => none

/-- All that an operation can do. -/
inductive Use.Moves (t : T) (m : Futex T) (v : Use) : Futex T → Use → Prop
  | acquire : v.pc = .trylock ∨ v.pc = .lock .cas → m.word = 0 → Moves t m v { m with word := 1 } ⟨.ret 0, true⟩
  | busy : v.pc = .trylock → m.word ≠ 0 → Moves t m v m { v with pc := .ret (-EBUSY) }
  | contend {p : LockPoint} : v.pc = .lock .cas → m.word ≠ 0 → (p = .xchg ∨ p = .wait) →
      Moves t m v m { v with pc := .lock p }
  | take : v.pc = .lock .xchg → m.word = 0 → Moves t m v { m with word := 2 } ⟨.ret 0, true⟩
  | mark : v.pc = .lock .xchg → m.word ≠ 0 → Moves t m v { m with word := 2 } { v with pc := .lock .wait }
  | sleep : v.pc = .lock .wait → m.word = 2 →
      Moves t m v { m with queue := m.queue ++ [t] } { v with pc := .lock .asleep }
  | again : v.pc = .lock .wait → Moves t m v m { v with pc := .lock .xchg }
  | resume : v.pc = .lock .asleep → Moves t m v (m.leave t) { v with pc := .lock .xchg }
  | release : v.pc = .unlock .fetch_sub → m.word = 1 → Moves t m v { m with word := 0 } ⟨.ret 0, false⟩
  | lower : v.pc = .unlock .fetch_sub → m.word ≠ 1 →
      Moves t m v { m with word := int32 (m.word - 1) } ⟨.unlock .store, false⟩
  | clear : v.pc = .unlock .store → Moves t m v { m with word := 0 } { v with pc := .unlock .wake }
  | wake {ts : List T} : v.pc = .unlock .wake → m.mayWake 1 ts = true → Moves t m v (m.wake ts) { v with pc := .ret 0 }

variable {t : T} {m m' : Futex T} {v x : Use}

theorem trylock_moves {a : Choice T} {pc : Point} (hv : v.pc = .trylock)
    (h : pthread_mutex_trylock m a = some (m', pc)) :
    v.Moves t m m' ⟨pc, v.holds || pc = .ret 0⟩ := by
  unfold pthread_mutex_trylock at h
  split at h
  · split at h <;> cases h
    · simpa using Use.Moves.acquire (t := t) (.inl hv) ‹_›
    · simpa using Use.Moves.busy (t := t) hv ‹_›
  · cases h

theorem lock_moves {a : Choice T} {p : LockPoint} {pc : Point} (hv : v.pc = .lock p)
    (h : pthread_mutex_lock t m p a = some (m', pc)) : v.Moves t m m' ⟨pc, v.holds || pc = .ret 0⟩ := by
  unfold pthread_mutex_lock at h
  split at h
  · split at h <;> cases h
    · simpa using Use.Moves.acquire (.inr hv) ‹_›
    · have hp : (if m.word ≠ 2 then LockPoint.xchg else .wait) = .xchg ∨
          (if m.word ≠ 2 then LockPoint.xchg else .wait) = .wait := by
        split <;> simp
      simpa using Use.Moves.contend (t := t) hv ‹_› hp
  · cases h
    split
    · simpa using Use.Moves.mark (t := t) hv ‹_›
    · simpa using Use.Moves.take (t := t) hv (not_not.1 ‹_›)
  · split at h <;> cases h
    · obtain ⟨hword, rfl⟩ := Futex.wait_some ‹_›
      simpa using Use.Moves.sleep hv hword
    · simpa using Use.Moves.again hv
  · split at h <;> cases h
    simpa using Use.Moves.again hv
  · split at h <;> cases h
    simpa using Use.Moves.resume hv
  · cases h

theorem unlock_moves {a : Choice T} {p : UnlockPoint} {pc : Point} (hv : v.pc = .unlock p)
    (h : pthread_mutex_unlock m p a = some (m', pc)) : v.Moves t m m' ⟨pc, v.holds && p ≠ .fetch_sub⟩ := by
  unfold pthread_mutex_unlock at h
  split at h
  · cases h
    split
    · simpa using Use.Moves.lower (t := t) hv ‹_›
    · have hone : m.word = 1 := not_not.1 ‹_›
      simpa [hone, int32] using Use.Moves.release (t := t) hv hone
  · cases h
    simpa using Use.Moves.clear (t := t) hv
  · split at h <;> cases h
    simpa using Use.Moves.wake (t := t) hv ‹_›
  · cases h

theorem Use.move_moves {a : Choice T} (h : v.move t m a = some (m', x)) : v.Moves t m m' x := by
  unfold Use.move at h
  split at h
  · obtain ⟨⟨m1, pc⟩, h1, h2⟩ := Option.map_eq_some_iff.1 h
    cases h2
    exact trylock_moves ‹_› h1
  · obtain ⟨⟨m1, pc⟩, h1, h2⟩ := Option.map_eq_some_iff.1 h
    cases h2
    exact lock_moves ‹_› h1
  · obtain ⟨⟨m1, pc⟩, h1, h2⟩ := Option.map_eq_some_iff.1 h
    cases h2
    exact unlock_moves ‹_› h1
  · cases h
  · cases h

theorem Use.Moves.pc_ne (h : v.Moves t m m' x) : x.pc ≠ .unlock .fetch_sub := by
  cases h <;> simp

/-- `pthread_mutex_lock` returns 0, and with the mutex. -/
theorem Use.Moves.of_lock (h : v.Moves t m m' x) {p : LockPoint} (hv : v.pc = .lock p) :
    (∃ q, x.pc = .lock q) ∨ (x.pc = .ret 0 ∧ x.holds = true) := by
  cases h <;> simp_all

/-- If `pthread_mutex_trylock` returns 0, it does so with the mutex. -/
theorem Use.Moves.of_trylock (h : v.Moves t m m' x) (hv : v.pc = .trylock) :
    ∃ rc, x.pc = .ret rc ∧ (rc = 0 → x.holds = true) := by
  cases h <;> simp_all

/-! ## Steps of a system that uses the mutex -/

/-- The thread is in none of the functions, or has done its last operation. -/
def Use.outside (v : Use) : Bool :=
  match v.pc with
  | .rest | .ret _ => true
  | _ => false

theorem Use.outside_iff : v.outside = true ↔ v.pc = .rest ∨ ∃ rc, v.pc = .ret rc := by
  unfold Use.outside
  split <;> simp_all

/-- If the thread is in one of the functions, its first operation is still to come. -/
def Use.entry (v : Use) : Prop := (∀ p, v.pc = .lock p → p = .cas) ∧ ∀ p, v.pc = .unlock p → p = .fetch_sub

theorem Use.outside_entry (h : v.outside = true) : v.entry := by
  rcases Use.outside_iff.1 h with h | ⟨rc, h⟩ <;> simp [Use.entry, h]

/-- Thread `t` does an operation of the function it is in, or returns from one
or calls one. -/
inductive Step (t : T) (m : Futex T) (v : Use) (x : Use) : Futex T → Prop
  | inside {m' : Futex T} : v.Moves t m m' x → Step t m v x m'
  | outside : v.outside = true → x.entry → x.holds = v.holds → Step t m v x m

/-! ## Mutual exclusion -/

/-- The thread holds the mutex or is about to store 0. -/
def Use.owns (v : Use) : Prop := v.holds = true ∨ v.pc = .unlock .store

/-- In an unlock the thread holds the mutex up to the `fetch_sub`, and no longer. -/
def Use.lawful (v : Use) : Prop := ∀ p, v.pc = .unlock p → (v.holds = true ↔ p = .fetch_sub)

/-- At most one thread owns the mutex, and while one does the state is not 0. -/
structure Excl (m : Futex T) (v : T → Use) : Prop where
  word : m.word = 0 ∨ m.word = 1 ∨ m.word = 2
  busy : ∀ t, (v t).owns → m.word ≠ 0
  one : ∀ t u, (v t).owns → (v u).owns → t = u
  lawful : ∀ t, (v t).lawful

theorem Use.Moves.lawful (h : v.Moves t m m' x) (hv : v.lawful) : x.lawful := by
  intro p hp
  cases h with
  | lower => cases hp; simp
  | clear h1 => cases hp; simpa using hv _ h1
  | _ => cases hp

/-- What an operation can do to the state of the mutex and to who owns it: take
the free mutex, free it, or leave it in the same hands. -/
theorem Use.Moves.hands (h : v.Moves t m m' x) (hw : m.word = 0 ∨ m.word = 1 ∨ m.word = 2) (hv : v.lawful)
    (hb : v.owns → m.word ≠ 0) :
    (m.word = 0 ∧ (m'.word = 1 ∨ m'.word = 2)) ∨ (v.owns ∧ ¬ x.owns ∧ m'.word = 0) ∨
      ((x.owns → v.owns) ∧ (m'.word = m.word ∨ m.word ≠ 0 ∧ (m'.word = 1 ∨ m'.word = 2))) := by
  have keeps : ∀ {pc : Point}, pc ≠ .unlock .store → Use.owns { v with pc } → v.owns := fun hpc ho =>
    ho.imp_right fun h => absurd h hpc
  cases h with
  | acquire h1 h2 => exact .inl ⟨h2, .inl rfl⟩
  | take h1 h2 => exact .inl ⟨h2, .inr rfl⟩
  | release h1 h2 => exact .inr (.inl ⟨.inl ((hv _ h1).2 rfl), by simp [Use.owns], rfl⟩)
  | clear h1 =>
    have hno : v.holds = false := by simpa using hv _ h1
    exact .inr (.inl ⟨.inr h1, by simp [Use.owns, hno], rfl⟩)
  | mark h1 h2 => exact .inr (.inr ⟨keeps (by simp), .inr ⟨h2, .inr rfl⟩⟩)
  | lower h1 h2 =>
    have hown : v.owns := .inl ((hv _ h1).2 rfl)
    have hword : m.word = 2 := by
      have := hb hown
      omega
    exact .inr (.inr ⟨fun _ => hown, .inr ⟨by omega, .inl (by simp [hword, int32])⟩⟩)
  | _ => exact .inr (.inr ⟨keeps (by simp), .inl rfl⟩)

theorem Excl.update {v : T → Use} (hi : Excl m v) (hw : m'.word = 0 ∨ m'.word = 1 ∨ m'.word = 2) (hl : x.lawful)
    (hx : x.owns → m'.word ≠ 0 ∧ ∀ u, u ≠ t → ¬ (v u).owns) (hu : ∀ u, u ≠ t → (v u).owns → m'.word ≠ 0) :
    Excl m' (Function.update v t x) := by
  have self := Function.update_self t x v
  have other : ∀ u, u ≠ t → Function.update v t x u = v u := fun u h => Function.update_of_ne h x v
  generalize Function.update v t x = v' at self other
  refine ⟨hw, fun u ho => ?_, fun u y ho ho' => ?_, fun u => ?_⟩ <;> by_cases hut : u = t
  · subst hut
    exact (hx (self ▸ ho)).1
  · exact hu u hut (other u hut ▸ ho)
  · subst hut
    by_contra hne
    exact (hx (self ▸ ho)).2 y (Ne.symm hne) (other y (Ne.symm hne) ▸ ho')
  · rw [other u hut] at ho
    by_cases hyt : y = t
    · subst hyt
      exact absurd ho ((hx (self ▸ ho')).2 u hut)
    · exact hi.one u y ho (other y hyt ▸ ho')
  · subst hut
    exact self ▸ hl
  · exact other u hut ▸ hi.lawful u

/-- A step keeps the exclusion, unless one calls `pthread_mutex_unlock` without
holding the mutex. -/
theorem Excl.step {v : T → Use} (hi : Excl m v) (h : Step t m (v t) x m')
    (hx : x.pc = .unlock .fetch_sub → x.holds = true) : Excl m' (Function.update v t x) := by
  have same : (x.owns → (v t).owns) → x.lawful → m'.word = m.word ∨ m.word ≠ 0 ∧ (m'.word = 1 ∨ m'.word = 2) →
      Excl m' (Function.update v t x) := by
    intro ho hl hw
    refine hi.update ?_ hl (fun h => ⟨?_, fun u hut hu => hut (hi.one u t hu (ho h))⟩) fun u _ hu => ?_
    · have := hi.word
      omega
    · have := hi.busy t (ho h)
      omega
    · have := hi.busy u hu
      omega
  cases h with
  | outside h1 h2 h3 =>
    refine same (fun ho => .inl ?_) (fun p hp => ?_) (.inl rfl)
    · rw [← h3]
      exact ho.resolve_right fun hs => absurd (h2.2 _ hs) (by simp)
    · cases h2.2 p hp
      simpa using hx hp
  | inside hm =>
    have hl := hm.lawful (hi.lawful t)
    rcases hm.hands hi.word (hi.lawful t) (hi.busy t) with ⟨h0, h1⟩ | ⟨ho, hno, h0⟩ | ⟨ho, hw⟩
    · -- nobody owned the mutex
      have free : ∀ u, ¬ (v u).owns := fun u hu => hi.busy u hu h0
      exact hi.update (by omega) hl (fun _ => ⟨by omega, fun u _ => free u⟩) fun u _ hu => absurd hu (free u)
    · exact hi.update (.inl h0) hl (fun h => absurd h hno) fun u hut hu => absurd (hi.one u t hu ho) hut
    · exact same ho hl hw

/-! ## No wake-up is lost -/

/-- The thread has yet to call `futex_wake` in its unlock. -/
def Use.wakes (v : Use) : Prop := v.pc = .unlock .store ∨ v.pc = .unlock .wake

/-- The thread is awake in the part of `pthread_mutex_lock` that follows a
failed compare-exchange. -/
def Use.contends (m : Futex T) (t : T) (v : Use) : Prop :=
  v.pc = .lock .xchg ∨ v.pc = .lock .wait ∨ (v.pc = .lock .asleep ∧ t ∉ m.queue)

/-- While a thread sleeps, the next unlock will wake one, one is about to be
woken, or one is awake that will set the state to 2 before it sleeps again. -/
structure Alert (m : Futex T) (v : T → Use) : Prop where
  asleep : ∀ t ∈ m.queue, (v t).pc = .lock .asleep
  heard : m.queue ≠ [] → m.word = 2 ∨ ∃ u, (v u).wakes ∨ (v u).contends m u

/-- A step puts nobody else on the queue, and the thread itself only if it is asleep after it. -/
theorem Step.queue (h : Step t m v x m') {u : T} (hu : u ∈ m'.queue) :
    (u ∈ m.queue ∧ (u = t → v.pc ≠ .lock .asleep)) ∨ (u = t ∧ x.pc = .lock .asleep) := by
  cases h with
  | outside h1 h2 h3 =>
    refine .inl ⟨hu, fun _ hp => ?_⟩
    rcases Use.outside_iff.1 h1 with h | ⟨rc, h⟩ <;> rw [h] at hp <;> cases hp
  | inside hm =>
    cases hm with
    | sleep h1 h2 =>
      rcases List.mem_append.1 hu with h | h
      · exact .inl ⟨h, fun _ => by simp [h1]⟩
      · exact .inr ⟨List.mem_singleton.1 h, rfl⟩
    | resume h1 =>
      obtain ⟨hq, hne⟩ := Futex.mem_leave.1 hu
      exact .inl ⟨hq, fun h => absurd h hne⟩
    | wake h1 h2 => exact .inl ⟨(Futex.mem_wake.1 hu).1, fun _ => by simp [h1]⟩
    | acquire h1 => exact .inl ⟨hu, fun _ hp => by rcases h1 with h | h <;> simp [h] at hp⟩
    | busy h1 => exact .inl ⟨hu, fun _ => by simp [h1]⟩
    | contend h1 => exact .inl ⟨hu, fun _ => by simp [h1]⟩
    | take h1 => exact .inl ⟨hu, fun _ => by simp [h1]⟩
    | mark h1 => exact .inl ⟨hu, fun _ => by simp [h1]⟩
    | again h1 => exact .inl ⟨hu, fun _ => by simp [h1]⟩
    | release h1 => exact .inl ⟨hu, fun _ => by simp [h1]⟩
    | lower h1 => exact .inl ⟨hu, fun _ => by simp [h1]⟩
    | clear h1 => exact .inl ⟨hu, fun _ => by simp [h1]⟩

/-- What a step does for the sleepers: it sets the state to 2 or leaves its
thread one that will act; it wakes one; or it leaves the sleepers, a state of 2
and those that will act as they are. -/
theorem Step.hears (h : Step t m v x m') (hq : m'.queue ≠ []) :
    m'.word = 2 ∨ x.wakes ∨ x.contends m' t ∨ (∃ u ∈ m.queue, u ∉ m'.queue ∧ v.pc = .unlock .wake) ∨
      (m'.queue = m.queue ∧ (m.word = 2 → m'.word = 2) ∧ ¬ v.wakes ∧ ¬ v.contends m t) := by
  cases h with
  | outside h1 h2 h3 =>
    rcases Use.outside_iff.1 h1 with h | ⟨rc, h⟩ <;> simp [Use.wakes, Use.contends, h]
  | inside hm =>
    cases hm with
    | acquire h1 h2 => rcases h1 with h | h <;> simp [Use.wakes, Use.contends, h, h2]
    | busy h1 h2 => simp [Use.wakes, Use.contends, h1]
    | contend h1 h2 h3 => rcases h3 with rfl | rfl <;> simp [Use.contends]
    | take h1 h2 => exact .inl rfl
    | mark h1 h2 => exact .inl rfl
    | sleep h1 h2 => exact .inl h2
    | again h1 => exact .inr (.inr (.inl (.inl rfl)))
    | resume h1 => exact .inr (.inr (.inl (.inl rfl)))
    | release h1 h2 => simp [Use.wakes, Use.contends, h1, h2]
    | lower h1 h2 => exact .inr (.inl (.inl rfl))
    | clear h1 => exact .inr (.inl (.inr rfl))
    | wake h1 h2 =>
      obtain ⟨y, hy⟩ := List.exists_mem_of_ne_nil _ hq
      obtain ⟨u, hu, huq⟩ := Futex.exists_woken h2 Nat.one_pos (Futex.mem_wake.1 hy).1
      exact .inr (.inr (.inr (.inl ⟨u, huq, fun h => (Futex.mem_wake.1 h).2 hu, h1⟩)))

theorem Alert.step {v : T → Use} (hi : Alert m v) (h : Step t m (v t) x m') : Alert m' (Function.update v t x) := by
  have self := Function.update_self t x v
  have other : ∀ u, u ≠ t → Function.update v t x u = v u := fun u h => Function.update_of_ne h x v
  generalize Function.update v t x = v' at self other
  refine ⟨fun u hu => ?_, fun hq => ?_⟩
  · rcases h.queue hu with ⟨hq, hne⟩ | ⟨rfl, hx⟩
    · by_cases hut : u = t
      · subst hut
        exact absurd (hi.asleep u hq) (hne rfl)
      · rw [other u hut]
        exact hi.asleep u hq
    · rwa [self]
  · rcases h.hears hq with h2 | hx | hx | ⟨u, hu, hu', hpc⟩ | ⟨hsame, h2, hw, hc⟩
    · exact .inl h2
    · exact .inr ⟨t, .inl (self ▸ hx)⟩
    · exact .inr ⟨t, .inr (self ▸ hx)⟩
    · have hpc' := hi.asleep u hu
      have hut : u ≠ t := by
        rintro rfl
        rw [hpc] at hpc'
        cases hpc'
      exact .inr ⟨u, .inr (.inr (.inr ⟨by rw [other u hut, hpc'], hu'⟩))⟩
    · rcases hi.heard (hsame ▸ hq) with h | ⟨u, hu⟩
      · exact .inl (h2 h)
      · have hut : u ≠ t := by
          rintro rfl
          exact hu.elim hw hc
        refine .inr ⟨u, ?_⟩
        rw [other u hut, Use.contends, hsame]
        exact hu

end

end LibNeoos.Pthread
