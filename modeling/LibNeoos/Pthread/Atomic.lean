import LibNeoos.Lib.Linear
import LibNeoos.Pthread.Cond
/-!
# The mutex is linearizable

Threads call the three functions of a mutex, from the program or, in a wait on the
condition variable, from `cond_wait_common`. `lockable` is what the functions are to
their callers: an owner, or none, and atomic calls. Every history of calls and returns
at the mutex is one of `lockable` (`mutex_linearizable`), so the three values of
`m->state` and the two stores of an unlock that has seen a 2 show to nobody.

`pthread_mutex_unlock` takes effect where the state becomes 0: with its `fetch_sub` if
that was 1, with its store of 0 otherwise. In between, the state is not 0 and
`pthread_mutex_trylock` is right to return `-EBUSY`.
-/

namespace LibNeoos.Pthread

open Lib Linear

/-! ## An owner and atomic calls -/

inductive LockOp
  | trylock
  | lock
  | unlock
  deriving DecidableEq, Repr

/-- With the given owner, the call of thread `t` can return the code and leave the new owner. -/
inductive Locks {T : Type} : Option T → T → LockOp → Int → Option T → Prop
  | trylock {t : T} : Locks none t .trylock 0 (some t)
  | busy {t u : T} : Locks (some u) t .trylock (-EBUSY) (some u)
  | lock {t : T} : Locks none t .lock 0 (some t)
  | unlock {t : T} : Locks (some t) t .unlock 0 none

/-- The abstract mutex. -/
def lockable (T : Type) : Object T (Option T) LockOp Int := ⟨none, Locks⟩

/-! ## Calls and returns at the mutex -/

/-- The function that is entered here. -/
def Point.enters : Point → Option LockOp
  | .trylock => some .trylock
  | .lock .cas => some .lock
  | .unlock .fetch_sub => some .unlock
  | _ => none

/-- What a thread at this point does: an unlock has taken effect before its wake-up call. -/
def Point.slot : Point → Slot LockOp Int
  | .rest => .idle
  | .trylock => .called .trylock
  | .lock _ => .called .lock
  | .unlock .wake => .done 0
  | .unlock _ => .called .unlock
  | .ret rc => .done rc

section
variable {T : Type}

/-- Going from one point to the other, the thread calls a function of the mutex or returns from one. -/
def Point.event (t : T) : Point → Point → Option (Event T LockOp Int)
  | .rest, q => q.enters.map (.call t ·)
  | .ret rc, .rest => some (.ret t rc)
  | _, _ => none

def observed (s : Sys T) (l : T × Act T) (s' : Sys T) : Option (Event T LockOp Int) :=
  Point.event l.1 (s.thr l.1).mtx.pc (s'.thr l.1).mtx.pc

variable [DecidableEq T]

/-! ## Where a thread is in the mutex -/

/-- A thread is in a function of the mutex exactly in the frames that have called one. -/
def Thread.placed (p : Thread) : Prop :=
  match p.frame with
  | .mutex | .wait (.unlocking _) | .wait (.locking _) => p.mtx.pc ≠ .rest
  | _ => p.mtx.pc = .rest

/-- What a step is at the mutex: an operation of the function the thread is in, or one
that does nothing to the mutex and by which the thread stays outside, calls or returns. -/
inductive Thread.AtMutex (t : T) (m : Futex T) (v : Use) (m' : Futex T) (x : Use) : Prop
  | inside : v.Moves t m m' x → AtMutex t m v m' x
  | away : m' = m → x.holds = v.holds → v.pc = .rest → x.pc = .rest → AtMutex t m v m' x
  | calls (o : LockOp) : m' = m → x.holds = v.holds → v.pc = .rest → x.pc.enters = some o → AtMutex t m v m' x
  | returns (rc : Int) : m' = m → x.holds = v.holds → v.pc = .ret rc → x.pc = .rest → AtMutex t m v m' x

variable {t : T} {m m' : Mem T} {p p' : Thread} {a : Act T}

omit [DecidableEq T] in
/-- A call of the program either does not call the mutex, or enters one of its functions. -/
theorem Call.enter_enters (c : Call) :
    (c.enter.2 = .rest ∧ c.enter.1 ≠ .mutex) ∨ (c.enter.1 = .mutex ∧ ∃ o, c.enter.2.enters = some o) := by
  cases c <;> simp only [Call.enter] <;> split_ifs <;> simp [Point.enters]

theorem Use.Moves.pc_ne_rest {v x : Use} {f f' : Futex T} (h : v.Moves t f f' x) : x.pc ≠ .rest := by
  cases h <;> simp

theorem cond_wait_atMutex {b : Choice T} {c : Futex T} {q : WaitPoint} {f : Frame} {pc : Point} (hp : p.placed)
    (hf : p.frame = .wait q) (ho : p.mtx.outside = true)
    (h : cond_wait_common t m.cond p.call.timed q b = some (c, f, pc)) {i j : Nat} :
    Thread.AtMutex t m.mutex p.mtx m.mutex { p.mtx with pc } ∧
      ({ p with frame := f, mtx := { p.mtx with pc }, waits := i, readAt := j } : Thread).placed := by
  have hret : p.mtx.pc ≠ .rest → ∃ rc, p.mtx.pc = .ret rc := fun hne => (Use.outside_iff.1 ho).resolve_left hne
  unfold cond_wait_common at h
  simp only [Thread.placed, hf] at hp
  split at h
  · cases h
    exact ⟨.calls .unlock rfl rfl hp rfl, by simp [Thread.placed]⟩
  · cases h
    obtain ⟨rc, hrc⟩ := hret hp
    exact ⟨.returns rc rfl rfl hrc rfl, by simp [Thread.placed]⟩
  · split at h <;> cases h
    · exact ⟨.away rfl rfl hp rfl, by simp [Thread.placed]⟩
    · exact ⟨.calls .lock rfl rfl hp rfl, by simp [Thread.placed]⟩
  · split at h <;> cases h
    exact ⟨.calls .lock rfl rfl hp rfl, by simp [Thread.placed]⟩
  · split at h <;> cases h
    exact ⟨.calls .lock rfl rfl hp rfl, by simp [Thread.placed]⟩
  · cases h
    obtain ⟨rc, hrc⟩ := hret hp
    exact ⟨.returns rc rfl rfl hrc rfl, by simp [Thread.placed]⟩
  · cases h

theorem Thread.outer_atMutex {b : Choice T} (hp : p.placed) (ho : p.mtx.outside = true)
    (h : p.outer t m b = some (m', p')) : Thread.AtMutex t m.mutex p.mtx m'.mutex p'.mtx ∧ p'.placed := by
  unfold Thread.outer at h
  split at h
  · cases h
  · split at h <;> cases h
    exact ⟨.returns _ rfl rfl ‹_› rfl, rfl⟩
  · rename_i hf
    obtain ⟨⟨c, f, pc⟩, h1, h2⟩ := Option.map_eq_some_iff.1 h
    cases h2
    exact cond_wait_atMutex hp hf ho h1
  · rename_i hf
    obtain ⟨⟨c, f⟩, h1, h2⟩ := Option.map_eq_some_iff.1 h
    cases h2
    simp only [Thread.placed, hf] at hp
    refine ⟨.away rfl rfl hp hp, ?_⟩
    rcases signal_cases h1 with ⟨-, -, rfl⟩ | ⟨-, rfl, -⟩
    · exact hp
    · exact hp
  · rename_i hf
    simp only [Thread.placed, hf] at hp
    split at h <;> cases h
    exact ⟨.away rfl rfl hp hp, hp⟩

theorem Thread.move_atMutex (hp : p.placed) (h : p.move t m a = some (m', p')) :
    Thread.AtMutex t m.mutex p.mtx m'.mutex p'.mtx ∧ p'.placed := by
  unfold Thread.move at h
  split at h
  · rename_i c
    split at h <;> cases h
    rename_i hf
    simp only [Thread.placed, hf] at hp
    rcases c.enter_enters with ⟨hpc, hframe⟩ | ⟨hframe, o, ho⟩
    · refine ⟨.away rfl rfl hp hpc, ?_⟩
      cases c <;> simp only [Call.enter] at hpc ⊢ <;> split_ifs at hpc ⊢ <;> simp_all [Thread.placed]
    · refine ⟨.calls o rfl rfl hp ho, ?_⟩
      simp only [Thread.placed, hframe]
      intro hrest
      rw [hrest] at ho
      cases ho
  · split at h
    · exact Thread.outer_atMutex hp ‹_› h
    · rename_i ho
      obtain ⟨⟨f, v⟩, h1, h2⟩ := Option.map_eq_some_iff.1 h
      cases h2
      have hm := Use.move_moves h1
      refine ⟨.inside hm, ?_⟩
      have hne : p.mtx.pc ≠ .rest := by
        intro hrest
        simp [Use.outside, hrest] at ho
      unfold Thread.placed at hp ⊢
      dsimp only
      split at hp
      · exact hm.pc_ne_rest
      · exact hm.pc_ne_rest
      · exact hm.pc_ne_rest
      · exact absurd hp hne

/-! ## Each operation is one of the abstract mutex -/

/-- The owner of the abstract mutex, as the threads and the state of the mutex have it. -/
structure Owned (m : Futex T) (v : T → Use) (q : Option T) : Prop where
  owner : ∀ t, q = some t ↔ (v t).owns
  free : q = none ↔ m.word = 0

section
variable {f f' : Futex T} {v : T → Use} {x : Use} {q : Option T}

/-- A thread that neither takes nor frees the mutex. -/
theorem Owned.same (h : Owned f v q) (hx : x.owns ↔ (v t).owns) (hw : f'.word = 0 ↔ f.word = 0) :
    Owned f' (Function.update v t x) q := by
  refine ⟨fun u => ?_, h.free.trans hw.symm⟩
  rw [h.owner u]
  by_cases hu : u = t
  · subst hu
    rw [Function.update_self, hx]
  · rw [Function.update_of_ne hu]

theorem Owned.taken (h : Owned f v none) (hx : x.owns) (hw : f'.word ≠ 0) :
    Owned f' (Function.update v t x) (some t) := by
  refine ⟨fun u => ?_, by simp [hw]⟩
  by_cases hu : u = t
  · subst hu
    simp [hx]
  · have hno : ¬ (v u).owns := fun ho => by cases (h.owner u).2 ho
    rw [Function.update_of_ne hu]
    simp [hno, Ne.symm hu]

theorem Owned.freed (h : Owned f v (some t)) (hx : ¬ x.owns) (hw : f'.word = 0) :
    Owned f' (Function.update v t x) none := by
  refine ⟨fun u => ?_, by simp [hw]⟩
  by_cases hu : u = t
  · subst hu
    simp [hx]
  · have hno : ¬ (v u).owns := fun ho => hu (Option.some.inj ((h.owner u).2 ho)).symm
    rw [Function.update_of_ne hu]
    simp [hno]

/-- An operation that goes on with the same call, the same owner and a state that is 0 if it was 0. -/
theorem Owned.skip (h : Owned f v q) (hslot : (v t).pc.slot = x.pc.slot) (hx : x.owns ↔ (v t).owns)
    (hw : f'.word = 0 ↔ f.word = 0) :
    ∃ q', Slot.Step (lockable T) t q (v t).pc.slot none x.pc.slot q' ∧ Owned f' (Function.update v t x) q' := by
  rw [← hslot]
  exact ⟨q, .skip, h.same hx hw⟩

/-- What an operation of the mutex does, the abstract mutex does. -/
theorem Owned.step (h : Owned f v q) (hi : Excl f v) (hm : (v t).Moves t f f' x) :
    ∃ q', Slot.Step (lockable T) t q (v t).pc.slot none x.pc.slot q' ∧ Owned f' (Function.update v t x) q' := by
  have hlaw := hi.lawful t
  -- a step that changes the point only, to one that is not the store of an unlock
  have keeps : ∀ {pc : Point}, (v t).pc ≠ .unlock .store → pc ≠ .unlock .store →
      (Use.owns { v t with pc } ↔ (v t).owns) := by
    intro pc h1 h2
    simp [Use.owns, h1, h2]
  cases hm with
  | acquire h1 h2 =>
    obtain rfl := h.free.2 h2
    refine ⟨some t, ?_, h.taken (.inl rfl) (by simp)⟩
    rcases h1 with h1 | h1
    · rw [h1]
      exact .effect .trylock
    · rw [h1]
      exact .effect .lock
  | busy h1 h2 =>
    obtain ⟨u, rfl⟩ := Option.ne_none_iff_exists'.1 (mt h.free.1 h2)
    rw [h1]
    exact ⟨some u, .effect .busy, h.same (keeps (by simp [h1]) (by simp)) Iff.rfl⟩
  | @contend l h1 h2 h3 =>
    exact h.skip (by rw [h1]; rfl) (keeps (by simp [h1]) (by simp)) Iff.rfl
  | take h1 h2 =>
    obtain rfl := h.free.2 h2
    rw [h1]
    exact ⟨some t, .effect .lock, h.taken (.inl rfl) (by simp)⟩
  | mark h1 h2 => exact h.skip (by rw [h1]; rfl) (keeps (by simp [h1]) (by simp)) (by simp [h2])
  | sleep h1 h2 => exact h.skip (by rw [h1]; rfl) (keeps (by simp [h1]) (by simp)) Iff.rfl
  | again h1 => exact h.skip (by rw [h1]; rfl) (keeps (by simp [h1]) (by simp)) Iff.rfl
  | resume h1 => exact h.skip (by rw [h1]; rfl) (keeps (by simp [h1]) (by simp)) Iff.rfl
  | release h1 h2 =>
    have hown : (v t).owns := .inl ((hlaw _ h1).2 rfl)
    obtain rfl := (h.owner t).2 hown
    rw [h1]
    exact ⟨none, .effect .unlock, h.freed (by simp [Use.owns]) rfl⟩
  | lower h1 h2 =>
    have hown : (v t).owns := .inl ((hlaw _ h1).2 rfl)
    have hword : f.word = 2 := by
      have hne := hi.busy t hown
      have hw := hi.word
      omega
    refine h.skip (by rw [h1]; rfl) ⟨fun _ => hown, fun _ => .inr rfl⟩ ?_
    simp [hword, int32]
  | clear h1 =>
    obtain rfl := (h.owner t).2 (.inr h1)
    have hno : (v t).holds = false := by simpa using hlaw _ h1
    rw [h1]
    exact ⟨none, .effect .unlock, h.freed (by simp [Use.owns, hno]) rfl⟩
  | wake h1 h2 => exact h.skip (by rw [h1]; rfl) (keeps (by simp [h1]) (by simp)) Iff.rfl

omit [DecidableEq T] in
theorem Point.enters_slot {pc : Point} {o : LockOp} (h : pc.enters = some o) :
    pc.slot = .called o ∧ pc ≠ .unlock .store := by
  unfold Point.enters at h
  split at h <;> cases h <;> simp [Point.slot]

theorem Owned.atMutex (h : Owned f v q) (hi : Excl f v) (hm : Thread.AtMutex t f (v t) f' x) :
    ∃ q', Slot.Step (lockable T) t q (v t).pc.slot (Point.event t (v t).pc x.pc) x.pc.slot q' ∧
      Owned f' (Function.update v t x) q' := by
  have owns_iff : ∀ {pc : Point}, (v t).pc = pc → pc ≠ .unlock .store → x.pc ≠ .unlock .store → x.holds = (v t).holds →
      (x.owns ↔ (v t).owns) := by
    intro pc h1 h2 h3 h4
    rw [Use.owns, Use.owns, h1, h4]
    simp [h2, h3]
  cases hm with
  | inside hm =>
    have hevent : Point.event t (v t).pc x.pc = none := by
      cases hm <;> simp_all [Point.event]
      rename_i h1 _
      rcases h1 with h1 | h1 <;> rw [h1]
    rw [hevent]
    exact h.step hi hm
  | away hf hh hv hx =>
    subst hf
    have howns := owns_iff hv (by simp) (by simp [hx]) hh
    rw [hv, hx]
    exact ⟨q, .skip, h.same howns Iff.rfl⟩
  | calls o hf hh hv hx =>
    subst hf
    obtain ⟨hslot, hne⟩ := Point.enters_slot hx
    have howns := owns_iff hv (by simp) hne hh
    rw [hv, hslot]
    simp only [Point.event, hx]
    exact ⟨q, .call, h.same howns Iff.rfl⟩
  | returns rc hf hh hv hx =>
    subst hf
    have howns := owns_iff hv (by simp) (by simp [hx]) hh
    rw [hv, hx]
    exact ⟨q, .ret, h.same howns Iff.rfl⟩

end

/-! ## All histories -/

variable {s : Sys T} {ok : Sys T → T × Act T → Sys T → Prop}

theorem run_placed (h : Run step ok start s) (t : T) : (s.thr t).placed :=
  run_local (fun _ _ p => p.placed) (fun _ => rfl) (fun _ _ _ _ hp _ hm => (Thread.move_atMutex hp hm).2)
    (fun _ _ _ _ u hs _ _ _ => hs u) h t

/-- For any number of threads that lock, try to lock, unlock, wait, signal and
broadcast, in every interleaving of their operations in which only the holder unlocks:
the calls and returns at the mutex are those of an owner and atomic calls. -/
theorem mutex_linearizable {h : List (Event T LockOp Int)}
    (ht : Traced step (fun s l _ => disciplined s l = true) observed start h s) : Linearizable (lockable T) h := by
  refine linearizable_of_slots (fun p => p.mtx.pc.slot) (fun s q => Owned s.mem.mutex (uses s) q) ?_
    (fun _ => rfl) ?_ ht
  · refine ⟨fun t => ?_, by simp [start, lockable]⟩
    simp [lockable, start, Use.owns]
  · intro s t a s' q hrun hq _ hst
    obtain ⟨hm, -⟩ := Thread.move_atMutex (run_placed hrun t) (Conf.step_self hst)
    rw [step_uses hst]
    exact hq.atMutex (run_excl hrun) hm

/-- Thread 0 has the mutex and thread 1 sleeps on it. While thread 0 unlocks, thread 2
tries to lock: it fails before the store of 0, and gets the mutex after it. -/
def contended : List (Fin 3 × Act (Fin 3)) :=
  [(0, .call (.lock .obj)), (0, .op .go), (0, .op .go), (0, .op .go), (1, .call (.lock .obj)), (1, .op .go),
    (1, .op .go), (1, .op .go), (0, .call (.unlock .obj)), (0, .op .go), (2, .call (.trylock .obj)), (2, .op .go),
    (2, .op .go), (2, .op .go), (0, .op .go), (2, .call (.trylock .obj)), (2, .op .go), (2, .op .go),
    (0, .op (.wake [1])), (0, .op .go)]

theorem mutex_linearizable_contended : ∃ s h, Traced step (fun s l _ => disciplined s l = true) observed start h s ∧
    h = ([.call 0 .lock, .ret 0 0, .call 1 .lock, .call 0 .unlock, .call 2 .trylock, .ret 2 (-EBUSY), .call 2 .trylock,
      .ret 2 0, .ret 0 0] : List (Event (Fin 3) LockOp Int)) ∧ Linearizable (lockable (Fin 3)) h := by
  have hx : (exec step disciplined start contended).isSome = true := by decide +kernel
  obtain ⟨s, hs⟩ := Option.isSome_iff_exists.1 hx
  have ht := @exec_traced _ _ _ _ (fun s l _ => disciplined s l = true) _ observed _
    (fun _ _ _ hb => hb) contended [] _ s
    .nil hs
  exact ⟨s, _, ht, by decide +kernel, mutex_linearizable ht⟩

end

end LibNeoos.Pthread
