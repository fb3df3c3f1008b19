import LibNeoos.Pthread.Table
/-!
# Whose a slot of the thread table is

The invariant of the thread table has a part for the kernel's numbers (`Numbers`),
one for the slots (`Slots`) and one for each thread (`Task.sound`): what its place in
the code says about its slot, the call it is in and the thread it has reaped.

`Effect` is all that a step can do to the memory. It keeps the first two parts
(`Numbers.step`, `Slots.step`), and `Keeps` is what it leaves to the other threads,
so that these stay sound (`Task.sound.keeps`).
-/

namespace LibNeoos.Pthread.Table

open Lib

section
variable {T : Type}

/-! ## The kernel's numbers -/

/-- The thread exists and has not been reaped. -/
def Mem.unreaped (m : Mem T) (v : T) : Prop := m.life v ≠ .none ∧ m.life v ≠ .reaped

instance (m : Mem T) (v : T) : Decidable (m.unreaped v) := inferInstanceAs (Decidable (_ ∧ _))

/-- The number of the thread that the step creates. -/
def Act.newTid : Act T → Option Int
  | .created _ tid => some tid
  | _ => none

/-- A new thread's number is not that of a thread that has not been reaped. -/
def distinct (s : Sys T) (l : T × Act T) : Prop := ∀ v, s.mem.table.unreaped v → l.2.newTid ≠ some (s.mem.table.tid v)

/-- A new thread's number is not that of a thread that a `pthread_join` has reaped
without having left the table. -/
def notYet (s : Sys T) (l : T × Act T) : Prop :=
  ∀ v, s.mem.table.reaper v ≠ none → l.2.newTid ≠ some (s.mem.table.tid v)

/-- The step is not a failure to set up the thread's TLS. -/
def tlsWorks (l : T × Act T) : Prop :=
  match l.2 with
  | .tlsFails => False
  | _ => True

/-- The TLS of a thread that `pthread_create` has made can be set up. -/
def slotTlsWorks (s : Sys T) (l : T × Act T) : Prop := s.mem.table.given l.1 ≠ none → tlsWorks l

instance [Fintype T] (s : Sys T) (l : T × Act T) : Decidable (distinct s l) := inferInstanceAs (Decidable (∀ _, _))

instance [Fintype T] [DecidableEq T] (s : Sys T) (l : T × Act T) : Decidable (notYet s l) :=
  inferInstanceAs (Decidable (∀ _, _))

instance (l : T × Act T) : Decidable (tlsWorks l) :=
  match l with
  | (_, .tlsFails) => .isFalse id
  | (_, .call _) | (_, .exit _) | (_, .ret _) | (_, .op _) | (_, .created ..) | (_, .refused _) | (_, .reap _) =>
    .isTrue trivial

instance (s : Sys T) (l : T × Act T) : Decidable (slotTlsWorks s l) := inferInstanceAs (Decidable (_ → _))

/-- The thread's number may still be looked up in the table. -/
def Mem.current (m : Mem T) (v : T) : Prop := m.unreaped v ∨ m.reaper v ≠ none

/-- Numbers that may be looked up are not shared. -/
structure Numbers (m : Mem T) : Prop where
  pos : ∀ v, m.current v → 0 < m.tid v
  one : ∀ u v, m.current u → m.current v → m.tid u = m.tid v → u = v
  reaper : ∀ v, m.reaper v ≠ none → m.life v = .reaped

/-! ## The table -/

/-- A slot in use is somebody's, and has no number or that of the thread it is for. -/
structure Slots (m : Mem T) : Prop where
  free : ∀ i, m.holder i = .free → (m.pt_slots i).in_use = 0
  maker : ∀ i t, m.holder i = .maker t → (m.pt_slots i).in_use = 1
  thread : ∀ i v, m.holder i = .thread v → (m.pt_slots i).in_use = 1 ∧ m.slot v = some i ∧ m.given v ≠ none ∧
    m.current v ∧ ((m.pt_slots i).tid = 0 ∨ (m.pt_slots i).tid = m.tid v)

/-- The slot is the thread's. -/
def Mem.has (m : Mem T) (u : T) (i : Nat) : Prop := m.holder i = .thread u ∧ m.slot u = some i ∧ i < PTHREAD_MAX

/-- The slot is the thread's and has its number. -/
def Mem.named (m : Mem T) (u : T) (i : Nat) : Prop := m.has u i ∧ (m.pt_slots i).tid = m.tid u

/-- The slot of a thread made by `pthread_create` has its result. -/
def Mem.done (m : Mem T) (u : T) : Prop :=
  m.given u ≠ none → ∃ i, m.named u i ∧ m.result u = some (m.pt_slots i).retval

def LookPoint.index : LookPoint → Nat
  | .in_use i | .tid i => i

/-- A search for the thread's slot has not gone past it. -/
structure Mem.sought (m : Mem T) (u : T) (q : LookPoint) : Prop where
  range : q.index < PTHREAD_MAX
  ahead : m.given u ≠ none → ∀ i, m.slot u = some i → q.index ≤ i
  used : ∀ i, q = .tid i → (m.pt_slots i).in_use ≠ 0

/-- The slot after the first `k` stores of `pthread_create`. -/
structure Mem.filled (m : Mem T) (t : T) (i : Nat) (fn arg : Nat) (k : Nat) : Prop where
  range : i < PTHREAD_MAX
  claimed : 1 ≤ k → m.holder i = .maker t
  tid : 2 ≤ k → (m.pt_slots i).tid = 0
  start : 4 ≤ k → (m.pt_slots i).start = fn
  arg : 5 ≤ k → (m.pt_slots i).arg = arg

/-! ## What a thread's place says -/

/-- Of a thread in the program's code, or in a function it called: its slot, if it
was made by `pthread_create`. -/
def Mem.home (m : Mem T) (t : T) : Option Nat → Prop
  | some i => m.named t i
  | none => m.given t = none

/-- The thread itself: its slot, what it runs, its result. -/
def Task.self (m : Mem T) (t : T) (p : Task T) : Prop :=
  match p.frame with
  | .unborn => p.runs = none ∧ p.raw = none ∧ (m.life t = .none ∨ (m.life t = .created none ∧ m.given t = none) ∨
      ∃ i, m.life t = .created (some i) ∧ m.has t i ∧ m.given t = some ((m.pt_slots i).start, (m.pt_slots i).arg))
  | .tramp (.tid i) => m.life t = .alive ∧ p.runs = none ∧ m.has t i ∧
      m.given t = some ((m.pt_slots i).start, (m.pt_slots i).arg)
  | .tramp (.start i) => m.life t = .alive ∧ p.runs = none ∧ m.named t i ∧
      m.given t = some ((m.pt_slots i).start, (m.pt_slots i).arg)
  | .tramp (.arg i fn) => m.life t = .alive ∧ p.runs = none ∧ m.named t i ∧ m.given t = some (fn, (m.pt_slots i).arg)
  | .tramp (.retval i r) | .exit (.retval i r) =>
    m.life t = .alive ∧ p.runs = m.given t ∧ m.named t i ∧ m.result t = some r
  | .tramp (.finished i) | .exit (.finished i) =>
    m.life t = .alive ∧ p.runs = m.given t ∧ m.named t i ∧ m.result t = some (m.pt_slots i).retval
  | .exit (.lock r) => m.life t = .alive ∧ p.runs = m.given t ∧ m.home t p.raw ∧ m.result t = some r
  | .exit (.look q r) => m.life t = .alive ∧ p.runs = m.given t ∧ m.home t p.raw ∧ m.result t = some r ∧ m.sought t q
  | .exit .unlock | .thread_exit => m.life t = .alive ∧ p.runs = m.given t ∧ m.done t
  | .dead => p.runs = m.given t ∧ ((m.life t = .exited ∧ m.done t) ∨ m.life t = .reaped)
  | .user | .create _ | .join _ | .ret _ => m.life t = .alive ∧ p.runs = m.given t ∧ m.home t p.raw

/-- The call of `pthread_create` has made a thread that will run what was passed. -/
def Task.spawned (m : Mem T) (p : Task T) (fn arg : Nat) : Prop :=
  ∃ u, p.made = some u ∧ m.given u = some (fn, arg) ∧ m.life u ≠ .none

/-- The call of `pthread_join` has reaped `u`, and found its slot if it has one. -/
def Task.joined (m : Mem T) (p : Task T) (thread : Int) (retval : Ptr) : Prop :=
  ∃ u, p.reaped = some u ∧ m.life u = .reaped ∧ m.tid u = thread ∧ (m.given u ≠ none →
    ∃ r, m.result u = some r ∧ p.got = (if retval ≠ .null then some r else none) ∧ p.freed = [.thread u])

/-- The call of `pthread_join` has reaped `u` and nothing else yet. -/
def Task.reaps (m : Mem T) (p : Task T) (thread : Int) (u : T) : Prop :=
  p.reaped = some u ∧ m.life u = .reaped ∧ m.tid u = thread ∧ m.done u ∧ p.freed = []

/-- The call of `pthread_create` that is going on. -/
def CreatePoint.job (m : Mem T) (t : T) (p : Task T) (fn arg : Nat) : CreatePoint → Prop
  | .lock => True
  | .scan i => i < PTHREAD_MAX
  | .fill i k => k ≤ 5 ∧ m.filled t i fn arg k ∧ (k = 0 → (m.pt_slots i).in_use = 0)
  | .unlock i | .thread_create i => m.filled t i fn arg 6
  | .relock i rc | .clear i rc => rc ≠ 0 ∧ m.holder i = .maker t ∧ (m.pt_slots i).tid = 0
  | .leave rc => rc ≠ 0
  | .store _ => p.spawned m fn arg

/-- The call of `pthread_join` that is going on. -/
def JoinPoint.job (m : Mem T) (p : Task T) (thread : Int) (retval : Ptr) : JoinPoint → Prop
  | .thread_join => p.got = .none ∧ p.freed = []
  | .lock => ∃ u, p.reaps m thread u ∧ p.got = .none
  | .look q => ∃ u, p.reaps m thread u ∧ p.got = .none ∧ m.sought u q
  | .retval i => ∃ u, p.reaps m thread u ∧ retval ≠ .null ∧ m.named u i
  | .clear i => ∃ u, p.reaps m thread u ∧ m.named u i ∧
    p.got = if retval ≠ .null then some (m.pt_slots i).retval else .none
  | .none => ∃ u, p.reaps m thread u ∧ m.given u = .none
  | .leave => p.joined m thread retval

/-- The call that is going on, or has just returned. -/
def Task.job (m : Mem T) (t : T) (p : Task T) : Prop :=
  match p.frame, p.call with
  | .create q, .create _ _ fn arg => q.job m t p fn arg
  | .join q, .join thread retval => q.job m p thread retval
  | .ret rc, .create _ _ fn arg => rc = 0 → p.spawned m fn arg
  | .ret rc, .join thread retval => rc = 0 → p.joined m thread retval
  | .create _, .join .. | .join _, .create .. => False
  | _, _ => True

/-- The joiner has reaped a thread and not yet left the table. -/
def Frame.joining : Frame → Bool
  | .join .lock | .join (.look _) | .join (.retval _) | .join (.clear _) | .join .none => true
  | _ => false

/-- The slot that a thread in `pthread_create` has claimed. -/
def Frame.claims : Frame → Option Nat
  | .create (.fill i k) => if k = 0 then none else some i
  | .create (.unlock i) | .create (.thread_create i) | .create (.relock i _) | .create (.clear i _) => some i
  | _ => none

/-- All that is known of one thread. -/
structure Task.sound (m : Mem T) (t : T) (p : Task T) : Prop where
  self : p.self m t
  job : p.job m t
  claims : ∀ i, m.holder i = .maker t ↔ p.frame.claims = some i
  pending : ∀ v, m.reaper v = some t ↔ p.frame.joining = true ∧ p.reaped = some v

/-! ## What a step does to the memory -/

/-- All that a step of thread `t` can do to the memory. -/
inductive Effect [DecidableEq T] (t : T) (m : Mem T) (p : Task T) (a : Act T) (m' : Mem T) : Prop
  | keep : m' = m → Effect t m p a m'
  | results (r : Nat) : m' = m.results t r → Effect t m p a m'
  | write (i : Nat) (f : pthread_slot → pthread_slot) : m.holder i = .thread t →
      (f (m.pt_slots i)).in_use = (m.pt_slots i).in_use →
      ((f (m.pt_slots i)).tid = (m.pt_slots i).tid ∨ (f (m.pt_slots i)).tid = m.tid t) → m' = m.set i f →
        Effect t m p a m'
  | fill (i : Nat) (f : pthread_slot → pthread_slot) : p.frame.guard = .locked →
      m.holder i = .free ∨ m.holder i = .maker t → (f (m.pt_slots i)).in_use = 1 →
      m' = (m.set i f).hold i (.maker t) → Effect t m p a m'
  | unclaim (i : Nat) : p.frame.guard = .locked → m.holder i = .maker t →
      m' = (m.set i ({ · with in_use := 0 })).hold i .free → Effect t m p a m'
  | spawn (u : T) (tid : Int) (i fn arg : Nat) : m.holder i = .maker t → m.filled t i fn arg 6 → m.life u = .none →
      0 < tid → a.newTid = some tid → m' = (m.spawn u tid (some i) (some (fn, arg))).hold i (.thread u) →
        Effect t m p a m'
  | raw (u : T) (tid : Int) : m.life u = .none → 0 < tid → a.newTid = some tid → m' = m.spawn u tid none none →
      Effect t m p a m'
  | begin (raw : Option Nat) : m.life t = .created raw → m' = m.live t .alive → Effect t m p a m'
  | finish : m.life t = .alive → m' = m.live t .exited → Effect t m p a m'
  | reap (u : T) : m.life u = .exited → m' = m.reap t u → Effect t m p a m'
  | free (i : Nat) (u : T) : p.frame.guard = .locked → (∀ v, m.reaper v = some t ↔ v = u) → m.holder i = .thread u →
      m' = ((m.set i ({ · with in_use := 0 })).hold i .free).leaves t → Effect t m p a m'
  | forget (u : T) : (∀ v, m.reaper v = some t ↔ v = u) → m.given u = none → m' = m.leaves t → Effect t m p a m'

variable [DecidableEq T] {t u : T} {m m' : Mem T} {p p' : Task T} {a : Act T}

omit [DecidableEq T] in
/-- Threads that were not looked up before are not looked up now. -/
theorem Numbers.sub (hi : Numbers m) (hc : ∀ v, m'.current v → m.current v) (ht : m'.tid = m.tid)
    (hr : ∀ v, m'.reaper v ≠ none → m'.life v = .reaped) : Numbers m' := by
  refine ⟨fun v hv => ?_, fun u v hu hv he => ?_, hr⟩
  · rw [ht]
    exact hi.pos v (hc v hv)
  · rw [ht] at he
    exact hi.one u v (hc u hu) (hc v hv) he

omit [DecidableEq T] in
theorem Numbers.not_current (hi : Numbers m) (hu : m.life u = .none) : ¬ m.current u := by
  rintro (h | h)
  · exact h.1 hu
  · have := hi.reaper u h
    rw [hu] at this
    cases this

theorem Mem.current_spawn {tid : Int} {raw : Option Nat} {given : Option (Nat × Nat)} {v : T} (hv : v ≠ u) :
    (m.spawn u tid raw given).current v ↔ m.current v := by
  simp [Mem.current, Mem.unreaped, Mem.spawn, hv]

theorem Mem.current_live {x : Life} (ht : m.unreaped t) (h0 : x ≠ .none) (h1 : x ≠ .reaped) (v : T) :
    (m.live t x).current v ↔ m.current v := by
  by_cases hv : v = t
  · subst hv
    exact ⟨fun _ => .inl ht, fun _ => .inl (by simp [Mem.unreaped, Mem.live, h0, h1])⟩
  · simp [Mem.current, Mem.unreaped, Mem.live, hv]

/-- A thread just reaped may still be looked up. -/
theorem Mem.current_reap (hu : m.life u = .exited) (v : T) : (m.reap t u).current v ↔ m.current v := by
  by_cases hv : v = u
  · subst hv
    exact ⟨fun _ => .inl (by simp [Mem.unreaped, hu]), fun _ => .inr (by simp [Mem.reap])⟩
  · simp [Mem.current, Mem.unreaped, Mem.reap, hv]

/-- A new thread with a number that is not in use. -/
theorem Numbers.spawn (hi : Numbers m) {tid : Int} {raw : Option Nat} {given : Option (Nat × Nat)}
    (hu : m.life u = .none)
    (hpos : 0 < tid) (hd : ∀ v, m.current v → m.tid v ≠ tid) : Numbers (m.spawn u tid raw given) := by
  have hcur : ∀ v, v ≠ u → ((m.spawn u tid raw given).current v ↔ m.current v) := fun v hv => Mem.current_spawn hv
  have htid : ∀ v, v ≠ u → (m.spawn u tid raw given).tid v = m.tid v := fun v hv => Function.update_of_ne hv ..
  have hself : (m.spawn u tid raw given).tid u = tid := Function.update_self ..
  refine ⟨fun v hv => ?_, fun v w hv hw he => ?_, fun v hv => ?_⟩
  · by_cases hvu : v = u
    · rw [hvu, hself]
      exact hpos
    · rw [htid v hvu]
      exact hi.pos v ((hcur v hvu).1 hv)
  · by_cases hvu : v = u <;> by_cases hwu : w = u
    · rw [hvu, hwu]
    · rw [hvu, hself, htid w hwu] at he
      exact absurd he.symm (hd w ((hcur w hwu).1 hw))
    · rw [hwu, hself, htid v hvu] at he
      exact absurd he (hd v ((hcur v hvu).1 hv))
    · rw [htid v hvu, htid w hwu] at he
      exact hi.one v w ((hcur v hvu).1 hv) ((hcur w hwu).1 hw) he
  · have hr : m.life v = .reaped := hi.reaper v hv
    have hvu : v ≠ u := by
      rintro rfl
      rw [hu] at hr
      cases hr
    simpa [Mem.spawn, hvu] using hr

/-- A step keeps the numbers apart, if a new thread gets one that is not looked up. -/
theorem Numbers.step (hi : Numbers m) (h : Effect t m p a m') (hd : ∀ v, m.current v → a.newTid ≠ some (m.tid v)) :
    Numbers m' := by
  have hleave : Numbers (m.leaves t) := by
    refine hi.sub (fun v hv => hv.imp_right fun hr => ?_) rfl fun v hv => hi.reaper v ?_ <;>
      intro h0 <;> simp_all [Mem.leaves]
  cases h with
  | keep hm | results _ hm | write _ _ _ _ _ hm | fill _ _ _ _ _ hm | unclaim _ _ _ hm =>
    subst hm
    exact ⟨hi.pos, hi.one, hi.reaper⟩
  | spawn u tid i fn arg _ _ hu hpos htid hm =>
    subst hm
    have : Numbers (m.spawn u tid (some i) (some (fn, arg))) := hi.spawn hu hpos fun v hv he => hd v hv (he ▸ htid)
    exact ⟨this.pos, this.one, this.reaper⟩
  | raw u tid hu hpos htid hm =>
    subst hm
    exact hi.spawn hu hpos fun v hv he => hd v hv (he ▸ htid)
  | begin raw hl hm | finish hl hm =>
    subst hm
    refine hi.sub (fun v => (Mem.current_live (by simp [Mem.unreaped, hl]) (by simp) (by simp) v).1) rfl fun v hv => ?_
    have hr : m.life v = .reaped := hi.reaper v hv
    have hvt : v ≠ t := by
      rintro rfl
      rw [hl] at hr
      cases hr
    simpa [Mem.live, hvt] using hr
  | reap u hl hm =>
    subst hm
    refine hi.sub (fun v => (Mem.current_reap hl v).1) rfl fun v hv => ?_
    by_cases hvu : v = u
    · subst hvu
      simp [Mem.reap]
    · simp only [Mem.reap, Function.update_of_ne hvu] at hv ⊢
      exact hi.reaper v hv
  | free i u _ _ _ hm =>
    subst hm
    exact ⟨hleave.pos, hleave.one, hleave.reaper⟩
  | forget u _ _ hm =>
    subst hm
    exact hleave

omit [DecidableEq T] in
/-- The table stays right when one slot changes hands and the threads that have
slots stay as they are. -/
theorem Slots.update (hi : Slots m) {i : Nat}
    (hslot : ∀ j, j ≠ i → m'.pt_slots j = m.pt_slots j ∧ m'.holder j = m.holder j)
    (hfree : m'.holder i = .free → (m'.pt_slots i).in_use = 0)
    (hmaker : ∀ v, m'.holder i = .maker v → (m'.pt_slots i).in_use = 1)
    (hthread : ∀ v, m'.holder i = .thread v → (m'.pt_slots i).in_use = 1 ∧ m'.slot v = some i ∧ m'.given v ≠ none ∧
      m'.current v ∧ ((m'.pt_slots i).tid = 0 ∨ (m'.pt_slots i).tid = m'.tid v))
    (hkeep : ∀ j v, j ≠ i → m.holder j = .thread v →
      m'.slot v = m.slot v ∧ m'.given v = m.given v ∧ m'.tid v = m.tid v ∧ m'.current v) : Slots m' := by
  refine ⟨fun j hj => ?_, fun j v hj => ?_, fun j v hj => ?_⟩ <;> by_cases hji : j = i
  · subst hji
    exact hfree hj
  · rw [(hslot j hji).2] at hj
    rw [(hslot j hji).1]
    exact hi.free j hj
  · subst hji
    exact hmaker v hj
  · rw [(hslot j hji).2] at hj
    rw [(hslot j hji).1]
    exact hi.maker j v hj
  · subst hji
    exact hthread v hj
  · rw [(hslot j hji).2] at hj
    obtain ⟨huse, hs, hg, -, htid⟩ := hi.thread j v hj
    obtain ⟨hs', hg', htid', hcur⟩ := hkeep j v hji hj
    rw [(hslot j hji).1, hs', hg', htid']
    exact ⟨huse, hs, hg, hcur, htid⟩

omit [DecidableEq T] in
/-- The table stays right when it is the same and the threads that have slots stay
as they are. -/
theorem Slots.same (hi : Slots m) (hslots : m'.pt_slots = m.pt_slots) (hholder : m'.holder = m.holder)
    (hkeep : ∀ j v, m.holder j = .thread v →
      m'.slot v = m.slot v ∧ m'.given v = m.given v ∧ m'.tid v = m.tid v ∧ m'.current v) : Slots m' := by
  refine ⟨fun j hj => ?_, fun j v hj => ?_, fun j v hj => ?_⟩ <;> rw [hholder] at hj <;> rw [hslots]
  · exact hi.free j hj
  · exact hi.maker j v hj
  · obtain ⟨huse, hs, hg, -, htid⟩ := hi.thread j v hj
    obtain ⟨hs', hg', htid', hcur⟩ := hkeep j v hj
    rw [hs', hg', htid']
    exact ⟨huse, hs, hg, hcur, htid⟩

omit [DecidableEq T] in
theorem Slots.current (hi : Slots m) {j : Nat} {v : T} (hj : m.holder j = .thread v) : m.current v :=
  (hi.thread j v hj).2.2.2.1

theorem Slots.step (hi : Slots m) (hn : Numbers m) (h : Effect t m p a m') : Slots m' := by
  have hset : ∀ (i : Nat) (f : pthread_slot → pthread_slot) (x : Holder T) (j : Nat), j ≠ i →
      ((m.set i f).hold i x).pt_slots j = m.pt_slots j ∧ ((m.set i f).hold i x).holder j = m.holder j := by
    intro i f x j hj
    simp [Mem.set, Mem.hold, hj]
  have hcur : ∀ j v, m.holder j = .thread v → m.slot v = m.slot v ∧ m.given v = m.given v ∧ m.tid v = m.tid v ∧
      m.current v := fun j v hj => ⟨rfl, rfl, rfl, hi.current hj⟩
  have hnew : ∀ {u j v}, m.life u = .none → m.holder j = .thread v → v ≠ u := by
    rintro u j v hu hj rfl
    exact hn.not_current hu (hi.current hj)
  cases h with
  | keep hm | results _ hm =>
    subst hm
    exact hi.same rfl rfl hcur
  | write i f ht huse htid hm =>
    subst hm
    obtain ⟨huse', hs, hg, hc, htid'⟩ := hi.thread i t ht
    refine hi.update (i := i) (fun j hj => ⟨Function.update_of_ne hj .., rfl⟩) (fun h0 => ?_) (fun v hv => ?_)
      (fun v hv => ?_)
      fun j v _ hj => hcur j v hj
    · cases ht.symm.trans h0
    · cases ht.symm.trans hv
    · cases ht.symm.trans hv
      simp only [Mem.set, Function.update_self]
      refine ⟨huse.trans huse', hs, hg, hc, ?_⟩
      rcases htid with h1 | h1
      · rw [h1]
        exact htid'
      · exact .inr h1
  | fill i f _ hh huse hm =>
    subst hm
    refine hi.update (i := i) (hset i f _) (fun h0 => ?_) (fun v _ => ?_) (fun v hv => ?_) fun j v _ hj => hcur j v hj
    · simp [Mem.hold] at h0
    · simpa [Mem.set, Mem.hold] using huse
    · simp [Mem.hold] at hv
  | unclaim i _ hh hm =>
    subst hm
    refine hi.update (i := i) (hset i _ _) (fun _ => ?_) (fun v hv => ?_) (fun v hv => ?_) fun j v _ hj => hcur j v hj
    · simp [Mem.set, Mem.hold]
    · simp [Mem.hold] at hv
    · simp [Mem.hold] at hv
  | spawn u tid i fn arg hh hf hu _ _ hm =>
    subst hm
    refine hi.update (i := i) (fun j hj => ?_) (fun h0 => ?_) (fun v hv => ?_) (fun v hv => ?_) fun j v _ hj => ?_
    · simp [Mem.spawn, Mem.hold, hj]
    · simp [Mem.hold] at h0
    · simp [Mem.hold] at hv
    · obtain rfl : u = v := by simpa [Mem.hold] using hv
      have huse := hi.maker i t hh
      have htid := hf.tid (by decide)
      simp [Mem.spawn, Mem.hold, Mem.current, Mem.unreaped, huse, htid]
    · have hne := hnew hu hj
      have hc : (m.spawn u tid (some i) (some (fn, arg))).current v := (Mem.current_spawn hne).2 (hi.current hj)
      refine ⟨?_, ?_, ?_, hc⟩ <;> simp [Mem.spawn, Mem.hold, hne]
  | raw u tid hu _ _ hm =>
    subst hm
    refine hi.same rfl rfl fun j v hj => ?_
    have hne := hnew hu hj
    refine ⟨?_, ?_, ?_, (Mem.current_spawn hne).2 (hi.current hj)⟩ <;> simp [Mem.spawn, hne]
  | begin raw hl hm | finish hl hm =>
    subst hm
    refine hi.same rfl rfl fun j v hj => ⟨rfl, rfl, rfl, ?_⟩
    exact (Mem.current_live (by simp [Mem.unreaped, hl]) (by simp) (by simp) v).2 (hi.current hj)
  | reap u hl hm =>
    subst hm
    exact hi.same rfl rfl fun j v hj => ⟨rfl, rfl, rfl, (Mem.current_reap hl v).2 (hi.current hj)⟩
  | free i u _ hr hh hm =>
    subst hm
    refine hi.update (i := i) (hset i ({ · with in_use := 0 }) .free) (fun _ => ?_) (fun v hv => ?_) (fun v hv => ?_)
      fun j v hji hj => ⟨rfl, rfl, rfl, ?_⟩
    · simp [Mem.set, Mem.hold, Mem.leaves]
    · simp [Mem.hold, Mem.leaves] at hv
    · simp [Mem.hold, Mem.leaves] at hv
    · obtain ⟨-, hs, -, hc, -⟩ := hi.thread j v hj
      have hvu : v ≠ u := by
        rintro rfl
        have := (hi.thread i v hh).2.1
        rw [hs] at this
        exact hji (Option.some.inj this)
      exact hc.imp_right fun h0 => by simpa [Mem.leaves, Mem.hold, Mem.set, hr, hvu] using h0
  | forget u hr hg hm =>
    subst hm
    refine hi.same rfl rfl fun j v hj => ⟨rfl, rfl, rfl, ?_⟩
    obtain ⟨-, -, hg', hc, -⟩ := hi.thread j v hj
    have hvu : v ≠ u := by
      rintro rfl
      exact hg' hg
    exact hc.imp_right fun h0 => by simpa [Mem.leaves, hr, hvu] using h0

/-! ## What a step leaves to the others -/

/-- The slot is not one that thread `t` may write. -/
def Mem.foreign (m : Mem T) (t : T) (i : Nat) : Prop :=
  match m.holder i with
  | .free => False
  | .maker v => v ≠ t
  | .thread u => u ≠ t ∧ m.reaper u ≠ some t

/-- What a step of thread `t` leaves to the others. -/
structure Keeps (t : T) (m m' : Mem T) : Prop where
  slots : ∀ i, m.foreign t i → m'.pt_slots i = m.pt_slots i ∧ m'.holder i = m.holder i
  known : ∀ u, m.life u ≠ .none → m'.tid u = m.tid u ∧ m'.given u = m.given u ∧ m'.slot u = m.slot u ∧ m'.life u ≠ .none
  result : ∀ u, u ≠ t → m'.result u = m.result u
  life : ∀ u, u ≠ t → m.life u ≠ .none → m'.life u = m.life u ∨ (m.life u = .exited ∧ m'.life u = .reaped)
  born : ∀ u, u ≠ t → m.life u = .none → m'.life u = .none ∨ (m'.life u = .created none ∧ m'.given u = none) ∨
    ∃ i, m'.life u = .created (some i) ∧ m'.has u i ∧ m'.given u = some ((m'.pt_slots i).start, (m'.pt_slots i).arg)
  reaper : ∀ u v, v ≠ t → (m'.reaper u = some v ↔ m.reaper u = some v)
  maker : ∀ i v, v ≠ t → (m'.holder i = .maker v ↔ m.holder i = .maker v)

omit [DecidableEq T] in
/-- A step that writes neither the slots nor the kernel's records of others. -/
theorem Keeps.of_same (hslots : m'.pt_slots = m.pt_slots) (hholder : m'.holder = m.holder) (htid : m'.tid = m.tid)
    (hgiven : m'.given = m.given) (hslot : m'.slot = m.slot) (hres : ∀ u, u ≠ t → m'.result u = m.result u)
    (hlife : ∀ u, u ≠ t → m'.life u = m.life u ∨ (m.life u = .exited ∧ m'.life u = .reaped))
    (hself : m'.life t ≠ .none) (hreaper : ∀ u v, v ≠ t → (m'.reaper u = some v ↔ m.reaper u = some v)) :
    Keeps t m m' := by
  refine ⟨fun i _ => ?_, fun u hu => ?_, hres, fun u hu _ => hlife u hu, fun u hu h0 => ?_, hreaper, fun i v _ => ?_⟩
  · rw [hslots, hholder]
    exact ⟨rfl, rfl⟩
  · refine ⟨by rw [htid], by rw [hgiven], by rw [hslot], ?_⟩
    by_cases hut : u = t
    · rwa [hut]
    · rcases hlife u hut with h | ⟨-, h⟩
      · rwa [h]
      · simp [h]
  · rcases hlife u hu with h | ⟨h, -⟩
    · exact .inl (h.trans h0)
    · rw [h0] at h
      cases h
  · rw [hholder]

omit [DecidableEq T] in
/-- A step that writes one slot, of its own thread or of nobody, and nothing of the kernel's. -/
theorem Keeps.of_slot {i : Nat} {f : pthread_slot → pthread_slot} {x : Holder T} (hi : ¬ m.foreign t i)
    (hx : ∀ v, v ≠ t → x ≠ .maker v) : Keeps t m ((m.set i f).hold i x) := by
  have hne : ∀ j, m.foreign t j → j ≠ i := by
    rintro j hj rfl
    exact hi hj
  refine ⟨fun j hj => ?_, fun u hu => ⟨rfl, rfl, rfl, hu⟩, fun u _ => rfl, fun u _ _ => .inl rfl, fun u _ h0 => .inl h0,
    fun u v _ => Iff.rfl, fun j v hv => ?_⟩
  · simp [Mem.set, Mem.hold, hne j hj]
  · by_cases hji : j = i
    · subst hji
      have : m.holder j ≠ .maker v := by
        intro h0
        refine hi ?_
        simp [Mem.foreign, h0, hv]
      simp [Mem.hold, hx v hv, this]
    · simp [Mem.hold, Mem.set, hji]

theorem Keeps.leaves (h : Keeps t m m') : Keeps t m (m'.leaves t) := by
  refine ⟨h.slots, h.known, h.result, h.life, h.born, fun u v hv => ?_, h.maker⟩
  rw [← h.reaper u v hv]
  by_cases hu : m'.reaper u = some t
  · simp [Mem.leaves, hu, Ne.symm hv]
  · simp [Mem.leaves, hu]

theorem Keeps.reap (hn : Numbers m) (hl : m.life u = .exited) (ht : m.life t ≠ .none) : Keeps t m (m.reap t u) := by
  have hlife : ∀ v, (m.reap t u).life v = m.life v ∨ (m.life v = .exited ∧ (m.reap t u).life v = .reaped) := by
    intro v
    by_cases hvu : v = u
    · subst hvu
      exact .inr ⟨hl, by simp [Mem.reap]⟩
    · exact .inl (by simp [Mem.reap, hvu])
  refine .of_same rfl rfl rfl rfl rfl (fun _ _ => rfl) (fun v _ => hlife v) ?_ fun v w hw => ?_
  · rcases hlife t with h | ⟨-, h⟩
    · rwa [h]
    · simp [h]
  · by_cases hvu : v = u
    · subst hvu
      have h0 : m.reaper v = none := by
        by_contra h0
        have := hn.reaper v h0
        rw [hl] at this
        cases this
      simp [Mem.reap, h0, Ne.symm hw]
    · simp [Mem.reap, hvu]

theorem Effect.keeps (h : Effect t m p a m') (hn : Numbers m) (ht : m.life t ≠ .none) : Keeps t m m' := by
  have hspawn : ∀ (u : T) tid raw given, m.life u = .none → ∀ v, m.life v ≠ .none →
      ((m.spawn u tid raw given).tid v = m.tid v ∧ (m.spawn u tid raw given).given v = m.given v ∧
      (m.spawn u tid raw given).slot v = m.slot v ∧ (m.spawn u tid raw given).life v ≠ .none) ∧
      (m.spawn u tid raw given).life v = m.life v := by
    intro u tid raw given hu v hv
    have hvu : v ≠ u := by
      rintro rfl
      exact hv hu
    simp [Mem.spawn, hvu, hv]
  cases h with
  | keep hm =>
    subst hm
    exact .of_same rfl rfl rfl rfl rfl (fun _ _ => rfl) (fun _ _ => .inl rfl) ht fun _ _ _ => Iff.rfl
  | results r hm =>
    subst hm
    exact .of_same rfl rfl rfl rfl rfl (fun u hu => by simp [Mem.results, hu]) (fun _ _ => .inl rfl) ht
      fun _ _ _ => Iff.rfl
  | write i f hh _ _ hm =>
    subst hm
    have hk := Keeps.of_slot (t := t) (f := f) (x := m.holder i) (i := i) (m := m) (by simp [Mem.foreign, hh])
      (by simp [hh])
    have : (m.set i f).hold i (m.holder i) = m.set i f := by simp [Mem.hold, Mem.set]
    rwa [this] at hk
  | fill i f _ hh _ hm =>
    subst hm
    refine .of_slot ?_ fun v hv h0 => hv (Holder.maker.inj h0).symm
    rcases hh with hh | hh <;> simp [Mem.foreign, hh]
  | unclaim i _ hh hm =>
    subst hm
    exact .of_slot (by simp [Mem.foreign, hh]) fun v _ => by simp
  | begin raw _ hm | finish _ hm =>
    subst hm
    exact .of_same rfl rfl rfl rfl rfl (fun _ _ => rfl) (fun u hu => .inl (by simp [Mem.live, hu])) (by simp [Mem.live])
      fun _ _ _ => Iff.rfl
  | reap u hl hm =>
    subst hm
    exact .reap hn hl ht
  | spawn u tid i fn arg hh hf hu _ _ hm =>
    subst hm
    have hkeep := hspawn u tid (some i) (some (fn, arg)) hu
    refine ⟨fun j hj => ?_, fun v hv => (hkeep v hv).1, fun _ _ => rfl, fun v _ hv => .inl (hkeep v hv).2,
      fun v _ hv => ?_, fun _ _ _ => Iff.rfl, fun j v hv => ?_⟩
    · have hji : j ≠ i := by
        rintro rfl
        simp [Mem.foreign, hh] at hj
      simp [Mem.spawn, Mem.hold, hji]
    · by_cases hvu : v = u
      · subst hvu
        have hstart := hf.start (by decide)
        have harg := hf.arg (by decide)
        exact .inr (.inr ⟨i, by simp [Mem.spawn, Mem.hold, Mem.has, hf.range, hstart, harg]⟩)
      · exact .inl (by simp [Mem.spawn, Mem.hold, hvu, hv])
    · by_cases hji : j = i
      · subst hji
        simp [Mem.hold, hh, Ne.symm hv]
      · simp [Mem.hold, Mem.spawn, hji]
  | raw u tid hu _ _ hm =>
    subst hm
    have hkeep := hspawn u tid none none hu
    refine ⟨fun _ _ => ⟨rfl, rfl⟩, fun v hv => (hkeep v hv).1, fun _ _ => rfl, fun v _ hv => .inl (hkeep v hv).2,
      fun v _ hv => ?_, fun _ _ _ => Iff.rfl, fun _ _ _ => Iff.rfl⟩
    by_cases hvu : v = u
    · subst hvu
      exact .inr (.inl (by simp [Mem.spawn]))
    · exact .inl (by simp [Mem.spawn, hvu, hv])
  | free i u _ hr hh hm =>
    subst hm
    exact (Keeps.of_slot (by simp [Mem.foreign, hh, hr]) fun v _ => by simp).leaves
  | forget u hr hg hm =>
    subst hm
    refine Keeps.leaves ?_
    exact .of_same rfl rfl rfl rfl rfl (fun _ _ => rfl) (fun _ _ => .inl rfl) ht fun _ _ _ => Iff.rfl

/-- Only a thread that has the lock takes a slot or frees one. -/
theorem Effect.in_use (h : Effect t m p a m') (hg : p.frame.guard ≠ .locked) (j : Nat) :
    (m'.pt_slots j).in_use = (m.pt_slots j).in_use := by
  cases h with
  | write i f _ huse _ hm =>
    subst hm
    by_cases hj : j = i
    · subst hj
      simpa [Mem.set] using huse
    · simp [Mem.set, hj]
  | fill _ _ hl | unclaim _ hl | free _ _ hl => exact absurd hl hg
  | keep hm | results _ hm | spawn _ _ _ _ _ _ _ _ _ _ hm | raw _ _ _ _ _ hm | begin _ _ hm | finish _ hm
  | reap _ _ hm =>
    subst hm
    rfl
  | forget _ _ _ hm =>
    subst hm
    rfl

/-! ## A thread while others move -/

section
variable (hk : Keeps t m m')
include hk

omit [DecidableEq T] in
/-- The slot of a thread that neither moves nor has been reaped by the one that does. -/
theorem Mem.has.keeps {i : Nat} (h : m.has u i) (hut : u ≠ t) (hr : m.reaper u ≠ some t) (hl : m.life u ≠ .none) :
    m'.has u i ∧ m'.pt_slots i = m.pt_slots i := by
  obtain ⟨hh, hs, hi⟩ := h
  obtain ⟨h1, h2⟩ := hk.slots i (by simp [Mem.foreign, hh, hut, hr])
  exact ⟨⟨h2.trans hh, (hk.known u hl).2.2.1.trans hs, hi⟩, h1⟩

omit [DecidableEq T] in
theorem Mem.named.keeps {i : Nat} (h : m.named u i) (hut : u ≠ t) (hr : m.reaper u ≠ some t) (hl : m.life u ≠ .none) :
    m'.named u i ∧ m'.pt_slots i = m.pt_slots i := by
  obtain ⟨hhas, htid⟩ := h
  obtain ⟨hhas', hslot⟩ := hhas.keeps hk hut hr hl
  refine ⟨⟨hhas', ?_⟩, hslot⟩
  rw [hslot, htid, (hk.known u hl).1]

omit [DecidableEq T] in
theorem Mem.done.keeps (h : m.done u) (hut : u ≠ t) (hr : m.reaper u ≠ some t) (hl : m.life u ≠ .none) : m'.done u := by
  intro hg
  rw [(hk.known u hl).2.1] at hg
  obtain ⟨i, hnamed, hres⟩ := h hg
  obtain ⟨hnamed', hslot⟩ := hnamed.keeps hk hut hr hl
  exact ⟨i, hnamed', by rw [hk.result u hut, hslot, hres]⟩

omit [DecidableEq T] in
theorem Mem.sought.keeps {q : LookPoint} (h : m.sought u q) (hl : m.life u ≠ .none)
    (hin : ∀ i, (m'.pt_slots i).in_use = (m.pt_slots i).in_use) : m'.sought u q := by
  obtain ⟨-, hg, hs, -⟩ := hk.known u hl
  refine ⟨h.range, ?_, fun i hi => ?_⟩
  · rw [hg, hs]
    exact h.ahead
  · rw [hin]
    exact h.used i hi

omit [DecidableEq T] in
theorem Mem.home.keeps {raw : Option Nat} (h : m.home u raw) (hut : u ≠ t) (hr : m.reaper u ≠ some t)
    (hl : m.life u ≠ .none) : m'.home u raw := by
  cases raw with
  | some i => exact (Mem.named.keeps hk h hut hr hl).1
  | none => exact (hk.known u hl).2.1.trans h

omit [DecidableEq T] in
theorem Task.self.keeps (hn : Numbers m) (h : p.self m u) (hut : u ≠ t)
    (hin : p.frame.guard = .locked → ∀ i, (m'.pt_slots i).in_use = (m.pt_slots i).in_use) : p.self m' u := by
  -- a thread that has not been reaped has no reaper
  have hr : m.life u ≠ .reaped → m.reaper u ≠ some t := fun hl h0 => hl (hn.reaper u (by simp [h0]))
  have halive : m.life u = .alive → m'.life u = .alive ∧ m'.given u = m.given u ∧ m'.result u = m.result u := by
    intro hl
    refine ⟨?_, (hk.known u (by simp [hl])).2.1, hk.result u hut⟩
    rcases hk.life u hut (by simp [hl]) with h | ⟨h, -⟩
    · exact h.trans hl
    · rw [hl] at h
      cases h
  have hhas : ∀ i, m.life u = .alive → m.has u i → m'.has u i ∧ m'.pt_slots i = m.pt_slots i :=
    fun i hl h => h.keeps hk hut (hr (by simp [hl])) (by simp [hl])
  have hnamed : ∀ i, m.life u = .alive → m.named u i → m'.named u i ∧ m'.pt_slots i = m.pt_slots i :=
    fun i hl h => h.keeps hk hut (hr (by simp [hl])) (by simp [hl])
  have hhome : m.life u = .alive → m.home u p.raw → m'.home u p.raw :=
    fun hl h => h.keeps hk hut (hr (by simp [hl])) (by simp [hl])
  have hdone : m.life u = .alive → m.done u → m'.done u :=
    fun hl h => h.keeps hk hut (hr (by simp [hl])) (by simp [hl])
  unfold Task.self at h ⊢
  split at h
  case h_1 =>
    obtain ⟨hruns, hraw, h⟩ := h
    refine ⟨hruns, hraw, ?_⟩
    have hcreated : ∀ raw, m.life u = .created raw → m'.life u = .created raw := by
      intro raw hl
      rcases hk.life u hut (by simp [hl]) with h | ⟨h, -⟩
      · exact h.trans hl
      · rw [hl] at h
        cases h
    rcases h with h0 | ⟨hl, hg⟩ | ⟨i, hl, hhas, hg⟩
    · exact hk.born u hut h0
    · exact .inr (.inl ⟨hcreated _ hl, (hk.known u (by simp [hl])).2.1.trans hg⟩)
    · obtain ⟨hhas', hslot⟩ := hhas.keeps hk hut (hr (by simp [hl])) (by simp [hl])
      exact .inr (.inr ⟨i, hcreated _ hl, hhas', by rw [(hk.known u (by simp [hl])).2.1, hslot, hg]⟩)
  case h_2 =>
    obtain ⟨hl, hruns, hh, hg⟩ := h
    obtain ⟨hl', hg', -⟩ := halive hl
    obtain ⟨hh', hslot⟩ := hhas _ hl hh
    exact ⟨hl', hruns, hh', by rw [hg', hslot, hg]⟩
  case h_3 | h_4 =>
    obtain ⟨hl, hruns, hh, hg⟩ := h
    obtain ⟨hl', hg', -⟩ := halive hl
    obtain ⟨hh', hslot⟩ := hnamed _ hl hh
    exact ⟨hl', hruns, hh', by rw [hg', hslot, hg]⟩
  case h_5 | h_6 | h_7 | h_8 =>
    obtain ⟨hl, hruns, hh, hres⟩ := h
    obtain ⟨hl', hg', hres'⟩ := halive hl
    obtain ⟨hh', hslot⟩ := hnamed _ hl hh
    exact ⟨hl', by rw [hg', hruns], hh', by simp only [hres', hslot, hres]⟩
  case h_9 =>
    obtain ⟨hl, hruns, hh, hres⟩ := h
    obtain ⟨hl', hg', hres'⟩ := halive hl
    exact ⟨hl', by rw [hg', hruns], hhome hl hh, by rw [hres', hres]⟩
  case h_10 hf =>
    obtain ⟨hl, hruns, hh, hres, hq⟩ := h
    obtain ⟨hl', hg', hres'⟩ := halive hl
    exact ⟨hl', by rw [hg', hruns], hhome hl hh, by rw [hres', hres], hq.keeps hk (by simp [hl])
      (hin (by rw [hf]; rfl))⟩
  case h_11 | h_12 =>
    obtain ⟨hl, hruns, hd⟩ := h
    obtain ⟨hl', hg', -⟩ := halive hl
    exact ⟨hl', by rw [hg', hruns], hdone hl hd⟩
  case h_13 =>
    obtain ⟨hruns, h⟩ := h
    have hl : m.life u ≠ .none := by
      rcases h with ⟨h, -⟩ | h <;> simp [h]
    refine ⟨by rw [(hk.known u hl).2.1, hruns], ?_⟩
    rcases hk.life u hut hl with h1 | ⟨-, h1⟩
    · rw [h1]
      exact h.imp_left fun h => ⟨h.1, h.2.keeps hk hut (hr (by simp [h.1])) hl⟩
    · exact .inr h1
  case h_14 | h_15 | h_16 | h_17 =>
    obtain ⟨hl, hruns, hh⟩ := h
    obtain ⟨hl', hg', -⟩ := halive hl
    exact ⟨hl', by rw [hg', hruns], hhome hl hh⟩

omit [DecidableEq T] in
theorem Task.spawned.keeps {fn arg : Nat} (h : p.spawned m fn arg) : p.spawned m' fn arg := by
  obtain ⟨v, hmade, hg, hl⟩ := h
  obtain ⟨-, hg', -, hl'⟩ := hk.known v hl
  exact ⟨v, hmade, hg'.trans hg, hl'⟩

omit [DecidableEq T] in
/-- A thread that has been reaped stays so. -/
theorem Keeps.reaped (ht : m.life t ≠ .reaped) {v : T} (hv : m.life v = .reaped) : v ≠ t ∧ m'.life v = .reaped := by
  have hvt : v ≠ t := by
    rintro rfl
    exact ht hv
  refine ⟨hvt, ?_⟩
  rcases hk.life v hvt (by simp [hv]) with h | ⟨-, h⟩
  · exact h.trans hv
  · exact h

omit [DecidableEq T] in
theorem Task.joined.keeps {thread : Int} {retval : Ptr} (ht : m.life t ≠ .reaped) (h : p.joined m thread retval) :
    p.joined m' thread retval := by
  obtain ⟨v, hv, hl, htid, h⟩ := h
  obtain ⟨hvt, hl'⟩ := hk.reaped ht hl
  refine ⟨v, hv, hl', (hk.known v (by simp [hl])).1.trans htid, ?_⟩
  rw [(hk.known v (by simp [hl])).2.1, hk.result v hvt]
  exact h

omit [DecidableEq T] in
theorem Task.reaps.keeps {thread : Int} {v : T} (ht : m.life t ≠ .reaped) (hr : m.reaper v ≠ some t)
    (h : p.reaps m thread v) : p.reaps m' thread v := by
  obtain ⟨hv, hl, htid, hd, hfreed⟩ := h
  obtain ⟨hvt, hl'⟩ := hk.reaped ht hl
  exact ⟨hv, hl', (hk.known v (by simp [hl])).1.trans htid, hd.keeps hk hvt hr (by simp [hl]), hfreed⟩

omit [DecidableEq T] in
theorem Mem.filled.keeps {i fn arg k : Nat} (hut : u ≠ t) (h : m.filled u i fn arg k) : m'.filled u i fn arg k := by
  have hslot : 1 ≤ k → m'.pt_slots i = m.pt_slots i := by
    intro hk1
    exact (hk.slots i (by simp [Mem.foreign, h.claimed hk1, hut])).1
  refine ⟨h.range, fun h1 => (hk.maker i u hut).2 (h.claimed h1), fun h1 => ?_, fun h1 => ?_, fun h1 => ?_⟩
  · rw [hslot (by omega)]
    exact h.tid h1
  · rw [hslot (by omega)]
    exact h.start h1
  · rw [hslot (by omega)]
    exact h.arg h1

omit [DecidableEq T] in
theorem CreatePoint.job.keeps {q : CreatePoint} {fn arg : Nat} (hut : u ≠ t) (hf : p.frame = .create q)
    (h : q.job m u p fn arg)
    (hin : p.frame.guard = .locked → ∀ i, (m'.pt_slots i).in_use = (m.pt_slots i).in_use) : q.job m' u p fn arg := by
  cases q with
  | lock => trivial
  | scan i => exact h
  | fill i k =>
    refine ⟨h.1, h.2.1.keeps hk hut, fun hk0 => ?_⟩
    rw [hin (by rw [hf]; rfl)]
    exact h.2.2 hk0
  | unlock i => exact Mem.filled.keeps hk hut h
  | thread_create i => exact Mem.filled.keeps hk hut h
  | relock i rc =>
    obtain ⟨hrc, hh, htid⟩ := h
    obtain ⟨hslot, hh'⟩ := hk.slots i (by simp [Mem.foreign, hh, hut])
    exact ⟨hrc, hh'.trans hh, by rw [hslot, htid]⟩
  | clear i rc =>
    obtain ⟨hrc, hh, htid⟩ := h
    obtain ⟨hslot, hh'⟩ := hk.slots i (by simp [Mem.foreign, hh, hut])
    exact ⟨hrc, hh'.trans hh, by rw [hslot, htid]⟩
  | leave rc => exact h
  | store tid => exact Task.spawned.keeps hk h

omit [DecidableEq T] in
theorem JoinPoint.job.keeps {q : JoinPoint} {thread : Int} {retval : Ptr} (ht : m.life t ≠ .reaped)
    (hf : p.frame = .join q) (h : q.job m p thread retval)
    (hr : ∀ v, p.frame.joining = true → p.reaped = some v → m.reaper v ≠ some t)
    (hin : p.frame.guard = .locked → ∀ i, (m'.pt_slots i).in_use = (m.pt_slots i).in_use) :
    q.job m' p thread retval := by
  rw [hf] at hr hin
  cases q with
  | thread_join => exact h
  | lock =>
    obtain ⟨v, hv, hgot⟩ := h
    exact ⟨v, hv.keeps hk ht (hr v rfl hv.1), hgot⟩
  | look q =>
    obtain ⟨v, hv, hgot, hq⟩ := h
    exact ⟨v, hv.keeps hk ht (hr v rfl hv.1), hgot, hq.keeps hk (by simp [hv.2.1]) (hin rfl)⟩
  | retval i =>
    obtain ⟨v, hv, hret, hi⟩ := h
    have hrv := hr v rfl hv.1
    obtain ⟨hvt, -⟩ := hk.reaped ht hv.2.1
    exact ⟨v, hv.keeps hk ht hrv, hret, (hi.keeps hk hvt hrv (by simp [hv.2.1])).1⟩
  | clear i =>
    obtain ⟨v, hv, hi, hgot⟩ := h
    have hrv := hr v rfl hv.1
    obtain ⟨hvt, -⟩ := hk.reaped ht hv.2.1
    obtain ⟨hi', hslot⟩ := hi.keeps hk hvt hrv (by simp [hv.2.1])
    exact ⟨v, hv.keeps hk ht hrv, hi', by rw [hgot, hslot]⟩
  | none =>
    obtain ⟨v, hv, hg⟩ := h
    exact ⟨v, hv.keeps hk ht (hr v rfl hv.1), (hk.known v (by simp [hv.2.1])).2.1.trans hg⟩
  | leave => exact Task.joined.keeps hk ht h

omit [DecidableEq T] in
/-- What another thread does leaves a thread sound. -/
theorem Task.sound.keeps (hn : Numbers m) (h : p.sound m u) (hut : u ≠ t) (ht : m.life t ≠ .reaped)
    (hin : p.frame.guard = .locked → ∀ i, (m'.pt_slots i).in_use = (m.pt_slots i).in_use) : p.sound m' u := by
  have hr : ∀ v, p.frame.joining = true → p.reaped = some v → m.reaper v ≠ some t := by
    intro v hj hv h0
    rw [(h.pending v).2 ⟨hj, hv⟩] at h0
    exact hut (Option.some.inj h0)
  refine ⟨h.self.keeps hk hn hut hin, ?_, fun i => (hk.maker i u hut).trans (h.claims i),
    fun v => (hk.reaper v u hut).trans (h.pending v)⟩
  have hjob := h.job
  unfold Task.job at hjob ⊢
  split at hjob
  · exact hjob.keeps hk hut ‹_› hin
  · exact hjob.keeps hk ht ‹_› hr hin
  · exact fun h0 => (hjob h0).keeps hk
  · exact fun h0 => (hjob h0).keeps hk ht
  · exact hjob
  · exact hjob
  · trivial

end

end

end LibNeoos.Pthread.Table
