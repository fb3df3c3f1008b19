import LibNeoos.Errno
import LibNeoos.Lib.Owners
import LibNeoos.Lib.Threads
/-!
# The start slots of `thread.c`

`thread_create` and `thread_trampoline`, one operation at a time, and the system
of a main thread and all those it and they create. A creator claims a slot of the
table, writes the function and the argument into it and asks the kernel for a
thread that gets the slot as its argument; that thread reads both, frees the slot
and calls the function.

The kernel is only what it does here: a thread is `created` with an argument and
later starts in `thread_trampoline`. For the properties the memory also has what
each thread's creator passed, and how often each slot was claimed, and freed on
either path.
-/

namespace LibNeoos.Thread

open Lib

abbrev MAX_THREAD_SLOTS : Nat := 1024

/-- `struct thread_start`. Addresses are numbers. -/
structure thread_start where
  in_use : Int := 0
  fn : Nat := 0
  arg : Nat := 0
  deriving DecidableEq, Repr

/-- What the kernel knows of a thread: it runs in `thread_trampoline` from the
start on, with a slot of the table as its argument. -/
inductive Life
  | none
  | created (raw : Nat)
  | started
  deriving DecidableEq, Repr

structure Mem (T : Type) where
  slots : Nat → thread_start := fun _ => {}
  life : T → Life
  given : T → Option (Nat × Nat) := fun _ => .none
  claims : Nat → Nat := fun _ => 0
  starts : Nat → Nat := fun _ => 0
  undos : Nat → Nat := fun _ => 0

/-- Where a thread is. `user` is in the program's code; the points from `scan` to
`ret` are those of `thread_create`, the others those of `thread_trampoline`. `ret`
has the code that is returned and whether the kernel was asked for a thread. -/
inductive Frame
  | unborn
  | user
  | scan (i fn arg : Nat)
  | set_fn (i fn arg : Nat)
  | set_arg (i fn arg : Nat)
  | create (i fn arg : Nat)
  | undo (i : Nat) (tid : Int)
  | store (tid : Int)
  | ret (rc : Int) (asked : Bool)
  | read_fn (i : Nat)
  | read_arg (i fn : Nat)
  | release (i fn arg : Nat)
  | tls (fn arg : Nat)
  | dead
  deriving DecidableEq, Repr

/-- A thread: where it is, whether and what `*out` is, how many calls of
`thread_create` it has made, and the function and argument it was started with. -/
structure Task where
  frame : Frame := .unborn
  out : Ptr := .null
  stored : Option Int := none
  calls : Nat := 0
  runs : Option (Nat × Nat) := none
  deriving DecidableEq, Repr

/-- A step: the program calls `thread_create` or its thread ends, the next
operation, what the kernel answers to the request for a thread, and a failure of
`__tls_setup_self`. -/
inductive Act (T : Type)
  | call (out : Ptr) (fn arg : Nat)
  | exit
  | go
  | created (u : T) (tid : Int)
  | refused (tid : Int)
  | tlsFails
  deriving DecidableEq

section
variable {T : Type} [DecidableEq T]

def Mem.set (m : Mem T) (i : Nat) (f : thread_start → thread_start) : Mem T :=
  { m with slots := Function.update m.slots i (f (m.slots i)) }

/-- The compare-exchange on a free slot. -/
def Mem.claim (m : Mem T) (i : Nat) : Mem T :=
  { m.set i ({ · with in_use := 1 }) with claims := Function.update m.claims i (m.claims i + 1) }

/-- The store of 0 by the new thread. -/
def Mem.free (m : Mem T) (i : Nat) : Mem T :=
  { m.set i ({ · with in_use := 0 }) with starts := Function.update m.starts i (m.starts i + 1) }

/-- The store of 0 after a failed creation. -/
def Mem.unclaim (m : Mem T) (i : Nat) : Mem T :=
  { m.set i ({ · with in_use := 0 }) with undos := Function.update m.undos i (m.undos i + 1) }

/-- The kernel creates thread `u` for a creator that passed `fn` and `arg`. -/
def Mem.spawn (m : Mem T) (u : T) (i fn arg : Nat) : Mem T :=
  { m with life := Function.update m.life u (.created i), given := Function.update m.given u (some (fn, arg)) }

def thread_create (m : Mem T) (p : Task) (a : Act T) : Option (Mem T × Task) :=
  match p.frame, a with
  | .scan i fn arg, .go =>
    if (m.slots i).in_use = 0 then some (m.claim i, { p with frame := .set_fn i fn arg })
    else if i + 1 < MAX_THREAD_SLOTS then some (m, { p with frame := .scan (i + 1) fn arg })
    else some (m, { p with frame := .ret (-EAGAIN) false })
  | .set_fn i fn arg, .go => some (m.set i ({ · with fn }), { p with frame := .set_arg i fn arg })
  | .set_arg i fn arg, .go => some (m.set i ({ · with arg }), { p with frame := .create i fn arg })
  | .create i fn arg, .created u tid =>
    if m.life u = .none ∧ 0 ≤ tid then some (m.spawn u i fn arg, { p with frame := .store tid }) else none
  | .create i _ _, .refused tid => if tid < 0 then some (m, { p with frame := .undo i tid }) else none
  | .undo i tid, .go => some (m.unclaim i, { p with frame := .ret tid true })
  | .store tid, .go =>
    some (m, { p with frame := .ret 0 true, stored := if p.out = .null then p.stored else some tid })
  | _, _ => none

def thread_trampoline (t : T) (m : Mem T) (p : Task) (a : Act T) : Option (Mem T × Task) :=
  match p.frame, a with
  | .unborn, .go =>
    match m.life t with
    | .created raw => some ({ m with life := Function.update m.life t .started }, { p with frame := .read_fn raw })
    | _ => none
  | .read_fn i, .go => some (m, { p with frame := .read_arg i (m.slots i).fn })
  | .read_arg i fn, .go => some (m, { p with frame := .release i fn (m.slots i).arg })
  | .release i fn arg, .go => some (m.free i, { p with frame := .tls fn arg })
  | .tls fn arg, .go => some (m, { p with frame := .user, runs := some (fn, arg) })
  | .tls _ _, .tlsFails => some (m, { p with frame := .dead })
  | _, _ => none

/-- The program's steps, and those of the two functions. -/
def Task.move (t : T) (m : Mem T) (p : Task) (a : Act T) : Option (Mem T × Task) :=
  match p.frame, a with
  | .user, .call out fn arg => some (m, { p with frame := .scan 0 fn arg, out, calls := p.calls + 1 })
  | .user, .exit => some (m, { p with frame := .dead })
  | .ret _ _, .go => some (m, { p with frame := .user })
  | _, _ => (thread_create m p a).or (thread_trampoline t m p a)

abbrev Sys (T : Type) := Conf T (Mem T) Task

/-- All slots free, and only the main thread. -/
def start (main : T) : Sys T where
  mem := { life := fun t => if t = main then .started else .none }
  thr t := { frame := if t = main then .user else .unborn }

abbrev step : Sys T → T × Act T → Option (Sys T) := Conf.step Task.move

/-! ## What a step can do -/

/-- All that a step can do. -/
inductive Task.Moves (t : T) (m : Mem T) (p : Task) (m' : Mem T) (p' : Task) : Prop
  | call (out : Ptr) (fn arg : Nat) : p.frame = .user → m' = m →
      p' = { p with frame := .scan 0 fn arg, out, calls := p.calls + 1 } → Moves t m p m' p'
  | back (rc : Int) (asked : Bool) : p.frame = .ret rc asked → m' = m → p' = { p with frame := .user } →
      Moves t m p m' p'
  | claim (i fn arg : Nat) : p.frame = .scan i fn arg → (m.slots i).in_use = 0 → m' = m.claim i →
      p' = { p with frame := .set_fn i fn arg } → Moves t m p m' p'
  | next (i fn arg : Nat) : p.frame = .scan i fn arg → (m.slots i).in_use ≠ 0 → i + 1 < MAX_THREAD_SLOTS → m' = m →
      p' = { p with frame := .scan (i + 1) fn arg } → Moves t m p m' p'
  | giveUp (i fn arg : Nat) : p.frame = .scan i fn arg → (m.slots i).in_use ≠ 0 → MAX_THREAD_SLOTS ≤ i + 1 → m' = m →
      p' = { p with frame := .ret (-EAGAIN) false } → Moves t m p m' p'
  | set_fn (i fn arg : Nat) : p.frame = .set_fn i fn arg → m' = m.set i ({ · with fn }) →
      p' = { p with frame := .set_arg i fn arg } → Moves t m p m' p'
  | set_arg (i fn arg : Nat) : p.frame = .set_arg i fn arg → m' = m.set i ({ · with arg }) →
      p' = { p with frame := .create i fn arg } → Moves t m p m' p'
  | created (i fn arg : Nat) (u : T) (tid : Int) : p.frame = .create i fn arg → m.life u = .none →
      m' = m.spawn u i fn arg → p' = { p with frame := .store tid } → Moves t m p m' p'
  | refused (i fn arg : Nat) (tid : Int) : p.frame = .create i fn arg → m' = m → p' = { p with frame := .undo i tid } →
      Moves t m p m' p'
  | undo (i : Nat) (tid : Int) : p.frame = .undo i tid → m' = m.unclaim i → p' = { p with frame := .ret tid true } →
      Moves t m p m' p'
  | store (tid : Int) (x : Option Int) : p.frame = .store tid → m' = m →
      p' = { p with frame := .ret 0 true, stored := x } → Moves t m p m' p'
  | start (i : Nat) : p.frame = .unborn → m.life t = .created i →
      m' = { m with life := Function.update m.life t .started } → p' = { p with frame := .read_fn i } →
        Moves t m p m' p'
  | read_fn (i : Nat) : p.frame = .read_fn i → m' = m → p' = { p with frame := .read_arg i (m.slots i).fn } →
      Moves t m p m' p'
  | read_arg (i fn : Nat) : p.frame = .read_arg i fn → m' = m →
      p' = { p with frame := .release i fn (m.slots i).arg } → Moves t m p m' p'
  | release (i fn arg : Nat) : p.frame = .release i fn arg → m' = m.free i → p' = { p with frame := .tls fn arg } →
      Moves t m p m' p'
  | run (fn arg : Nat) : p.frame = .tls fn arg → m' = m → p' = { p with frame := .user, runs := some (fn, arg) } →
      Moves t m p m' p'
  | exit : p.frame = .user ∨ (∃ fn arg, p.frame = .tls fn arg) → m' = m → p' = { p with frame := .dead } →
      Moves t m p m' p'

variable {t : T} {m m' : Mem T} {p p' : Task} {a : Act T}

theorem create_moves (h : thread_create m p a = some (m', p')) : p.Moves t m m' p' := by
  unfold thread_create at h
  split at h
  · split_ifs at h with h0 hi <;> cases h
    · exact .claim _ _ _ ‹_› h0 rfl rfl
    · exact .next _ _ _ ‹_› h0 hi rfl rfl
    · exact .giveUp _ _ _ ‹_› h0 (by omega) rfl rfl
  · cases h
    exact .set_fn _ _ _ ‹_› rfl rfl
  · cases h
    exact .set_arg _ _ _ ‹_› rfl rfl
  · split_ifs at h with hu
    cases h
    exact .created _ _ _ _ _ ‹_› hu.1 rfl rfl
  · split_ifs at h
    cases h
    exact .refused _ _ _ _ ‹_› rfl rfl
  · cases h
    exact .undo _ _ ‹_› rfl rfl
  · cases h
    exact .store _ _ ‹_› rfl rfl
  · cases h

theorem trampoline_moves (h : thread_trampoline t m p a = some (m', p')) : p.Moves t m m' p' := by
  unfold thread_trampoline at h
  split at h
  · split at h <;> cases h
    exact .start _ ‹_› ‹_› rfl rfl
  · cases h
    exact .read_fn _ ‹_› rfl rfl
  · cases h
    exact .read_arg _ _ ‹_› rfl rfl
  · cases h
    exact .release _ _ _ ‹_› rfl rfl
  · cases h
    exact .run _ _ ‹_› rfl rfl
  · cases h
    exact .exit (.inr ⟨_, _, ‹_›⟩) rfl rfl
  · cases h

theorem Task.move_moves (h : p.move t m a = some (m', p')) : p.Moves t m m' p' := by
  unfold Task.move at h
  split at h
  · cases h
    exact .call _ _ _ ‹_› rfl rfl
  · cases h
    exact .exit (.inl ‹_›) rfl rfl
  · cases h
    exact .back _ _ ‹_› rfl rfl
  · rcases Option.or_eq_some_iff.1 h with h | ⟨-, h⟩
    · exact create_moves h
    · exact trampoline_moves h

/-! ## Who owns a slot -/

/-- The slot a thread owns: as a creator, from the compare-exchange until the
kernel has created the thread or the slot is free again; as a new thread, from
its creation until its store. -/
def Task.own (m : Mem T) (t : T) (p : Task) : Option Nat :=
  match p.frame with
  | .set_fn i _ _ | .set_arg i _ _ | .create i _ _ | .undo i _ => some i
  | .read_fn i | .read_arg i _ | .release i _ _ => some i
  | .unborn =>
    match m.life t with
    | .created i => some i
    | _ => none
  | _ => none

abbrev owner (s : Sys T) (t : T) : Option Nat := (s.thr t).own s.mem t

/-- A thread the kernel has not created is nowhere, and one that it has started is in its code. -/
def Task.born (m : Mem T) (t : T) (p : Task) : Prop := p.frame = .unborn ↔ m.life t ≠ .started

/-- What a step does to another thread: nothing, or the kernel creates it, with
the slot that the creator has filled. -/
theorem Task.Moves.kernel (h : p.Moves t m m' p') {u : T} (hu : u ≠ t) :
    (m'.life u = m.life u ∧ m'.given u = m.given u) ∨
    ∃ i fn arg, p.frame = .create i fn arg ∧ m.life u = .none ∧ m'.life u = .created i ∧ m'.given u = some (fn, arg) ∧
      m'.slots = m.slots := by
  cases h with
  | created i fn arg v tid hf hv hm =>
    subst hm
    by_cases huv : u = v
    · subst huv
      exact .inr ⟨i, fn, arg, hf, hv, Function.update_self .., Function.update_self .., rfl⟩
    · exact .inl ⟨Function.update_of_ne huv .., Function.update_of_ne huv ..⟩
  | start i _ _ hm =>
    subst hm
    exact .inl ⟨Function.update_of_ne hu .., rfl⟩
  | claim i _ _ _ _ hm | set_fn i _ _ _ hm | set_arg i _ _ _ hm | undo i _ _ hm | release i _ _ _ hm =>
    subst hm
    exact .inl ⟨rfl, rfl⟩
  | call _ _ _ _ hm | back _ _ _ hm | next _ _ _ _ _ _ hm | giveUp _ _ _ _ _ _ hm | refused _ _ _ _ _ hm =>
    subst hm
    exact .inl ⟨rfl, rfl⟩
  | store _ _ _ hm | read_fn _ _ hm | read_arg _ _ _ hm | run _ _ _ hm | exit _ hm =>
    subst hm
    exact .inl ⟨rfl, rfl⟩

theorem Task.Moves.born (h : p.Moves t m m' p') (hb : p.born m t) : p'.born m' t := by
  unfold Task.born at hb ⊢
  cases h with
  | created i fn arg v tid hf hv hm hp =>
    subst hm hp
    have hvt : t ≠ v := by
      rintro rfl
      simp [hf, hv] at hb
    simpa [Mem.spawn, Function.update_of_ne hvt, hf] using hb
  | start i _ _ hm hp =>
    subst hm hp
    simp
  | exit hf hm hp =>
    subst hm hp
    rcases hf with hf | ⟨_, _, hf⟩ <;> simpa [hf] using hb
  | claim i _ _ hf _ hm hp | set_fn i _ _ hf hm hp | set_arg i _ _ hf hm hp | undo i _ hf hm hp
  | release i _ _ hf hm hp =>
    subst hm hp
    simpa [hf, Mem.claim, Mem.unclaim, Mem.free, Mem.set] using hb
  | call _ _ _ hf hm hp | back _ _ hf hm hp | next _ _ _ hf _ _ hm hp | giveUp _ _ _ hf _ _ hm hp =>
    subst hm hp
    simpa [hf] using hb
  | refused _ _ _ _ hf hm hp | store _ _ hf hm hp | read_fn _ hf hm hp | read_arg _ _ hf hm hp | run _ _ hf hm hp =>
    subst hm hp
    simpa [hf] using hb

variable {main : T} {s s' : Sys T} {l : T × Act T} {ok : Sys T → T × Act T → Sys T → Prop}

theorem run_born (h : Run step ok (start main) s) (t : T) : (s.thr t).born s.mem t := by
  refine run_local (fun m t p => p.born m t) (fun t => ?_) ?_ ?_ h t
  · by_cases ht : t = main <;> simp [Task.born, start, ht]
  · intro s t a s' hb _ hm
    exact (Task.move_moves hm).born hb
  · intro s t a s' u hb _ hm hu
    have hbu := hb u
    unfold Task.born at hbu ⊢
    rcases (Task.move_moves hm).kernel hu with ⟨hl, -⟩ | ⟨i, _, _, -, h0, hi, -⟩
    · rw [hl]
      exact hbu
    · rw [hi]
      rw [h0] at hbu
      simpa using hbu

/-- What a step does to the slots: nothing, or the thread claims one, frees its
own or hands it to the thread it creates. -/
inductive Task.Shift (t : T) (m : Mem T) (p : Task) (m' : Mem T) (p' : Task) : Prop
  | keep : p'.own m' t = p.own m t → (∀ u, u ≠ t → m'.life u = m.life u) →
      (∀ j, (m'.slots j).in_use = (m.slots j).in_use) → m'.claims = m.claims → m'.starts = m.starts →
      m'.undos = m.undos → Shift t m p m' p'
  | take (i fn arg : Nat) : p.frame = .scan i fn arg → (m.slots i).in_use = 0 → p'.own m' t = some i → m' = m.claim i →
      Shift t m p m' p'
  | drop (i : Nat) : p.own m t = some i → p'.own m' t = none → m' = m.free i ∨ m' = m.unclaim i → Shift t m p m' p'
  | pass (i fn arg : Nat) (u : T) : p.own m t = some i → p'.own m' t = none → m.life u = .none →
      m' = m.spawn u i fn arg → Shift t m p m' p'

theorem Task.Moves.shift (h : p.Moves t m m' p') : p.Shift t m m' p' := by
  cases h with
  | claim i fn arg hf h0 hm hp =>
    subst hp
    exact .take i fn arg hf h0 rfl hm
  | undo i _ hf hm hp =>
    subst hp
    exact .drop i (by simp [Task.own, hf]) rfl (.inr hm)
  | release i _ _ hf hm hp =>
    subst hp
    exact .drop i (by simp [Task.own, hf]) rfl (.inl hm)
  | created i fn arg u _ hf hu hm hp =>
    subst hp
    exact .pass i fn arg u (by simp [Task.own, hf]) rfl hu hm
  | start i hf hl hm hp =>
    subst hm hp
    exact .keep (by simp [Task.own, hf, hl]) (fun u hu => Function.update_of_ne hu ..) (fun _ => rfl) rfl rfl rfl
  | set_fn i _ _ hf hm hp | set_arg i _ _ hf hm hp =>
    subst hm hp
    refine .keep (by simp [Task.own, hf]) (fun _ _ => rfl) (fun j => ?_) rfl rfl rfl
    by_cases hj : j = i
    · subst hj
      simp [Mem.set]
    · simp [Mem.set, Function.update_of_ne hj]
  | exit hf hm hp =>
    subst hm hp
    refine .keep ?_ (fun _ _ => rfl) (fun _ => rfl) rfl rfl rfl
    rcases hf with hf | ⟨_, _, hf⟩ <;> simp [Task.own, hf]
  | call _ _ _ hf hm hp | back _ _ hf hm hp | next _ _ _ hf _ _ hm hp | giveUp _ _ _ hf _ _ hm hp =>
    subst hm hp
    exact .keep (by simp [Task.own, hf]) (fun _ _ => rfl) (fun _ => rfl) rfl rfl rfl
  | refused _ _ _ _ hf hm hp | store _ _ hf hm hp | read_fn _ hf hm hp | read_arg _ _ hf hm hp | run _ _ hf hm hp =>
    subst hm hp
    exact .keep (by simp [Task.own, hf]) (fun _ _ => rfl) (fun _ => rfl) rfl rfl rfl

/-- Each slot that is in use has one owner. -/
abbrev Owned (s : Sys T) : Prop := Owners (owner s) fun i => (s.mem.slots i).in_use = 1

/-- A step that changes the kernel's record of no other thread changes no other thread's slot. -/
theorem owner_step (hst : step s l = some s') (hl : ∀ u, u ≠ l.1 → s'.mem.life u = s.mem.life u) (t : T) :
    owner s' t = Function.update (owner s) l.1 (owner s' l.1) t := by
  by_cases ht : t = l.1
  · subst ht
    rw [Function.update_self]
  · rw [Function.update_of_ne ht]
    simp only [owner, Task.own, Conf.step_other hst ht, hl t ht]

theorem Owned.step (hi : Owned s) (hb : ∀ t, (s.thr t).born s.mem t) (hst : step s l = some s') : Owned s' := by
  cases (Task.move_moves (Conf.step_self hst)).shift with
  | keep hown hlife huse =>
    refine hi.congr (fun t => ?_) fun i => by rw [huse]
    rw [owner_step hst hlife t]
    by_cases ht : t = l.1
    · subst ht
      rw [Function.update_self, owner, hown]
    · rw [Function.update_of_ne ht]
  | take i fn arg hf h0 hown' hm =>
    have hown : owner s l.1 = none := by simp [owner, Task.own, hf]
    refine (hi.take hown (i := i) (by simp [h0])).congr (fun t => ?_) fun j => ?_
    · rw [owner_step hst (by simp [hm, Mem.claim, Mem.set]) t, owner, hown']
    · by_cases hj : j = i
      · subst hj
        simp [hm, Mem.claim, Mem.set]
      · simp [hm, Mem.claim, Mem.set, hj]
  | drop i hown hown' hm =>
    refine (hi.release hown).congr (fun t => ?_) fun j => ?_
    · have hlife : s'.mem.life = s.mem.life := by rcases hm with hm | hm <;> (rw [hm]; rfl)
      rw [owner_step hst (fun _ _ => by rw [hlife]) t, owner, hown']
    · have hslots : s'.mem.slots = (s.mem.free i).slots := by
        rcases hm with hm | hm
        · rw [hm]
        · rw [hm]
          rfl
      by_cases hj : j = i
      · subst hj
        simp [hslots, Mem.free, Mem.set]
      · simp [hslots, Mem.free, Mem.set, hj]
  | pass i fn arg u hown hown' hu hm =>
    have hframe : (s.thr u).frame = .unborn := (hb u).2 (by simp [hu])
    have hnone : owner s u = none := by simp [owner, Task.own, hframe, hu]
    refine (hi.pass hown hnone).congr (fun t => ?_) fun j => by rw [hm]; rfl
    have hul : u ≠ l.1 := by
      rintro rfl
      rw [owner, hown] at hnone
      cases hnone
    by_cases htu : t = u
    · subst htu
      rw [Function.update_self]
      simp [owner, Task.own, Conf.step_other hst hul, hframe, hm, Mem.spawn]
    · rw [Function.update_of_ne htu]
      by_cases ht : t = l.1
      · subst ht
        rw [Function.update_self, owner, hown']
      · rw [Function.update_of_ne ht]
        simp [owner, Task.own, Conf.step_other hst ht, hm, Mem.spawn, Function.update_of_ne htu]

theorem run_owned (h : Run step ok (start main) s) : Owned s := by
  refine h.inv_reach Owned ⟨fun t i ht => ?_, fun i hi => ?_, fun t u i ht _ => ?_⟩ ?_
  · by_cases htm : t = main <;> simp [owner, Task.own, start, htm] at ht
  · simp [start] at hi
  · by_cases htm : t = main <;> simp [owner, Task.own, start, htm] at ht
  · intro s l s' hrun hi _ hst
    exact hi.step (run_born hrun) hst

/-! ## Claims and frees -/

/-- The contents of the slot a thread owns, and what it has from there. A thread
that runs its function runs the one that was given. -/
def Task.sound (m : Mem T) (t : T) (p : Task) : Prop :=
  match p.frame with
  | .unborn => p.runs = none ∧ ∀ i, m.life t = .created i → m.given t = some ((m.slots i).fn, (m.slots i).arg)
  | .scan i _ _ => p.runs = m.given t ∧ i < MAX_THREAD_SLOTS
  | .set_arg i fn _ => p.runs = m.given t ∧ (m.slots i).fn = fn
  | .create i fn arg => p.runs = m.given t ∧ (m.slots i).fn = fn ∧ (m.slots i).arg = arg
  | .ret rc asked => p.runs = m.given t ∧ (asked = false → rc = -EAGAIN)
  | .read_fn i => p.runs = none ∧ m.given t = some ((m.slots i).fn, (m.slots i).arg)
  | .read_arg i fn => p.runs = none ∧ m.given t = some (fn, (m.slots i).arg)
  | .release _ fn arg | .tls fn arg => p.runs = none ∧ m.given t = some (fn, arg)
  | .dead => p.runs = none ∨ p.runs = m.given t
  | _ => p.runs = m.given t

/-- Only its owner writes into a slot. -/
theorem Task.Moves.contents (h : p.Moves t m m' p') {j : Nat} (hj : p.own m t ≠ some j) :
    (m'.slots j).fn = (m.slots j).fn ∧ (m'.slots j).arg = (m.slots j).arg := by
  cases h with
  | claim i _ _ _ _ hm | undo i _ _ hm | release i _ _ _ hm =>
    subst hm
    by_cases hji : j = i
    · subst hji
      simp [Mem.claim, Mem.unclaim, Mem.free, Mem.set]
    · simp [Mem.claim, Mem.unclaim, Mem.free, Mem.set, hji]
  | set_fn i _ _ hf hm | set_arg i _ _ hf hm =>
    subst hm
    have hji : j ≠ i := by
      rintro rfl
      simp [Task.own, hf] at hj
    simp [Mem.set, hji]
  | created _ _ _ _ _ _ _ hm | start _ _ _ hm =>
    subst hm
    exact ⟨rfl, rfl⟩
  | call _ _ _ _ hm | back _ _ _ hm | next _ _ _ _ _ _ hm | giveUp _ _ _ _ _ _ hm | refused _ _ _ _ _ hm =>
    subst hm
    exact ⟨rfl, rfl⟩
  | store _ _ _ hm | read_fn _ _ hm | read_arg _ _ _ hm | run _ _ _ hm | exit _ hm =>
    subst hm
    exact ⟨rfl, rfl⟩

theorem Task.Moves.sound (h : p.Moves t m m' p') (hb : p.born m t) (hs : p.sound m t) : p'.sound m' t := by
  cases h with
  | created i fn arg u tid hf hu hm hp =>
    subst hm hp
    have hut : t ≠ u := by
      rintro rfl
      simp [Task.born, hf, hu] at hb
    simp only [Task.sound, hf] at hs
    simpa [Task.sound, Mem.spawn, Function.update_of_ne hut] using hs.1
  | start i hf hl hm hp =>
    subst hm hp
    simp only [Task.sound, hf] at hs
    exact ⟨hs.1, hs.2 i hl⟩
  | run fn arg hf hm hp =>
    subst hm hp
    simp only [Task.sound, hf] at hs
    exact hs.2.symm
  | exit hf hm hp =>
    subst hm hp
    rcases hf with hf | ⟨fn, arg, hf⟩ <;> simp only [Task.sound, hf] at hs
    · exact .inr hs
    · exact .inl hs.1
  | claim i _ _ hf _ hm hp | set_fn i _ _ hf hm hp | set_arg i _ _ hf hm hp | undo i _ hf hm hp
  | release i _ _ hf hm hp =>
    subst hm hp
    simp only [Task.sound, hf] at hs
    simp_all [Task.sound, Mem.claim, Mem.unclaim, Mem.free, Mem.set]
  | call _ _ _ hf hm hp | back _ _ hf hm hp | next _ _ _ hf _ _ hm hp | giveUp _ _ _ hf _ _ hm hp =>
    subst hm hp
    simp only [Task.sound, hf] at hs
    simp_all [Task.sound]
  | refused _ _ _ _ hf hm hp | store _ _ hf hm hp | read_fn _ hf hm hp | read_arg _ _ hf hm hp =>
    subst hm hp
    simp only [Task.sound, hf] at hs
    simp_all [Task.sound]

omit [DecidableEq T] in
/-- A thread stays sound when the kernel's record of it
and the contents of its slot stay. -/
theorem Task.sound.congr (hs : p.sound m t) (hlife : m'.life t = m.life t) (hgiven : m'.given t = m.given t)
    (hslot : ∀ i, p.own m t = some i → (m'.slots i).fn = (m.slots i).fn ∧ (m'.slots i).arg = (m.slots i).arg) :
    p.sound m' t := by
  unfold Task.sound Task.own at *
  rw [hgiven]
  cases hf : p.frame <;> simp_all

/-- What another thread does leaves a thread sound: it does not write into its
slot, and if it creates it, it has filled the slot. -/
theorem Task.sound.other {u : T} {q : Task} (hs : q.sound m u) (hb : q.born m u) (h : p.Moves t m m' p') (hu : u ≠ t)
    (hp : p.sound m t) (hown : ∀ i, q.own m u = some i → p.own m t ≠ some i) : q.sound m' u := by
  rcases h.kernel hu with ⟨hl, hg⟩ | ⟨i, fn, arg, hf, h0, hi, hg, hm⟩
  · exact hs.congr hl hg fun i hi => h.contents (hown i hi)
  · have hq : q.frame = .unborn := hb.2 (by simp [h0])
    simp only [Task.sound, hq, hf] at hs hp ⊢
    refine ⟨hs.1, fun j hj => ?_⟩
    obtain rfl : i = j := by
      rw [hi] at hj
      exact Life.created.inj hj
    rw [hg, hm, hp.2.1, hp.2.2]

theorem run_sound (h : Run step ok (start main) s) (t : T) : (s.thr t).sound s.mem t := by
  refine h.inv_reach (fun s => ∀ t, (s.thr t).sound s.mem t) (fun t => ?_) ?_ t
  · by_cases ht : t = main <;> simp [Task.sound, start, ht]
  · intro s l s' hrun hs _ hst t
    have hmove := Task.move_moves (Conf.step_self hst)
    by_cases ht : t = l.1
    · subst ht
      exact hmove.sound (run_born hrun l.1) (hs l.1)
    · rw [Conf.step_other hst ht]
      refine (hs t).other (run_born hrun t) hmove ht (hs l.1) fun i hi hl => ?_
      exact ht ((run_owned hrun).one t l.1 i hi hl)

/-- In the call it is in now, thread `t` did its compare-exchange on slot `i`
while the slot was in use. -/
def sawBusy (ok : Sys T → T × Act T → Sys T → Prop) (main : T) (s : Sys T) (t : T) (i : Nat) : Prop :=
  ∃ s₁ a s₂, Run step ok (start main) s₁ ∧ step s₁ (t, a) = some s₂ ∧ Run step ok s₂ s ∧
    (s₁.thr t).calls = (s.thr t).calls ∧ (∃ fn arg, (s₁.thr t).frame = .scan i fn arg) ∧ (s₁.mem.slots i).in_use = 1

theorem sawBusy.snoc {t : T} {i : Nat} (h : sawBusy ok main s t i) (hl : ok s l s') (hst : step s l = some s')
    (hc : (s'.thr t).calls = (s.thr t).calls) : sawBusy ok main s' t i := by
  obtain ⟨s₁, a, s₂, h1, h2, h3, hcalls, hscan⟩ := h
  exact ⟨s₁, a, s₂, h1, h2, h3.snoc hl hst, by rw [hcalls, hc], hscan⟩

end

end LibNeoos.Thread
