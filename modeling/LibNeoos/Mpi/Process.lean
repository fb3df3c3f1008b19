import LibNeoos.Mpi.Init
/-!
# One process over its sessions

A process makes calls one after the other; `MPI_Init` begins a session and
`MPI_Finalize` ends it. Here the network is free to hand the process any
datagrams, of any length and with any contents, and any errors, so what holds
of every run holds whatever the other ranks do. The unexpected queue is the
pool as the C code has it, and its representation invariant is proved to hold
in every state reached.

Two fields of a state record what happened and are read by no step: the number
of the session, and the messages receives have delivered.
-/

namespace LibNeoos.Mpi

open LibNeoos.Lib

/-! ## `recv_match` on a raw pool -/

section
variable {α : Type} [Framed α]

/-- The body of `recv_match`'s loop on the pool as it is. -/
def RawPool.recv_match_body (source tag : Int) (pool : RawPool α) (x : Recvd α) : Pass (RawPool α) α :=
  recv_match_pass RawPool.put source tag pool x

namespace Pass
variable {π π' : Type}

/-- The pool a pass leaves. -/
def pool : Pass π α → π
  | .again pool => pool
  | .done _ _ pool => pool

/-- The message a pass copies out. -/
def out : Pass π α → Option α
  | .again _ => none
  | .done _ out _ => out

def map (f : π → π') : Pass π α → Pass π' α
  | .again pool => .again (f pool)
  | .done rc out pool => .done rc out (f pool)

omit [Framed α] in
theorem pool_map (f : π → π') (x : Pass π α) : (x.map f).pool = f x.pool := by cases x <;> rfl

end Pass

/-- Two queues on which `put` does the same have the same passes. -/
theorem recv_match_pass_map {π π' : Type} {put : α → π → Option π} {put' : α → π' → Option π'} {f : π → π'}
    (hput : ∀ a pool, put' a (f pool) = (put a pool).map f) (source tag : Int) (pool : π) (x : Recvd α) :
    recv_match_pass put' source tag (f pool) x = (recv_match_pass put source tag pool x).map f := by
  cases x with
  | err n =>
    simp only [recv_match_pass]
    split <;> rfl
  | runt n => rfl
  | frame a =>
    simp only [recv_match_pass, hput]
    split
    · rfl
    · cases put a pool with
      | none => rfl
      | some pool' => rfl

/-- A pass that copies a message out has read it. -/
theorem recv_match_pass_out {π : Type} {put : α → π → Option π} {source tag : Int} {pool : π} {x : Recvd α} {a : α}
    (h : (recv_match_pass put source tag pool x).out = some a) : x = .frame a := by
  cases x with
  | err n =>
    simp only [recv_match_pass] at h
    split at h <;> cases h
  | runt n => cases h
  | frame b =>
    simp only [recv_match_pass] at h
    split at h
    · cases h
      rfl
    · split at h <;> cases h

omit [Framed α] in
theorem Pool.put_val (a : α) (pool : Pool α) : pool.val.put a = (pool.put a).map fun q => q.val := by
  unfold Pool.put
  split
  · rename_i h
    exact h
  · rename_i p' h
    exact h

/-- The messages on the queue after a pass are those before and the one read. -/
theorem recv_match_body_queue (source tag : Int) (pool : Pool α) (x : Recvd α) :
    ∀ a ∈ (recv_match_body source tag pool x).pool.queue, a ∈ pool.queue ∨ x = .frame a := by
  intro b hb
  cases x with
  | err n =>
    simp only [recv_match_body, recv_match_pass] at hb
    split at hb <;> exact .inl hb
  | runt n => exact .inl hb
  | frame a =>
    simp only [recv_match_body, recv_match_pass] at hb
    split at hb
    · exact .inl hb
    · have hput := pool.put_spec a
      split at hput
      · rw [hput] at hb
        exact .inl hb
      · obtain ⟨pool', hp, hqueue⟩ := hput
        rw [hp] at hb
        simp only [Pass.pool, hqueue, List.mem_append, List.mem_singleton] at hb
        rcases hb with hb | rfl
        · exact .inl hb
        · exact .inr rfl

theorem RawPool.Wf.body {p : RawPool α} {l : List Slot} (h : p.Wf l) (source tag : Int) (x : Recvd α) :
    ∃ l', (p.recv_match_body source tag x).pool.Wf l' ∧
      ∀ a ∈ (p.recv_match_body source tag x).pool.queue, a ∈ p.queue ∨ x = .frame a := by
  let pool : Pool α := ⟨p, l, h⟩
  have hmap : p.recv_match_body source tag x = (Mpi.recv_match_body source tag pool x).map fun q => q.val :=
    recv_match_pass_map Pool.put_val source tag pool x
  rw [hmap, Pass.pool_map]
  obtain ⟨l', hl'⟩ := (Mpi.recv_match_body source tag pool x).pool.property
  exact ⟨l', hl', recv_match_body_queue source tag pool x⟩

end

namespace RawPool
variable {α : Type} {p : RawPool α} {l : List Slot}

theorem Wf.slots_nil_iff (h : p.Wf l) : l = [] ↔ p.head = none := by
  rw [h.linked.head_eq, List.head?_eq_none_iff]

theorem Wf.queue_nil_iff (h : p.Wf l) : p.queue = [] ↔ l = [] := by
  rw [h.queue_eq, List.filterMap_eq_nil_iff]
  constructor
  · intro hnone
    refine List.eq_nil_iff_forall_not_mem.2 fun i hi => ?_
    have := h.filled i hi
    simp [hnone i hi] at this
  · rintro rfl
    simp

/-- All slots are free exactly when the list is empty. -/
theorem Wf.unused_iff (h : p.Wf l) : (∀ i, p.used i = false) ↔ l = [] := by
  constructor
  · intro hu
    refine List.eq_nil_iff_forall_not_mem.2 fun i hi => ?_
    have hused := (h.used i).2 hi
    rw [hu i] at hused
    cases hused
  · rintro rfl i
    simpa using (not_congr (h.used i)).2 (by simp)

end RawPool

namespace Process

/-! ## The machine -/

/-- What `recvfrom` meets: an error, or a datagram of any length. -/
inductive Arrival where
  | err (n : Int)
  | datagram (bytes : List UInt8)
  deriving DecidableEq

/-- A little-endian `int32_t` at offset `i`. -/
def int32At (frame : List UInt8) (i : Nat) : Int := int32 (leNat ((frame.drop i).take 4))

/-- What `recvfrom` into a frame of `sizeof(struct mpi_header) + MPI_MAX_MESSAGE`
bytes returns: what does not fit is cut off. -/
def recvfrom (session : Nat) : Arrival → Option (Recvd Held)
  | .err n => if n < 0 then some (.err n) else none
  | .datagram bytes =>
    let frame := bytes.take (16 + MPI_MAX_MESSAGE)
    if frame.length < 16 then some (.runt frame.length)
    else some (.frame ⟨⟨⟨int32At frame 0, int32At frame 4, int32At frame 8, int32At frame 12⟩, frame.drop 16,
      by simp [frame]⟩, session⟩)

/-- A message a receive delivered, and in which session. -/
structure Delivery where
  session : Nat
  msg : Held
  deriving DecidableEq

structure State where
  g : Statics := {}
  ctl : Ctl := .idle
  session : Nat := 0
  log : List Delivery := []

def State.env (s : State) : Env := ⟨s.g.mpi_rank.toNat, s.g.mpi_size.toNat, s.g.mpi_ready⟩

/-- A receive ends with the message `m`. -/
def State.deliver (s : State) (m : Held) (p : Prog Ret) : State :=
  { s with ctl := .run p, log := s.log ++ [⟨s.session, m⟩] }

def State.setPool (s : State) (pool : RawPool Held) : State := { s with g := { s.g with pool := pool } }

/-- A step of the process: it calls a function of the library, goes on inside
one, or a system call it is in returns. -/
inductive Act where
  | call (op : Op)
  | go
  | sent (n : Int)
  | recvd (x : Arrival)
  | init (argc : Option Int) (argv : Option Argv) (w : Kernel)
  | finalize

def step (s : State) : Act → Option State
  | .call op =>
    match s.ctl with
    | .idle => some { s with ctl := .run (op.code s.env) }
    | _ => none
  | .go =>
    match s.ctl with
    | .run (.ret _) => some { s with ctl := .idle }
    | .run (.coll_seq f) =>
      let seq := (s.g.coll_seq + 1) % 2 ^ 32
      some { s with g := { s.g with coll_seq := seq }, ctl := .run (f seq) }
    | .run (.recv_match source tag f) =>
      match s.g.pool.take (accepts source tag) with
      | (some m, pool) => some ((s.setPool pool).deliver m (f (.ok m.frame)))
      | (none, pool) => some { s.setPool pool with ctl := .recvLoop source tag f }
    | _ => none
  | .sent n =>
    match s.ctl with
    | .run (.sendto _ _ f) => some { s with ctl := .run (f n) }
    | _ => none
  | .recvd x =>
    match s.ctl, recvfrom s.session x with
    | .recvLoop source tag f, some r =>
      match s.g.pool.recv_match_body source tag r with
      | .again pool => some (s.setPool pool)
      | .done _ (some m) pool => some ((s.setPool pool).deliver m (f (.ok m.frame)))
      | .done rc none pool => some { s.setPool pool with ctl := .run (f (.error rc)) }
    | _, _ => none
  | .init argc argv w =>
    match s.ctl, MPI_Init s.g argc argv w with
    | .idle, .returned rc g _ _ =>
      some { s with g := g, session := if rc = MPI_SUCCESS then s.session + 1 else s.session }
    | _, _ => none
  | .finalize =>
    match s.ctl with
    | .idle => some { s with g := (MPI_Finalize s.g).2 }
    | _ => none

/-- The process has just started. -/
def start : State := {}

/-- No condition on a step. -/
abbrev any : State → Act → State → Prop := fun _ _ _ => True

/-! ## What a step does -/

/-- Between calls, or about to return. -/
def Quiet (ctl : Ctl) : Prop := ctl = .idle ∨ ∃ r, ctl = .run (.ret r)

/-- Before `MPI_Init` every call of the library returns at once. -/
theorem code_down (e : Env) (he : e.ready = false) (op : Op) : ∃ r, op.code e = .ret r := by
  cases op
  all_goals
    simp only [Op.code, MPI_Send, Copies.MPI_Send, MPI_Recv, MPI_Barrier, MPI_Bcast, Copies.MPI_Bcast, MPI_Reduce,
      Copies.MPI_Reduce, MPI_Allreduce, Io.forget_ite, Io.forget_ret, he, Bool.not_false, ↓reduceIte]
    split
    all_goals exact ⟨_, rfl⟩

/-- Everything a step can do to the queue, the session and the deliveries. -/
inductive Effect (s : State) (a : Act) (s' : State) : Prop
  | keep (pool : s'.g.pool = s.g.pool) (session : s'.session = s.session) (log : s'.log = s.log)
      (ready : s'.g.mpi_ready = s.g.mpi_ready) (quiet : s.g.mpi_ready = false → Quiet s.ctl → Quiet s'.ctl)
  | take (source tag : Int) (m : Option Held) (busy : ¬ Quiet s.ctl)
      (take : s.g.pool.take (accepts source tag) = (m, s'.g.pool)) (session : s'.session = s.session)
      (log : s'.log = s.log ++ m.toList.map (⟨s.session, ·⟩)) (ready : s'.g.mpi_ready = s.g.mpi_ready)
  | recv (source tag : Int) (x : Arrival) (r : Recvd Held) (m : Option Held) (busy : ¬ Quiet s.ctl)
      (recvfrom : recvfrom s.session x = some r) (got : ∀ a ∈ m, r = .frame a)
      (pool : s'.g.pool = (s.g.pool.recv_match_body source tag r).pool) (session : s'.session = s.session)
      (log : s'.log = s.log ++ m.toList.map (⟨s.session, ·⟩)) (ready : s'.g.mpi_ready = s.g.mpi_ready)
  | init (pool : s'.g.pool = s.g.pool) (down : s.g.mpi_ready = false) (up : s'.g.mpi_ready = true)
      (session : s'.session = s.session + 1) (log : s'.log = s.log)
  | finalize (act : a = .finalize) (pool : s'.g.pool = s.g.pool) (up : s.g.mpi_ready = true)
    (session : s'.session = s.session)
      (log : s'.log = s.log) (quiet : Quiet s'.ctl)

theorem step_effect {s s' : State} {a : Act} (h : step s a = some s') : Effect s a s' := by
  cases a with
  | call op =>
    simp only [step] at h
    split at h
    · cases h
      exact .keep rfl rfl rfl rfl fun hr _ => .inr (by
        obtain ⟨r, hr⟩ := code_down s.env hr op
        exact ⟨r, by rw [hr]⟩)
    · cases h
  | go =>
    simp only [step] at h
    split at h
    · cases h
      exact .keep rfl rfl rfl rfl fun _ _ => .inl rfl
    · rename_i f hc
      cases h
      refine .keep rfl rfl rfl rfl fun _ hq => ?_
      simp [Quiet, hc] at hq
    · rename_i source tag f hc
      have hbusy : ¬ Quiet s.ctl := by simp [Quiet, hc]
      split at h
      · rename_i m pool ht
        cases h
        exact .take source tag (some m) hbusy ht rfl rfl rfl
      · rename_i pool ht
        cases h
        exact .take source tag none hbusy ht rfl (by simp [State.setPool]) rfl
    · cases h
  | sent n =>
    simp only [step] at h
    split at h
    · rename_i f hc
      cases h
      refine .keep rfl rfl rfl rfl fun _ hq => ?_
      simp [Quiet, hc] at hq
    · cases h
  | recvd x =>
    simp only [step] at h
    split at h
    · rename_i source tag f r hc hr
      have hbusy : ¬ Quiet s.ctl := by simp [Quiet, hc]
      split at h
      · rename_i pool hb
        cases h
        exact .recv source tag x r none hbusy hr (by simp) (by rw [hb]; rfl) rfl (by simp [State.setPool]) rfl
      · rename_i rc m pool hb
        cases h
        have hout : (s.g.pool.recv_match_body source tag r).out = some m := by
          rw [hb]
          rfl
        have hgot : ∀ a ∈ some m, r = .frame a := by
          rintro a ⟨⟩
          exact recv_match_pass_out hout
        exact .recv source tag x r (some m) hbusy hr hgot (by rw [hb]; rfl) rfl rfl rfl
      · rename_i rc pool hb
        cases h
        exact .recv source tag x r none hbusy hr (by simp) (by rw [hb]; rfl) rfl (by simp [State.setPool]) rfl
    · cases h
  | init argc argv w =>
    simp only [step] at h
    split at h
    · rename_i rc g argc' argv' hc hi
      cases h
      obtain ⟨hpool, ⟨-, hrc, -, -, hready, -⟩ | ⟨-, hdown, -, ⟨hrc, hup⟩ | ⟨hrc, hready, -⟩⟩⟩ := MPI_Init_cases hi
      · exact .keep hpool (if_neg hrc) rfl hready fun _ hq => hq
      · exact .init hpool hdown hup (if_pos hrc) rfl
      · exact .keep hpool (if_neg hrc) rfl (hready.trans hdown.symm) fun _ hq => hq
    · cases h
  | finalize =>
    simp only [step] at h
    split at h
    · rename_i hc
      cases h
      by_cases hr : s.g.mpi_ready = true
      · exact .finalize rfl (by simp [MPI_Finalize, hr, Statics.close]) hr rfl rfl (.inl hc)
      · have hg : (MPI_Finalize s.g).2 = s.g := by simp [MPI_Finalize, hr]
        refine .keep (by rw [hg]) rfl rfl (by rw [hg]) fun _ hq => hq
    · cases h

/-- Only a successful `MPI_Init` begins a session, and it keeps the queue. -/
theorem Effect.begins {s s' : State} {a : Act} (h : Effect s a s') (hne : s'.session ≠ s.session) :
    s.g.mpi_ready = false ∧ s'.g.pool = s.g.pool := by
  cases h with
  | keep _ session => exact absurd session hne
  | take _ _ _ _ _ session => exact absurd session hne
  | recv _ _ _ _ _ _ _ _ _ session => exact absurd session hne
  | init pool down => exact ⟨down, pool⟩
  | finalize _ _ _ session => exact absurd session hne

theorem finalize_pool {s s' : State} (h : step s .finalize = some s') : s'.g.pool = s.g.pool := by
  simp only [step] at h
  split at h
  · cases h
    simp only [MPI_Finalize]
    split <;> rfl
  · cases h

/-! ## The unexpected queue -/

theorem step_wf {s s' : State} {a : Act} (hw : ∃ l, s.g.pool.Wf l) (h : step s a = some s') : ∃ l, s'.g.pool.Wf l := by
  obtain ⟨l, hl⟩ := hw
  cases step_effect h with
  | keep pool => exact ⟨l, by rw [pool]; exact hl⟩
  | take source tag m busy take =>
    obtain ⟨l', hl', -⟩ := RawPool.take_wf (accepts source tag) hl
    rw [take] at hl'
    exact ⟨l', hl'⟩
  | recv source tag x r m busy recvfrom got pool =>
    obtain ⟨l', hl', -⟩ := hl.body source tag r
    exact ⟨l', by rw [pool]; exact hl'⟩
  | init pool => exact ⟨l, by rw [pool]; exact hl⟩
  | finalize act pool => exact ⟨l, by rw [pool]; exact hl⟩

theorem run_wf {ok : State → Act → State → Prop} {s : State} (h : Run step ok start s) : ∃ l, s.g.pool.Wf l := by
  refine h.inv (fun s => ∃ l, s.g.pool.Wf l) ⟨[], RawPool.empty_wf⟩ ?_
  intro s a s' hw _ hs
  exact step_wf hw hs

/-- In every state a process reaches, whatever it calls and whatever arrives,
following the links from `pending_head` visits some slots, each once, and ends;
these are the slots whose `pending_used` is set, at most 16, and each holds a
message of at most `MPI_MAX_MESSAGE` bytes. -/
theorem queue_well_formed {s : State} (h : Run step any start s) :
    ∃ l : List Slot, l.Nodup ∧ Linked s.g.pool.next s.g.pool.head l ∧ (∀ i, s.g.pool.used i = true ↔ i ∈ l) ∧
      l.length ≤ PENDING_SLOTS ∧ ∀ i ∈ l, ∃ m, s.g.pool.item i = some m ∧ m.frame.data.length ≤ MPI_MAX_MESSAGE := by
  obtain ⟨l, hl⟩ := run_wf h
  refine ⟨l, hl.nodup, hl.linked, hl.used, hl.length_le, ?_⟩
  intro i hi
  obtain ⟨m, hm⟩ := Option.isSome_iff_exists.1 (hl.filled i hi)
  exact ⟨m, hm, m.frame.fits⟩

/-- The only rank of a world of one begins a session, with the arguments `p 0 1`. -/
def initAlone : Act := .init (some 3) (some [some [112], some [48], some [49], none]) ⟨3, 0, [.go]⟩

/-- A receive of any message with the tag. -/
def recvTag (tag : Int) : Act := .call (.recv [] 0 MPI_BYTE MPI_ANY_SOURCE tag MPI_COMM_WORLD)

/-- An empty message with the tag arrives. -/
def tagged (tag : UInt8) : Act := .recvd (.datagram ([0, 0, 0, 0, tag, 0, 0, 0] ++ List.replicate 8 0))

theorem queue_well_formed_one : ∃ s, Run step any start s ∧ s.g.pool.head = some 0 ∧ s.g.pool.used 0 = true ∧
    ∃ l : List Slot, l.Nodup ∧ Linked s.g.pool.next s.g.pool.head l ∧ (∀ i, s.g.pool.used i = true ↔ i ∈ l) ∧
      l.length ≤ PENDING_SLOTS ∧ ∀ i ∈ l, ∃ m, s.g.pool.item i = some m ∧ m.frame.data.length ≤ MPI_MAX_MESSAGE := by
  have h : (exec step (fun _ _ => true) start [initAlone, recvTag 5, .go, tagged 7]).map
      (fun s => decide (s.g.pool.head = some 0 ∧ s.g.pool.used 0 = true)) = some true := by
    decide +kernel
  obtain ⟨s, hr, hhead, hused⟩ := exec_reaches h fun _ _ _ _ => trivial
  exact ⟨s, hr, hhead, hused, queue_well_formed hr⟩

/-! ## A failed `MPI_Init` -/

/-- Outside a session the library has no socket. -/
def Down (g : Statics) : Prop := g.mpi_ready = false → g.mpi_sock < 0

theorem step_down {s s' : State} {a : Act} (hd : Down s.g) (h : step s a = some s') : Down s'.g := by
  cases a with
  | call op =>
    simp only [step] at h
    split at h <;> cases h
    exact hd
  | go =>
    simp only [step] at h
    split at h
    · cases h; exact hd
    · cases h; exact hd
    · split at h <;> cases h <;> exact hd
    · cases h
  | sent n =>
    simp only [step] at h
    split at h <;> cases h
    exact hd
  | recvd x =>
    simp only [step] at h
    split at h
    · split at h <;> cases h <;> exact hd
    · cases h
  | init argc argv w =>
    simp only [step] at h
    split at h
    · rename_i rc g argc' argv' hc hi
      cases h
      intro hr
      obtain ⟨-, ⟨-, -, -, -, hready, -, hsock⟩ | ⟨-, -, -, ⟨-, hup⟩ | ⟨-, -, hsock⟩⟩⟩ := MPI_Init_cases hi
      · rcases hsock with hsock | ⟨-, hsock⟩
        · rw [hsock]
          exact hd (hready ▸ hr)
        · exact hsock
      · rw [hup] at hr
        cases hr
      · exact hsock
    · cases h
  | finalize =>
    simp only [step] at h
    split at h
    · cases h
      simp only [MPI_Finalize]
      split
      · exact hd
      · exact fun _ => (by decide : (-1 : Int) < 0)
    · cases h

theorem run_down {ok : State → Act → State → Prop} {s : State} (h : Run step ok start s) : Down s.g := by
  refine h.inv (fun s => Down s.g) (fun _ => by decide) ?_
  intro s a s' hd _ hs
  exact step_down hd hs

/-- What `parse_rank_args` makes of the caller's two variables. -/
def parsed (argc : Option Int) (argv : Option Argv) : Option (Except Int (Int × Int)) :=
  argc.bind fun n => argv.bind fun v => parse_rank_args n v

/-- An `MPI_Init` that returns leaves the arguments, `mpi_ready` and the
library's socket as they were, and a second one parses the same rank and size,
exactly when it failed before the handshake. -/
theorem init_retriable_iff {s : State} {g' : Statics} {argc argc' : Option Int} {argv argv' : Option Argv} {w : Kernel}
    {rc : Int} (hr : Run step any start s) (h : MPI_Init s.g argc argv w = .returned rc g' argc' argv') :
    (argc' = argc ∧ argv' = argv ∧ g'.mpi_ready = s.g.mpi_ready ∧ g'.socket? = s.g.socket? ∧ g'.socks = s.g.socks ∧
      parsed argc' argv' = parsed argc argv) ↔ FailsEarly s.g argc argv w := by
  have hd := run_down hr
  obtain ⟨-, ⟨hearly, -, rfl, rfl, hready, hsocks, hsock⟩ | ⟨hlate, -, ⟨n, v, v', rfl, rfl, rfl, -, rfl⟩, -⟩⟩ :=
    MPI_Init_cases h
  · refine iff_of_true ⟨rfl, rfl, hready, ?_, hsocks, rfl⟩ hearly
    rcases hsock with hsock | ⟨hdown, hsock⟩
    · rw [Statics.socket?, Statics.socket?, hsock]
    · rw [Statics.socket?, Statics.socket?, if_pos hsock, if_pos (hd hdown)]
  · refine iff_of_false ?_ hlate
    rintro ⟨hargc, -⟩
    simp at hargc

theorem init_retriable_iff_bind : ∃ g', MPI_Init start.g (some 3) (some [some [112], some [48], some [50], none])
      ⟨3, -98, []⟩ = .returned MPI_ERR_INTERN g' (some 3) (some [some [112], some [48], some [50], none]) ∧
    ((some (3 : Int) = some 3 ∧ some [some [112], some [48], some [50], none] =
        some [some [112], some [48], some [(50 : UInt8)], none] ∧ g'.mpi_ready = start.g.mpi_ready ∧
        g'.socket? = start.g.socket? ∧ g'.socks = start.g.socks ∧
        parsed (some 3) (some [some [112], some [48], some [50], none]) =
          parsed (some 3) (some [some [112], some [48], some [50], none])) ↔
      FailsEarly start.g (some 3) (some [some [112], some [48], some [50], none]) ⟨3, -98, []⟩) :=
  ⟨_, rfl, init_retriable_iff .nil rfl⟩

/-- Rank 0 of 2 is started as `p 0 2 1 3` and the first `fcntl` of its handshake
fails. `MPI_Init` returns an error, and a second one would make the process
rank 1 of 3. -/
theorem failed_init_eats_arguments : ∃ g' argc' argv',
    MPI_Init start.g (some 5) (some [some [112], some [48], some [50], some [49], some [51], none])
      ⟨3, 0, [.fails (-9)]⟩ = .returned MPI_ERR_INTERN g' (some argc') (some argv') ∧
    parse_rank_args 5 [some [112], some [48], some [50], some [49], some [51], none] = some (.ok (0, 2)) ∧
    argc' = 3 ∧ parse_rank_args argc' argv' = some (.ok (1, 3)) :=
  ⟨_, _, _, rfl, rfl, rfl, rfl⟩

/-! ## Sessions -/

def Act.finalizes : Act → Bool
  | .finalize => true
  | _ => false

/-- A session is ended only when the unexpected queue is empty. -/
def drained (s : State) (a : Act) (_ : State) : Prop :=
  a.finalizes = true → s.g.mpi_ready = true → s.g.pool.head = none

instance (s : State) (a : Act) (s' : State) : Decidable (drained s a s') := inferInstanceAs (Decidable (_ → _ → _))

/-- Whatever is held or was delivered belongs to its session, and outside a
session nothing is held and no call waits. -/
structure Fresh (s : State) : Prop where
  held : ∀ m ∈ s.g.pool.queue, m.session = s.session
  log : ∀ d ∈ s.log, d.msg.session = d.session
  down : s.g.mpi_ready = false → s.g.pool.queue = [] ∧ Quiet s.ctl

theorem recvfrom_session {n : Nat} {x : Arrival} {m : Held} (h : recvfrom n x = some (.frame m)) : m.session = n := by
  cases x with
  | err e =>
    simp only [recvfrom] at h
    split at h <;> cases h
  | datagram bytes =>
    simp only [recvfrom] at h
    split at h
    · cases h
    · simp only [Option.some.injEq, Recvd.frame.injEq] at h
      rw [← h]

/-- Deliveries of messages of the session keep the log right. -/
theorem log_append {log : List Delivery} {n : Nat} {m : Option Held} (h : ∀ d ∈ log, d.msg.session = d.session)
    (hm : ∀ a ∈ m, a.session = n) : ∀ d ∈ log ++ m.toList.map (⟨n, ·⟩), d.msg.session = d.session := by
  intro d hd
  rcases List.mem_append.1 hd with hd | hd
  · exact h d hd
  · obtain ⟨a, ha, rfl⟩ := List.mem_map.1 hd
    exact hm a (Option.mem_toList.1 ha)

theorem step_fresh {s s' : State} {a : Act} (hf : Fresh s) (hw : ∃ l, s.g.pool.Wf l) (hd : drained s a s')
    (h : step s a = some s') : Fresh s' := by
  obtain ⟨l, hl⟩ := hw
  cases step_effect h with
  | keep pool session log ready quiet =>
    refine ⟨by rw [pool, session]; exact hf.held, by rw [log]; exact hf.log, ?_⟩
    intro hdown
    rw [ready] at hdown
    rw [pool]
    exact ⟨(hf.down hdown).1, quiet hdown (hf.down hdown).2⟩
  | take source tag m busy take session log ready =>
    obtain ⟨-, -, hfind, hrest⟩ := RawPool.take_wf (accepts source tag) hl
    rw [take] at hfind hrest
    refine ⟨?_, ?_, ?_⟩
    · intro a ha
      rw [hrest] at ha
      rw [session]
      exact hf.held a (List.mem_of_mem_eraseP ha)
    · rw [log]
      refine log_append hf.log fun a ha => hf.held a ?_
      exact List.mem_of_find?_eq_some (hfind.symm.trans ha)
    · intro hdown
      exact absurd (hf.down (ready ▸ hdown)).2 busy
  | recv source tag x r m busy hx got pool session log ready =>
    obtain ⟨-, -, hqueue⟩ := hl.body source tag r
    refine ⟨?_, ?_, ?_⟩
    · intro a ha
      rw [pool] at ha
      rw [session]
      rcases hqueue a ha with ha | rfl
      · exact hf.held a ha
      · exact recvfrom_session hx
    · rw [log]
      refine log_append hf.log fun a ha => ?_
      rw [got a ha] at hx
      exact recvfrom_session hx
    · intro hdown
      exact absurd (hf.down (ready ▸ hdown)).2 busy
  | init pool down up session log =>
    -- a new session begins with nothing held
    refine ⟨?_, by rw [log]; exact hf.log, ?_⟩
    · rw [pool, (hf.down down).1]
      exact fun m hm => absurd hm List.not_mem_nil
    · intro hdown
      rw [up] at hdown
      cases hdown
  | finalize act pool up session log quiet =>
    subst act
    have hnil : s.g.pool.queue = [] := hl.queue_nil_iff.2 (hl.slots_nil_iff.2 (hd rfl up))
    refine ⟨by rw [pool, session]; exact hf.held, by rw [log]; exact hf.log, ?_⟩
    intro _
    rw [pool]
    exact ⟨hnil, quiet⟩

theorem run_fresh {s : State} (h : Run step drained start s) : Fresh s := by
  refine h.inv_reach Fresh ⟨by simp [start, RawPool.queue, RawPool.slots, RawPool.empty, walk], by simp [start], ?_⟩ ?_
  · exact fun _ => ⟨rfl, .inl rfl⟩
  · intro s a s' hr hf hok hs
    exact step_fresh hf (run_wf hr) hok hs

/-- When every session is ended with an empty unexpected queue, each message is
delivered in the session that received it, and a step that begins a session
leaves all 16 slots free. And however a session is ended, the next one begins
with all slots free exactly if its queue was empty. -/
theorem sessions_isolated {s : State} (h : Run step drained start s) :
    (∀ d ∈ s.log, d.msg.session = d.session) ∧
    (∀ a s', step s a = some s' → s'.session ≠ s.session → ∀ i, s'.g.pool.used i = false) ∧
    ∀ s₁ s₂ argc argv w, step s .finalize = some s₁ → step s₁ (.init argc argv w) = some s₂ →
      s₂.session ≠ s₁.session → ((∀ i, s₂.g.pool.used i = false) ↔ s.g.pool.head = none) := by
  have hf := run_fresh h
  obtain ⟨l, hl⟩ := run_wf h
  refine ⟨hf.log, ?_, ?_⟩
  · intro a s' hs hne
    obtain ⟨hdown, hpool⟩ := (step_effect hs).begins hne
    rw [hpool]
    exact hl.unused_iff.2 (hl.queue_nil_iff.1 (hf.down hdown).1)
  · intro s₁ s₂ argc argv w h1 h2 hne
    rw [((step_effect h2).begins hne).2, finalize_pool h1, hl.unused_iff, hl.slots_nil_iff]

theorem sessions_isolated_twice : ∃ s, Run step drained start s ∧ s.session = 2 ∧ s.log.length = 2 ∧
    ∀ d ∈ s.log, d.msg.session = d.session := by
  have h : (exec step (fun s a => decide (drained s a s)) start [initAlone, recvTag 5, .go, tagged 7, tagged 5, .go,
      recvTag 7, .go, .go, .finalize, initAlone]).map (fun s => decide (s.session = 2 ∧ s.log.length = 2)) =
      some true := by
    decide +kernel
  obtain ⟨s, hr, hs, hlen⟩ := exec_reaches h fun _ _ _ hb => of_decide_eq_true hb
  exact ⟨s, hr, hs, hlen, (sessions_isolated hr).1⟩

/-- A message with tag 7 is put on the queue in the first session. The process
ends the session, begins another, and a receive of tag 7 delivers the message
though nothing has arrived. -/
theorem stale_message_delivered : ∃ s, Run step any start s ∧ ∃ d ∈ s.log, d.session = 2 ∧ d.msg.session = 1 := by
  have h : (exec step (fun _ _ => true) start [initAlone, recvTag 5, .go, tagged 7, tagged 5, .go, .finalize,
      initAlone, recvTag 7, .go]).map (fun s => decide (∃ d ∈ s.log, d.session = 2 ∧ d.msg.session = 1)) =
      some true := by
    decide +kernel
  exact exec_reaches h fun _ _ _ _ => trivial

end Process

end LibNeoos.Mpi
