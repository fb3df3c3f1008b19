import LibNeoos.Mpi.World
/-!
# `MPI_Init` and `MPI_Finalize` of one process

The static variables of `mpi.c`, the argument vector, and the two functions
that begin and end a session. `MPI_Init` changes them in stages: rank and size
once the arguments parse, `mpi_sock` at `socket`, the caller's `argc` and
`argv` after `bind`, `mpi_ready` before the handshake. The handshake itself is
`rendezvous` of the world of all ranks, here fed with whatever its system calls
return.
-/

namespace LibNeoos.Mpi

open LibNeoos.Lib

/-! ## The state of the library -/

/-- A message on the unexpected queue, and the number of the session that
received it, which the code does not record. -/
structure Held where
  frame : Datagram
  session : Nat
  deriving DecidableEq

instance : Framed Held := ⟨fun m => m.frame.hdr⟩

/-- The static variables of `mpi.c`. `socks` are the sockets the kernel holds
open for the process. -/
structure Statics where
  mpi_rank : Int := -1
  mpi_size : Int := 0
  mpi_sock : Int := -1
  mpi_ready : Bool := false
  coll_seq : Nat := 0
  pool : RawPool Held := .empty
  socks : List Int := []

/-- `close(mpi_sock); mpi_sock = -1;` -/
def Statics.close (g : Statics) : Statics := { g with mpi_sock := -1, socks := g.socks.erase g.mpi_sock }

/-- The socket the library has; a negative `mpi_sock` is none. -/
def Statics.socket? (g : Statics) : Option Int := if g.mpi_sock < 0 then none else some g.mpi_sock

/-! ## The arguments -/

/-- What `argv` points to, `NULL` entries included. A string is given by its
bytes: at least those before the terminating zero, and perhaps that zero and
what comes after it in the buffer, which no reader of the string looks at. -/
abbrev Argv : Type := List (Option (List UInt8))

/-- The loop over one argument of `parse_rank_args`; `none` is its `return`. -/
def digits (acc : Int) : List UInt8 → Option Int
  | [] => some acc
  | c :: s =>
    if c = 0 then some acc
    else if c < 48 ∨ c > 57 then none
    else digits (int32 (acc * 10 + (c.toNat - 48))) s

/-- The loop over `argv[i]`. Reading past the vector or through `NULL` has no
defined result. -/
def rank_arg (argv : Argv) (i : Nat) : Option (Option Int) :=
  match argv[i]? with
  | some (some s) => some (digits 0 s)
  | _ => none

/-- The rank and the size, or the error; `none` where a read leaves the vector. -/
def parse_rank_args (argc : Int) (argv : Argv) : Option (Except Int (Int × Int)) :=
  if argc < 3 then some (.error MPI_ERR_OTHER)
  else
    match rank_arg argv 1 with
    | none => none
    | some none => some (.error MPI_ERR_OTHER)
    | some (some r) =>
      match rank_arg argv 2 with
      | none => none
      | some none => some (.error MPI_ERR_OTHER)
      | some (some n) =>
        if n < 1 ∨ n > MPI_MAX_RANKS ∨ r < 0 ∨ r ≥ n then some (.error MPI_ERR_OTHER) else some (.ok (r, n))

/-- `v[dst] = v[src]`. -/
def Argv.move (v : Argv) (dst src : Nat) : Option Argv :=
  match v[src]? with
  | some x => if dst < v.length then some (v.set dst x) else none
  | none => none

/-- The loop that drops `argv[1]` and `argv[2]`. -/
def Argv.shift (argc : Int) (v : Argv) : Option Argv :=
  (v.move 1 0).bind fun v => (List.range' 3 (argc - 2).toNat).foldlM (fun v i => v.move (i - 2) i) v

/-! ## The two functions -/

/-- What happens during the handshake of one rank: it goes on, a system call
of it fails with `e`, or a message arrives. A datagram too short for a header
changes nothing that an empty socket would not, and is not an event. -/
inductive Event where
  | go
  | fails (e : Int)
  | arrives (m : Msg)

def Event.apply (n r : Nat) (k : Rank) : Event → Rank
  | .go => ((rendezvous n r k).map Prod.fst).getD k
  | .fails e => if e < 0 then ((rendezvous_err n k e).map Prod.fst).getD k else k
  | .arrives m => { k with sock := k.sock ++ [m] }

/-- How far the handshake is after the given events. -/
def handshake (n r : Nat) (events : List Event) : Stage :=
  (events.foldl (Event.apply n r) ({ stage := .bound } : Rank)).stage

/-- What the system calls of one `MPI_Init` do. -/
structure Kernel where
  socket : Int
  bind : Int
  events : List Event

/-- How a call of `MPI_Init` ends: with a code, the library's state and the
caller's two variables; not yet; or without a defined result. -/
inductive Init where
  | returned (rc : Int) (g : Statics) (argc : Option Int) (argv : Option Argv)
  | waiting
  | fault

/-- A pointer argument is `none` when it is null. -/
def MPI_Init (g : Statics) (argc : Option Int) (argv : Option Argv) (w : Kernel) : Init :=
  if g.mpi_ready then .returned MPI_ERR_OTHER g argc argv
  else
    match argc, argv with
    | some n, some v =>
      match parse_rank_args n v with
      | none => .fault
      | some (.error rc) => .returned rc g argc argv
      | some (.ok (r, size)) =>
        let g := { g with mpi_rank := r, mpi_size := size, mpi_sock := w.socket }
        if w.socket < 0 then .returned MPI_ERR_INTERN g argc argv
        else
          let g := { g with socks := w.socket :: g.socks }
          if w.bind ≠ 0 then .returned MPI_ERR_INTERN g.close argc argv
          else
            match v.shift n with
            | none => .fault
            | some v' =>
              let g := { g with mpi_ready := true }
              match handshake size.toNat r.toNat w.events with
              | .ready => .returned MPI_SUCCESS g (some (n - 2)) (some v')
              | .failed => .returned MPI_ERR_INTERN { g.close with mpi_ready := false } (some (n - 2)) (some v')
              | _ => .waiting
    | _, _ => .returned MPI_ERR_OTHER g argc argv

def MPI_Finalize (g : Statics) : Int × Statics :=
  if !g.mpi_ready then (MPI_ERR_OTHER, g) else (MPI_SUCCESS, { g.close with mpi_ready := false })

/-! ## What they change -/

/-- `MPI_Init` fails before it touches what the caller owns: it is called
twice, with a null pointer or with arguments that do not parse, or `socket` or
`bind` fails. -/
def FailsEarly (g : Statics) (argc : Option Int) (argv : Option Argv) (w : Kernel) : Prop :=
  g.mpi_ready = true ∨ argc = none ∨ argv = none ∨
    (∃ n v rc, argc = some n ∧ argv = some v ∧ parse_rank_args n v = some (.error rc)) ∨ w.socket < 0 ∨ w.bind ≠ 0

theorem parse_rank_args_error {argc : Int} {argv : Argv} {rc : Int}
    (h : parse_rank_args argc argv = some (.error rc)) : rc = MPI_ERR_OTHER := by
  unfold parse_rank_args at h
  repeat' split at h
  all_goals cases h
  all_goals rfl

/-- Everything a call of `MPI_Init` can do. An early failure leaves the
caller's variables and the sockets, and no socket in `mpi_sock` if there was
none; otherwise two arguments are gone, and the handshake decides. -/
theorem MPI_Init_cases {g g' : Statics} {argc argc' : Option Int} {argv argv' : Option Argv} {w : Kernel} {rc : Int}
    (h : MPI_Init g argc argv w = .returned rc g' argc' argv') :
    g'.pool = g.pool ∧
    ((FailsEarly g argc argv w ∧ rc ≠ MPI_SUCCESS ∧ argc' = argc ∧ argv' = argv ∧ g'.mpi_ready = g.mpi_ready ∧
        g'.socks = g.socks ∧ (g'.mpi_sock = g.mpi_sock ∨ (g.mpi_ready = false ∧ g'.mpi_sock < 0))) ∨
      (¬ FailsEarly g argc argv w ∧ g.mpi_ready = false ∧
        (∃ n v v', argc = some n ∧ argc' = some (n - 2) ∧ argv = some v ∧ v.shift n = some v' ∧ argv' = some v') ∧
        ((rc = MPI_SUCCESS ∧ g'.mpi_ready = true) ∨
          (rc ≠ MPI_SUCCESS ∧ g'.mpi_ready = false ∧ g'.mpi_sock < 0)))) := by
  unfold MPI_Init at h
  by_cases hr : g.mpi_ready = true
  · rw [if_pos hr] at h
    cases h
    exact ⟨rfl, .inl ⟨.inl hr, by decide, rfl, rfl, rfl, rfl, .inl rfl⟩⟩
  rw [if_neg hr] at h
  have hr' : g.mpi_ready = false := by simpa using hr
  cases argc with
  | none =>
    cases h
    exact ⟨rfl, .inl ⟨.inr (.inl rfl), by decide, rfl, rfl, rfl, rfl, .inl rfl⟩⟩
  | some n =>
    cases argv with
    | none =>
      cases h
      exact ⟨rfl, .inl ⟨.inr (.inr (.inl rfl)), by decide, rfl, rfl, rfl, rfl, .inl rfl⟩⟩
    | some v =>
      simp only at h
      split at h
      · cases h
      · rename_i e hp
        cases h
        have hrc := parse_rank_args_error hp
        exact ⟨rfl, .inl ⟨.inr (.inr (.inr (.inl ⟨n, v, _, rfl, rfl, hp⟩))), by rw [hrc]; decide,
          rfl, rfl, rfl, rfl, .inl rfl⟩⟩
      · rename_i r size hp
        by_cases hs : w.socket < 0
        · rw [if_pos hs] at h
          cases h
          exact ⟨rfl, .inl ⟨.inr (.inr (.inr (.inr (.inl hs)))), by decide, rfl, rfl, rfl, rfl, .inr ⟨hr', hs⟩⟩⟩
        rw [if_neg hs] at h
        by_cases hb : w.bind ≠ 0
        · rw [if_pos hb] at h
          cases h
          refine ⟨rfl, .inl ⟨.inr (.inr (.inr (.inr (.inr hb)))), by decide, rfl, rfl, rfl, ?_, .inr ⟨hr', ?_⟩⟩⟩
          · simp [Statics.close]
          · exact (by decide : (-1 : Int) < 0)
        rw [if_neg hb] at h
        -- all four stages that leave `argc` alone are past
        have hlate : ¬ FailsEarly g (some n) (some v) w := by
          simp [FailsEarly, hr', hp, hs, not_not.1 hb]
        split at h
        · cases h
        · rename_i v' hs
          split at h
          · cases h
            exact ⟨rfl, .inr ⟨hlate, hr', ⟨n, v, v', rfl, rfl, rfl, hs, rfl⟩, .inl ⟨rfl, rfl⟩⟩⟩
          · cases h
            exact ⟨rfl, .inr ⟨hlate, hr', ⟨n, v, v', rfl, rfl, rfl, hs, rfl⟩,
              .inr ⟨by decide, rfl, (by decide : (-1 : Int) < 0)⟩⟩⟩
          · cases h

end LibNeoos.Mpi
