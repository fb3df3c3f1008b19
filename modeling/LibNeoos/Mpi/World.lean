import LibNeoos.Lib.Runs
import LibNeoos.Mpi.Api
import LibNeoos.Mpi.Match
/-!
# A run of all ranks

Every rank is a process that calls `MPI_Init` once and then makes its calls one
after the other, none of which is `MPI_Finalize`. A step of a rank is one system
call and the computation up to the next, a step of the network hands one datagram
in flight to its receiver's socket; the steps of different ranks and of the network
come in any order. A datagram to a port nobody has bound is dropped.

Some fields record what happened, and no step depends on them: of a rank `didBind`
(its `bind` has succeeded), `ticks` (the number of `coll_seq++` so far), `done` (the
sends and receives since the last one) and `got` (the messages receives have taken);
of a message `origin` (the call that sent it); of the system `sent` (the messages
calls have sent).
-/

namespace LibNeoos.Mpi

open LibNeoos.Lib

/-! ## The calls of a program -/

/-- A call the application makes, with the contents of its buffers. -/
inductive Op where
  | send (buf : List UInt8) (count type dest tag comm : Int)
  | recv (buf : List UInt8) (count type source tag comm : Int)
  | barrier (comm : Int)
  | bcast (buf : List UInt8) (count type root comm : Int)
  | reduce (sendbuf recvbuf : List UInt8) (count type op root comm : Int)
  | allreduce (sendbuf recvbuf : List UInt8) (count type op comm : Int)
  deriving DecidableEq

/-- A collective call without its buffers: what all ranks have to agree on. -/
inductive Call where
  | barrier (comm : Int)
  | bcast (count type root comm : Int)
  | reduce (count type op root comm : Int)
  | allreduce (count type op comm : Int)
  deriving DecidableEq

/-- The collective a call takes part in, if it is one. -/
def Op.call : Op → Option Call
  | .send .. => none
  | .recv .. => none
  | .barrier comm => some (.barrier comm)
  | .bcast _ count type root comm => some (.bcast count type root comm)
  | .reduce _ _ count type op root comm => some (.reduce count type op root comm)
  | .allreduce _ _ count type op comm => some (.allreduce count type op comm)

def Op.code (e : Env) : Op → Prog Ret
  | .send buf count type dest tag comm => (MPI_Send e buf count type dest tag comm).bind fun rc => .ret ⟨rc, buf, none⟩
  | .recv buf count type source tag comm => MPI_Recv e buf count type source tag comm
  | .barrier comm => (MPI_Barrier e comm).bind fun rc => .ret ⟨rc, [], none⟩
  | .bcast buf count type root comm => (MPI_Bcast e buf count type root comm).bind fun r => .ret ⟨r.1, r.2, none⟩
  | .reduce sendbuf recvbuf count type op root comm =>
    (MPI_Reduce e sendbuf recvbuf count type op root comm).bind fun r => .ret ⟨r.1, r.2, none⟩
  | .allreduce sendbuf recvbuf count type op comm =>
    (MPI_Allreduce e sendbuf recvbuf count type op comm).bind fun r => .ret ⟨r.1, r.2, none⟩

/-- `mpi_size` and what each rank calls after `MPI_Init`. The bounds are those
`parse_rank_args` checks. -/
structure World where
  n : Nat
  prog : Nat → List Op
  pos : 0 < n
  le : n ≤ MPI_MAX_RANKS

/-! ## Messages -/

/-- Who sent a message, and in which call: `coll s i q` is sent by rank `s` in
its call number `i`, after `q` increments of `coll_seq`. -/
inductive Origin where
  | hello (s : Nat)
  | go
  | user (s i : Nat)
  | coll (s i q : Nat)
  deriving DecidableEq

/-- Sent by a call, not by the handshake. -/
def Origin.app : Origin → Bool
  | .user .. => true
  | .coll .. => true
  | _ => false

structure Msg where
  frame : Datagram
  origin : Origin
  deriving DecidableEq

instance : Framed Msg := ⟨fun m => m.frame.hdr⟩

structure Packet where
  dst : Nat
  msg : Msg
  deriving DecidableEq

/-! ## Ranks -/

/-- How far a rank is in `MPI_Init`. `collect` is rank 0's loop over the
`HELLO`s with `seen` and `remaining`, `go r` its loop that sends `GO` to `r`
and those after; `hello` and `poll` are the two halves of the other ranks'
loop; `restore` is the last `fcntl`. -/
inductive Stage where
  | unbound
  | bound
  | collect (seen : List Nat) (remaining : Nat)
  | go (r : Nat)
  | hello (since_hello : Nat)
  | poll (since_hello : Nat)
  | restore
  | ready
  | failed
  deriving DecidableEq

/-- Between calls, inside one, or in the loop of `recv_match` inside one. -/
inductive Ctl where
  | idle
  | run (p : Prog Ret)
  | recvLoop (source tag : Int) (k : Except Int Datagram → Prog Ret)

/-- A message a receive took: in which call, and after how many `coll_seq++`. -/
structure Got where
  call : Nat
  during : Nat
  msg : Msg
  deriving DecidableEq

structure Rank where
  stage : Stage := .unbound
  didBind : Bool := false
  sock : List Msg := []
  pool : Pool Msg := Pool.empty
  coll_seq : Nat := 0
  ctl : Ctl := .idle
  rets : List Ret := []
  ticks : Nat := 0
  done : Nat := 0
  got : List Got := []

/-- What is left to do of the call a rank is in. -/
def Rank.prog? (k : Rank) : Option (Prog Ret) :=
  match k.ctl with
  | .idle => none
  | .run p => some p
  | .recvLoop source tag f => some (.recv_match source tag f)

/-- The rank is in the loop of `recv_match`. -/
def Rank.waiting (k : Rank) : Bool :=
  match k.ctl with
  | .recvLoop .. => true
  | _ => false

/-- The socket is bound. -/
def Rank.open? (k : Rank) : Bool := k.stage ≠ .unbound ∧ k.stage ≠ .failed

/-- Call number `i` of rank `r` is a collective. -/
def World.isColl (w : World) (r i : Nat) : Bool := ((w.prog r)[i]?.bind Op.call).isSome

def World.env (w : World) (r : Nat) : Env := ⟨r, w.n, true⟩

/-! ## `MPI_Init` -/

/-- The frame `send_raw` builds for a token of the handshake. -/
def token (rank : Nat) (tag : Int) : Datagram := ⟨⟨rank, tag, 1, MPI_BYTE⟩, [0], by simp⟩

theorem send_raw_token (e : Env) (dest : Nat) (tag : Int) :
    send_raw e dest tag MPI_BYTE 1 [0] 1 = .sendto dest (token e.rank tag) fun n =>
      if n < 0 then .ret MPI_ERR_INTERN else .ret MPI_SUCCESS := by
  simp [send_raw, token]

/-- One step of `MPI_Init` after `bind`. A loop that finds nothing to read
yields and goes round. -/
def rendezvous (n r : Nat) (k : Rank) : Option (Rank × List Packet) :=
  match k.stage with
  | .bound =>
    if n = 1 then some ({ k with stage := .ready }, [])
    else if r = 0 then some ({ k with stage := .collect [0] (n - 1) }, [])
    else some ({ k with stage := .hello 0 }, [])
  | .collect seen remaining =>
    if remaining = 0 then some ({ k with stage := .go 1 }, [])
    else
      match k.sock with
      | [] => some (k, [])
      | m :: sock =>
        if m.frame.hdr.tag = TAG_HELLO ∧ 0 ≤ m.frame.hdr.src ∧ m.frame.hdr.src < n ∧ m.frame.hdr.src.toNat ∉ seen then
          some ({ k with stage := .collect (m.frame.hdr.src.toNat :: seen) (remaining - 1), sock := sock }, [])
        else some ({ k with sock := sock }, [])
  | .go i =>
    if i < n then some ({ k with stage := .go (i + 1) }, [⟨i, token r TAG_GO, .go⟩])
    else some ({ k with stage := .restore }, [])
  | .hello since_hello =>
    some ({ k with stage := .poll ((since_hello + 1) % 64) },
      if since_hello = 0 then [⟨0, token r TAG_HELLO, .hello r⟩] else [])
  | .poll since_hello =>
    match k.sock with
    | [] => some ({ k with stage := .hello since_hello }, [])
    | m :: sock =>
      if m.frame.hdr.tag = TAG_GO then some ({ k with stage := .restore, sock := sock }, [])
      else some ({ k with stage := .hello since_hello, sock := sock }, [])
  | .restore => some ({ k with stage := .ready }, [])
  | _ => none

/-- A system call of `MPI_Init` fails with `e`. What `send_raw` returns is not
looked at there, and `try_recv` takes two errors for an empty socket. -/
def rendezvous_err (n : Nat) (k : Rank) (e : Int) : Option (Rank × List Packet) :=
  match k.stage with
  | .go i => if i < n then some ({ k with stage := .go (i + 1) }, []) else some ({ k with stage := .failed }, [])
  | .hello since_hello =>
    if since_hello = 0 then some ({ k with stage := .poll 1 }, []) else none
  | .collect _ remaining =>
    if remaining = 0 then none
    else if e = -EAGAIN ∨ e = -EINTR then some (k, [])
    else some ({ k with stage := .failed }, [])
  | .poll since_hello =>
    if e = -EAGAIN ∨ e = -EINTR then some ({ k with stage := .hello since_hello }, [])
    else some ({ k with stage := .failed }, [])
  | .unbound => some ({ k with stage := .failed }, [])
  | .bound => if n = 1 then none else some ({ k with stage := .failed }, [])
  | .restore => some ({ k with stage := .failed }, [])
  | _ => none

/-! ## Calls -/

/-- A receive of the current call ends with the message `m`. -/
def Rank.take (w : World) (r : Nat) (k : Rank) (m : Msg) (p : Prog Ret) : Rank :=
  { k with
    ctl := .run p
    done := if w.isColl r k.rets.length then k.done + 1 else k.done
    got := k.got ++ [⟨k.rets.length, k.ticks, m⟩] }

/-- Where a message of the current call comes from. -/
def Rank.origin (w : World) (r : Nat) (k : Rank) : Origin :=
  if w.isColl r k.rets.length then .coll r k.rets.length k.ticks else .user r k.rets.length

/-- The next step of the current call, when no system call fails. -/
def Rank.exec (w : World) (r : Nat) (k : Rank) : Option (Rank × List Packet) :=
  match k.ctl with
  | .run (.ret a) => some ({ k with ctl := .idle, rets := k.rets ++ [a] }, [])
  | .run (.coll_seq f) =>
    let seq := (k.coll_seq + 1) % 2 ^ 32
    some ({ k with coll_seq := seq, ctl := .run (f seq), ticks := k.ticks + 1, done := 0 }, [])
  | .run (.sendto dest m f) =>
    some ({ k with
      ctl := .run (f (16 + m.data.length))
      done := if w.isColl r k.rets.length then k.done + 1 else k.done }, [⟨dest, m, k.origin w r⟩])
  | .run (.recv_match source tag f) =>
    match k.pool.take (accepts source tag) with
    | (some m, pool) => some ({ k with pool := pool }.take w r m (f (.ok m.frame)), [])
    | (none, pool) => some ({ k with pool := pool, ctl := .recvLoop source tag f }, [])
  | _ => none

/-- One `recvfrom` in the loop of `recv_match`, with what it returns. -/
def Rank.recvfrom (w : World) (r : Nat) (k : Rank) (x : Recvd Msg) : Option (Rank × List Packet) :=
  match k.ctl with
  | .recvLoop source tag f =>
    match recv_match_body source tag k.pool x with
    | .again pool => some ({ k with pool := pool }, [])
    | .done _ (some m) pool => some ({ k with pool := pool }.take w r m (f (.ok m.frame)), [])
    | .done rc none pool => some ({ k with pool := pool, ctl := .run (f (.error rc)) }, [])
  | _ => none

/-- What a rank does next. `err e` is a system call that fails with `e`. -/
inductive Do where
  | bind
  | init
  | call
  | exec
  | recv
  | err (e : Int)
  deriving DecidableEq

/-- The step of a rank and the packets it sends. -/
def Rank.step (w : World) (r : Nat) (k : Rank) : Do → Option (Rank × List Packet)
  | .bind => if k.stage = .unbound then some ({ k with stage := .bound, didBind := true }, []) else none
  | .init => rendezvous w.n r k
  | .call =>
    if k.stage = .ready then
      match k.ctl, (w.prog r)[k.rets.length]? with
      | .idle, some op => some ({ k with ctl := .run (op.code (w.env r)) }, [])
      | _, _ => none
    else none
  | .exec => if k.stage = .ready then k.exec w r else none
  | .recv =>
    if k.stage = .ready then
      match k.sock with
      | m :: sock => { k with sock := sock }.recvfrom w r (.frame m)
      | [] => none
    else none
  | .err e =>
    if 0 ≤ e then none
    else if k.stage = .ready then
      match k.ctl with
      | .run (.sendto _ _ f) => some ({ k with ctl := .run (f e) }, [])
      | _ => k.recvfrom w r (.err e)
    else rendezvous_err w.n k e

/-! ## The system -/

structure Sys where
  rank : Nat → Rank := fun _ => {}
  net : List Packet := []
  sent : List Packet := []

/-- Rank `r` does its next step, or the `i`-th packet in flight arrives. -/
inductive Label where
  | rank (r : Nat) (a : Do)
  | deliver (i : Nat)
  deriving DecidableEq

def Sys.deliver (s : Sys) (i : Nat) : Option Sys :=
  match s.net[i]? with
  | none => none
  | some p =>
    let k := s.rank p.dst
    if k.open? then
      some { s with rank := Function.update s.rank p.dst { k with sock := k.sock ++ [p.msg] }, net := s.net.eraseIdx i }
    else some { s with net := s.net.eraseIdx i }

def step (w : World) (s : Sys) : Label → Option Sys
  | .rank r a =>
    if r < w.n then
      ((s.rank r).step w r a).map fun x =>
        { rank := Function.update s.rank r x.1, net := s.net ++ x.2,
          sent := s.sent ++ x.2.filter (·.msg.origin.app) }
    else none
  | .deliver i => s.deliver i

/-- No process has started. -/
def start : Sys := {}

end LibNeoos.Mpi
