import LibNeoos.Mpi.Types
import Mathlib.Data.List.Range
/-!
# The calls of `mpi.c`

A call is a program over the three things it does outside its own locals:
advance `coll_seq`, hand a datagram to `sendto`, and wait in `recv_match`
(`Prog`). What happens in between is plain computation. Buffers are byte
lists; a copy that leaves its source or its destination has no defined
behaviour and is `fault`.

The calls that copy out of the caller's send buffer are written with these
copies as operations of their own, which show their lengths (`Io`, in the
namespace `Copies`). Without them they are programs like the others
(`Io.forget`).
-/

namespace LibNeoos.Mpi

open LibNeoos.Lib (int32)

/-- A call in progress. `coll_seq` advances the sequence number and continues
with its new value, `sendto` continues with the number it returns, `recv_match`
with its error code or the message it copied to `*out`. -/
inductive Prog (α : Type) where
  | ret (a : α)
  | fault
  | coll_seq (k : Nat → Prog α)
  | sendto (dest : Nat) (frame : Datagram) (k : Int → Prog α)
  | recv_match (source tag : Int) (k : Except Int Datagram → Prog α)

namespace Prog
variable {α β : Type}

def bind : Prog α → (α → Prog β) → Prog β
  | .ret a, f => f a
  | .fault, _ => .fault
  | .coll_seq k, f => .coll_seq fun n => (k n).bind f
  | .sendto d m k, f => .sendto d m fun n => (k n).bind f
  | .recv_match s t k, f => .recv_match s t fun x => (k x).bind f

@[simp] theorem bind_ret (a : α) (f : α → Prog β) : (ret a).bind f = f a := rfl

theorem bind_pure (p : Prog α) : p.bind ret = p := by
  induction p with
  | ret => rfl
  | fault => rfl
  | coll_seq k ih => simp only [bind, ih]
  | sendto d m k ih => simp only [bind, ih]
  | recv_match s t k ih => simp only [bind, ih]

/-- `for (...) { rc = body; if (rc != MPI_SUCCESS) { return rc; } }`, with the
state `b` the body changes. -/
def forOk (body : Nat → β → Prog (Int × β)) : List Nat → β → Prog (Int × β)
  | [], b => .ret (MPI_SUCCESS, b)
  | i :: is, b => (body i b).bind fun r => if r.1 ≠ MPI_SUCCESS then .ret r else forOk body is r.2

end Prog

/-- A call in progress, as in `Prog`, where `copy` is a `memcpy` of `n` bytes from the
caller's send buffer. -/
inductive Io (α : Type) where
  | ret (a : α)
  | fault
  | coll_seq (k : Nat → Io α)
  | copy (n : Nat) (p : Io α)
  | sendto (dest : Nat) (frame : Datagram) (k : Int → Io α)
  | recv_match (source tag : Int) (k : Except Int Datagram → Io α)

namespace Io
variable {α β : Type}

def bind : Io α → (α → Io β) → Io β
  | .ret a, f => f a
  | .fault, _ => .fault
  | .coll_seq k, f => .coll_seq fun n => (k n).bind f
  | .copy n p, f => .copy n (p.bind f)
  | .sendto d m k, f => .sendto d m fun n => (k n).bind f
  | .recv_match s t k, f => .recv_match s t fun x => (k x).bind f

/-- The loop of `Prog.forOk`. -/
def forOk (body : Nat → β → Io (Int × β)) : List Nat → β → Io (Int × β)
  | [], b => .ret (MPI_SUCCESS, b)
  | i :: is, b => (body i b).bind fun r => if r.1 ≠ MPI_SUCCESS then .ret r else forOk body is r.2

/-- A program that copies nothing. -/
def lift : Prog α → Io α
  | .ret a => .ret a
  | .fault => .fault
  | .coll_seq k => .coll_seq fun n => lift (k n)
  | .sendto d m k => .sendto d m fun n => lift (k n)
  | .recv_match s t k => .recv_match s t fun x => lift (k x)

/-- The program without the copies. -/
def forget : Io α → Prog α
  | .ret a => .ret a
  | .fault => .fault
  | .coll_seq k => .coll_seq fun n => (k n).forget
  | .copy _ p => p.forget
  | .sendto d m k => .sendto d m fun n => (k n).forget
  | .recv_match s t k => .recv_match s t fun x => (k x).forget

@[simp] theorem forget_ret (a : α) : (ret a).forget = .ret a := rfl

@[simp] theorem forget_coll_seq (k : Nat → Io α) : (coll_seq k).forget = .coll_seq fun n => (k n).forget := rfl

@[simp] theorem forget_copy (n : Nat) (p : Io α) : (copy n p).forget = p.forget := rfl

@[simp] theorem forget_lift (p : Prog α) : (lift p).forget = p := by
  induction p with
  | ret => rfl
  | fault => rfl
  | coll_seq k ih => simp only [lift, forget, ih]
  | sendto d m k ih => simp only [lift, forget, ih]
  | recv_match s t k ih => simp only [lift, forget, ih]

@[simp] theorem forget_bind (p : Io α) (f : α → Io β) : (p.bind f).forget = p.forget.bind fun a => (f a).forget := by
  induction p with
  | ret => rfl
  | fault => rfl
  | coll_seq k ih => simp only [bind, forget, Prog.bind, ih]
  | copy n p ih => simp only [bind, forget, ih]
  | sendto d m k ih => simp only [bind, forget, Prog.bind, ih]
  | recv_match s t k ih => simp only [bind, forget, Prog.bind, ih]

@[simp] theorem forget_ite {c : Prop} [Decidable c] (p q : Io α) :
    (if c then p else q).forget = if c then p.forget else q.forget := apply_ite ..

@[simp] theorem forget_forOk (body : Nat → β → Io (Int × β)) (is : List Nat) :
    ∀ b, (forOk body is b).forget = Prog.forOk (fun i b => (body i b).forget) is b := by
  induction is with
  | nil =>
    intro b
    rfl
  | cons i is ih =>
    intro b
    simp only [forOk, Prog.forOk, forget_bind, forget_ite, forget_ret, ih]

end Io

/-- `mpi_rank`, `mpi_size` and `mpi_ready`. -/
structure Env where
  rank : Nat
  size : Nat
  ready : Bool

/-- `MPI_Status`. -/
structure Status where
  MPI_SOURCE : Int
  MPI_TAG : Int
  MPI_ERROR : Int
  count : Int
  deriving DecidableEq, Repr

/-- What a call hands back: its code, the receive buffer and the status it wrote. -/
structure Ret where
  rc : Int
  buf : List UInt8
  status : Option Status := none
  deriving DecidableEq, Repr

/-- `memcpy(dst, src, n)`. -/
def memcpy (dst src : List UInt8) (n : Int) : Option (List UInt8) :=
  if 0 ≤ n ∧ n ≤ src.length ∧ n ≤ dst.length then some (src.take n.toNat ++ dst.drop n.toNat) else none

/-! ## Point to point -/

def send_raw (e : Env) (dest tag type count : Int) (buf : List UInt8) (bytes : Int) : Prog Int :=
  if h : 0 ≤ bytes ∧ bytes ≤ buf.length ∧ bytes ≤ MPI_MAX_MESSAGE then
    .sendto dest.toNat ⟨⟨e.rank, tag, count, type⟩, buf.take bytes.toNat, by simp at h ⊢; omega⟩ fun n =>
      if n < 0 then .ret MPI_ERR_INTERN else .ret MPI_SUCCESS
  else .fault

/-- An `int` as a `uint64_t`. -/
def uint64 (x : Int) : Nat := (x % 2 ^ 64).toNat

namespace Copies

def send_raw (e : Env) (dest tag type count : Int) (buf : List UInt8) (bytes : Int) : Io Int :=
  if bytes ≠ 0 then .copy (uint64 bytes) (.lift (Mpi.send_raw e dest tag type count buf bytes))
  else .lift (Mpi.send_raw e dest tag type count buf bytes)

def MPI_Send (e : Env) (buf : List UInt8) (count type dest tag comm : Int) : Io Int :=
  if comm ≠ MPI_COMM_WORLD then .ret MPI_ERR_COMM
  else if !e.ready then .ret MPI_ERR_OTHER
  else if dest < 0 ∨ dest ≥ e.size then .ret MPI_ERR_RANK
  else if count < 0 then .ret MPI_ERR_COUNT
  else if tag < 0 ∨ (tag > MPI_TAG_UB ∧ tag.toNat &&& 0x40000000 = 0) then .ret MPI_ERR_TAG
  else
    let esz := type_size type
    if esz < 0 then .ret MPI_ERR_TYPE
    else
      let bytes := int32 (count * esz)
      if bytes > MPI_MAX_MESSAGE then .ret MPI_ERR_COUNT
      else send_raw e dest tag type count buf bytes

theorem forget_send_raw (e : Env) (dest tag type count : Int) (buf : List UInt8) (bytes : Int) :
    (send_raw e dest tag type count buf bytes).forget = Mpi.send_raw e dest tag type count buf bytes := by
  simp only [send_raw, Io.forget_ite, Io.forget_copy, Io.forget_lift, ite_self]

end Copies

def MPI_Send (e : Env) (buf : List UInt8) (count type dest tag comm : Int) : Prog Int :=
  (Copies.MPI_Send e buf count type dest tag comm).forget

theorem Copies.forget_MPI_Send (e : Env) (buf : List UInt8) (count type dest tag comm : Int) :
    (MPI_Send e buf count type dest tag comm).forget = Mpi.MPI_Send e buf count type dest tag comm := rfl

def MPI_Recv (e : Env) (buf : List UInt8) (count type source tag comm : Int) : Prog Ret :=
  if comm ≠ MPI_COMM_WORLD then .ret ⟨MPI_ERR_COMM, buf, none⟩
  else if !e.ready then .ret ⟨MPI_ERR_OTHER, buf, none⟩
  else if source ≠ MPI_ANY_SOURCE ∧ (source < 0 ∨ source ≥ e.size) then .ret ⟨MPI_ERR_RANK, buf, none⟩
  else if count < 0 then .ret ⟨MPI_ERR_COUNT, buf, none⟩
  else
    let esz := type_size type
    if esz < 0 then .ret ⟨MPI_ERR_TYPE, buf, none⟩
    else .recv_match source tag fun
      | .error rc => .ret ⟨rc, buf, none⟩
      | .ok got =>
        let status (err : Int) : Status := ⟨got.hdr.src, got.hdr.tag, err, got.data.length⟩
        if got.data.length > int32 (count * esz) then
          .ret ⟨MPI_ERR_TRUNCATE, buf, some (status MPI_ERR_TRUNCATE)⟩
        else
          match memcpy buf got.data got.data.length with
          | some buf' => .ret ⟨MPI_SUCCESS, buf', some (status MPI_SUCCESS)⟩
          | none => .fault

/-! ## Reductions -/

/-- An arithmetic element type: its size in memory, and how it is read,
written, added, multiplied and compared. -/
structure Arith (T : Type) where
  size : Nat
  load : List UInt8 → T
  store : T → List UInt8
  add : T → T → T
  mul : T → T → T
  lt : T → T → Bool

/-- Little-endian bytes as a number. -/
def leNat : List UInt8 → Nat
  | [] => 0
  | b :: bs => b.toNat + 256 * leNat bs

/-- The `w` low bytes of a number, little-endian. -/
def leBytes : Nat → Nat → List UInt8
  | 0, _ => []
  | w + 1, n => UInt8.ofNat n :: leBytes w (n / 256)

/-- Two's complement integers of `w` bytes; arithmetic wraps. -/
def intArith (w : Nat) : Arith (BitVec (8 * w)) where
  size := w
  load b := BitVec.ofNat _ (leNat b)
  store v := leBytes w v.toNat
  add := (· + ·)
  mul := (· * ·)
  lt := BitVec.slt

/-- A `double` is its 64 bits, so that one that is only compared keeps them. -/
def doubleArith : Arith UInt64 where
  size := 8
  load b := UInt64.ofNat (leNat b)
  store v := leBytes 8 v.toNat
  add a b := (Float.ofBits a + Float.ofBits b).toBits
  mul a b := (Float.ofBits a * Float.ofBits b).toBits
  lt a b := decide (Float.ofBits a < Float.ofBits b)

/-- What `op` stores in `d[i]` for `d[i] = d` and `s[i] = s`. -/
def Arith.apply {T : Type} (A : Arith T) (op : Int) : Option (T → T → T) :=
  if op = MPI_SUM then some A.add
  else if op = MPI_PROD then some A.mul
  else if op = MPI_MAX then some fun d s => if A.lt d s then s else d
  else if op = MPI_MIN then some fun d s => if A.lt s d then s else d
  else none

/-- The loop of `reduce_apply` for one element type, from the element at the
front of `dst` and `src` on. `none` is an access outside the buffers. -/
def reduce_loop {T : Type} (A : Arith T) (op : Int) : Nat → List UInt8 → List UInt8 → Option (Int × List UInt8)
  | 0, dst, _ => some (MPI_SUCCESS, dst)
  | n + 1, dst, src =>
    match A.apply op with
    | none => some (MPI_ERR_OP, dst)
    | some f =>
      if A.size ≤ dst.length ∧ A.size ≤ src.length then
        let d := f (A.load (dst.take A.size)) (A.load (src.take A.size))
        (reduce_loop A op n (dst.drop A.size) (src.drop A.size)).map fun r => (r.1, A.store d ++ r.2)
      else none

def reduce_apply (dst src : List UInt8) (count type op : Int) : Option (Int × List UInt8) :=
  if type = MPI_INT then reduce_loop (intArith 4) op count.toNat dst src
  else if type = MPI_LONG then reduce_loop (intArith 8) op count.toNat dst src
  else if type = MPI_DOUBLE then reduce_loop doubleArith op count.toNat dst src
  else some (MPI_ERR_TYPE, dst)

/-! ## Collectives -/

def MPI_Barrier (e : Env) (comm : Int) : Prog Int :=
  if comm ≠ MPI_COMM_WORLD then .ret MPI_ERR_COMM
  else if !e.ready then .ret MPI_ERR_OTHER
  else if e.size = 1 then .ret MPI_SUCCESS
  else .coll_seq fun seq =>
    let tag_in := coll_tag COLL_BARRIER_IN seq
    let tag_out := coll_tag COLL_BARRIER_OUT seq
    let token : List UInt8 := [0]
    if e.rank = 0 then
      (Prog.forOk (fun _ token => (MPI_Recv e token 1 MPI_BYTE MPI_ANY_SOURCE tag_in comm).bind fun r =>
          .ret (r.rc, r.buf)) (List.range' 1 (e.size - 1)) token).bind fun r =>
        if r.1 ≠ MPI_SUCCESS then .ret r.1
        else (Prog.forOk (fun i token => (MPI_Send e token 1 MPI_BYTE i tag_out comm).bind fun rc =>
            .ret (rc, token)) (List.range' 1 (e.size - 1)) r.2).bind fun r => .ret r.1
    else
      (MPI_Send e token 1 MPI_BYTE 0 tag_in comm).bind fun rc =>
        if rc ≠ MPI_SUCCESS then .ret rc
        else (MPI_Recv e token 1 MPI_BYTE 0 tag_out comm).bind fun r =>
          if r.rc ≠ MPI_SUCCESS then .ret r.rc else .ret MPI_SUCCESS

namespace Copies

def MPI_Bcast (e : Env) (buf : List UInt8) (count type root comm : Int) : Io (Int × List UInt8) :=
  if comm ≠ MPI_COMM_WORLD then .ret (MPI_ERR_COMM, buf)
  else if !e.ready then .ret (MPI_ERR_OTHER, buf)
  else if root < 0 ∨ root ≥ e.size then .ret (MPI_ERR_RANK, buf)
  else .coll_seq fun seq =>
    let tag := coll_tag COLL_BCAST seq
    if e.size = 1 then .ret (MPI_SUCCESS, buf)
    else if e.rank = root then
      .forOk (fun i buf => (MPI_Send e buf count type i tag comm).bind fun rc => .ret (rc, buf))
        ((List.range e.size).filter fun i => (i : Int) ≠ root) buf
    else .lift ((MPI_Recv e buf count type root tag comm).bind fun r => .ret (r.rc, r.buf))

def MPI_Reduce (e : Env) (sendbuf recvbuf : List UInt8) (count type op root comm : Int) : Io (Int × List UInt8) :=
  if comm ≠ MPI_COMM_WORLD then .ret (MPI_ERR_COMM, recvbuf)
  else if !e.ready then .ret (MPI_ERR_OTHER, recvbuf)
  else if root < 0 ∨ root ≥ e.size then .ret (MPI_ERR_RANK, recvbuf)
  else if op < MPI_SUM ∨ op > MPI_MIN then .ret (MPI_ERR_OP, recvbuf)
  else
    let esz := type_size type
    if esz < 0 then .ret (MPI_ERR_TYPE, recvbuf)
    else if int32 (count * esz) > MPI_MAX_MESSAGE then .ret (MPI_ERR_COUNT, recvbuf)
    else .coll_seq fun seq =>
      let tag := coll_tag COLL_REDUCE seq
      if (e.rank : Int) ≠ root then
        (MPI_Send e sendbuf count type root tag comm).bind fun rc => .ret (rc, recvbuf)
      else .copy (uint64 (int32 (count * esz))) <| .lift <|
        match memcpy recvbuf sendbuf (int32 (count * esz)) with
        | none => .fault
        | some recvbuf =>
          .forOk (fun _ recvbuf => .recv_match MPI_ANY_SOURCE tag fun
            | .error rc => .ret (rc, recvbuf)
            | .ok got =>
              if got.data.length ≠ int32 (count * esz) then .ret (MPI_ERR_TRUNCATE, recvbuf)
              else
                match reduce_apply recvbuf got.data count type op with
                | none => .fault
                | some r => .ret r) (List.range' 1 (e.size - 1)) recvbuf

end Copies

def MPI_Bcast (e : Env) (buf : List UInt8) (count type root comm : Int) : Prog (Int × List UInt8) :=
  (Copies.MPI_Bcast e buf count type root comm).forget

def MPI_Reduce (e : Env) (sendbuf recvbuf : List UInt8) (count type op root comm : Int) : Prog (Int × List UInt8) :=
  (Copies.MPI_Reduce e sendbuf recvbuf count type op root comm).forget

def MPI_Allreduce (e : Env) (sendbuf recvbuf : List UInt8) (count type op comm : Int) : Prog (Int × List UInt8) :=
  (MPI_Reduce e sendbuf recvbuf count type op 0 comm).bind fun r =>
    if r.1 ≠ MPI_SUCCESS then .ret r else MPI_Bcast e r.2 count type 0 comm

end LibNeoos.Mpi
