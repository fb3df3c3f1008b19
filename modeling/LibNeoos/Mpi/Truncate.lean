import LibNeoos.Mpi.Api
import LibNeoos.Mpi.Match
/-!
# When `MPI_Recv` truncates

A call on one process, from its start to its return (`Prog.eval`): the queue and what
`recvfrom` returns are given, and so is what `sendto` returns.

`MPI_Recv` should refuse a message exactly if it is longer than the buffer. It compares
the length with a product of two `int`s, which wraps for large counts
(`recv_truncates_exactly`, `recv_refuses_fitting`).
-/

namespace LibNeoos.Mpi

open LibNeoos.Lib (int32)

/-- How a call on a process ends: with a result, the sequence number, the queue and the
arrivals that it has not read; waiting; or with an access outside a buffer. -/
inductive Served (α : Type) where
  | returned (a : α) (coll_seq : Nat) (pool : Pool Datagram) (rest : List (Recvd Datagram))
  | waiting (pool : Pool Datagram)
  | fault

/-- What the caller of `recv_match` sees. -/
def recvResult (rc : Int) : Option Datagram → Except Int Datagram
  | some m => .ok m
  | none => .error rc

def Prog.eval {α : Type} (sendto : Nat → Datagram → Int) : Prog α → Nat → Pool Datagram → List (Recvd Datagram) →
    Served α
  | .ret a, seq, pool, xs => .returned a seq pool xs
  | .fault, _, _, _ => .fault
  | .coll_seq k, seq, pool, xs => (k ((seq + 1) % 2 ^ 32)).eval sendto ((seq + 1) % 2 ^ 32) pool xs
  | .sendto dest m k, seq, pool, xs => (k (sendto dest m)).eval sendto seq pool xs
  | .recv_match source tag k, seq, pool, xs =>
    match Mpi.recv_match source tag pool xs with
    | .returned rc out pool' rest => (k (recvResult rc out)).eval sendto seq pool' rest
    | .waiting pool' => .waiting pool'

/-- The call of `MPI_Recv` has returned, for the message `m` and room for `N` bytes, what
it should, and has taken `m` and nothing else out of the mailbox. -/
def TruncatesRight (N : Int) (m : Datagram) (buf : List UInt8) (left : List Datagram) : Served Ret → Prop
  | .returned a _ pool rest =>
    (a.rc = MPI_SUCCESS ↔ m.data.length ≤ N) ∧
    (m.data.length ≤ N → a.buf = m.data ++ buf.drop m.data.length) ∧
    (N < m.data.length → a.rc = MPI_ERR_TRUNCATE ∧ a.buf = buf) ∧
    a.status = some ⟨m.hdr.src, m.hdr.tag, a.rc, m.data.length⟩ ∧ mailbox pool rest = left
  | _ => False

section
variable {e : Env} {buf : List UInt8} {count type source tag : Int}

/-- What `MPI_Recv` returns for the message that `recv_match` got. -/
def recvRet (buf : List UInt8) (bytes : Int) (m : Datagram) : Ret :=
  if m.data.length > bytes then ⟨MPI_ERR_TRUNCATE, buf, some ⟨m.hdr.src, m.hdr.tag, MPI_ERR_TRUNCATE, m.data.length⟩⟩
  else ⟨MPI_SUCCESS, m.data ++ buf.drop m.data.length, some ⟨m.hdr.src, m.hdr.tag, MPI_SUCCESS, m.data.length⟩⟩

theorem MPI_Recv_recv_match (buf : List UInt8) (tag : Int) (he : e.ready = true)
    (hs : source = MPI_ANY_SOURCE ∨ (0 ≤ source ∧ source < e.size)) (hc : 0 ≤ count) (hty : 0 ≤ type_size type) :
    ∃ k, MPI_Recv e buf count type source tag MPI_COMM_WORLD = .recv_match source tag k ∧
      ∀ m : Datagram, (m.data.length ≤ int32 (count * type_size type) → m.data.length ≤ buf.length) →
        k (.ok m) = .ret (recvRet buf (int32 (count * type_size type)) m) := by
  have hsrc : ¬ (source ≠ MPI_ANY_SOURCE ∧ (source < 0 ∨ source ≥ e.size)) := by
    rintro ⟨h1, h2⟩
    rcases hs with h | h
    · exact h1 h
    · omega
  unfold MPI_Recv
  rw [if_neg (by simp), if_neg (by simp [he]), if_neg hsrc, if_neg (by omega)]
  dsimp only
  rw [if_neg (by omega)]
  refine ⟨_, rfl, fun m hm => ?_⟩
  dsimp only [recvRet]
  split_ifs with hlen
  · rfl
  · have hbuf := hm (by omega)
    rw [memcpy, if_pos ⟨by omega, by omega, by omega⟩]
    simp

/-- For a length that a message can have, the wrapped product is as good as the exact one. -/
theorem le_int32_iff {N : Int} {b : Nat} (hN : 0 ≤ N) (hb : b ≤ MPI_MAX_MESSAGE) :
    (b ≤ int32 N ↔ b ≤ N) ↔ (b ≤ N → b ≤ N % 2 ^ 32 ∧ N % 2 ^ 32 < 2 ^ 31) := by
  simp only [int32, Int.bmod_def, MPI_MAX_MESSAGE] at *
  split <;> omega

/-- The right answer for a message depends on the comparison only. -/
theorem recvRet_right_iff {N bytes : Int} {m : Datagram} {left : List Datagram} {seq : Nat} {pool : Pool Datagram}
    {rest : List (Recvd Datagram)} :
    TruncatesRight N m buf left (.returned (recvRet buf bytes m) seq pool rest) ↔
      (m.data.length ≤ bytes ↔ m.data.length ≤ N) ∧ mailbox pool rest = left := by
  unfold TruncatesRight recvRet
  split_ifs with hlen
  · have hgt : ¬ (m.data.length : Int) ≤ bytes := by omega
    by_cases hN : (m.data.length : Int) ≤ N
    · simp [hgt, hN]
    · simp [hgt, hN]
  · have hle : (m.data.length : Int) ≤ bytes := by omega
    by_cases hN : (m.data.length : Int) ≤ N
    · simp [hle, hN, not_lt.2 hN]
    · simp [hle, hN]

theorem CutOut.eq_iff {α : Type} {M gone M' : List α} (h : CutOut M gone M') : M' = M ↔ gone = [] := by
  obtain ⟨K, R, rfl, rfl⟩ := h
  constructor
  · intro he
    have := congrArg List.length he
    simp only [List.length_append] at this
    exact List.eq_nil_of_length_eq_zero (by omega)
  · rintro rfl
    simp

/-- For every count that is not negative, datatype and source that `MPI_Recv` accepts,
tag, queue, arrivals without an error and first message `m` in the mailbox that matches,
where the buffer holds `count` elements: the call returns what it should and takes `m`
and nothing else out of the mailbox exactly if the 32-bit remainder of the capacity is,
for a message that fits, neither below its length nor from `2^31` on, and no message that
the call passes over finds all slots taken. -/
theorem recv_truncates_exactly {send : Nat → Datagram → Int} {seq : Nat} {pool : Pool Datagram}
    {arrivals : List (Recvd Datagram)} {m : Datagram} (he : e.ready = true)
    (hs : source = MPI_ANY_SOURCE ∨ (0 ≤ source ∧ source < e.size)) (hc : 0 ≤ count) (hty : 0 ≤ type_size type)
    (hbuf : count * type_size type ≤ buf.length) (hne : NoError arrivals)
    (hm : (mailbox pool arrivals).find? (accepts source tag) = some m) :
    TruncatesRight (count * type_size type) m buf ((mailbox pool arrivals).eraseP (accepts source tag))
        ((MPI_Recv e buf count type source tag MPI_COMM_WORLD).eval send seq pool arrivals) ↔
      (m.data.length ≤ count * type_size type →
        m.data.length ≤ count * type_size type % 2 ^ 32 ∧ count * type_size type % 2 ^ 32 < 2 ^ 31) ∧
      overflow source tag pool arrivals = [] := by
  obtain ⟨k, hk, hret⟩ := MPI_Recv_recv_match buf tag he hs hc hty
  obtain ⟨hspec, hcut⟩ := recv_match_spec source tag pool hne
  simp only [hm] at hspec
  obtain ⟨pool', rest, hr, -⟩ := hspec
  have hN : 0 ≤ count * type_size type := Int.mul_nonneg hc hty
  have hwrap : int32 (count * type_size type) ≤ count * type_size type := by
    simp only [int32, Int.bmod_def]
    split <;> omega
  rw [hr] at hcut
  simp only [hk, Prog.eval, hr, recvResult]
  rw [hret m (fun h => by omega)]
  simp only [Prog.eval]
  rw [recvRet_right_iff, le_int32_iff hN m.fits]
  exact and_congr_right fun _ => hcut.eq_iff

end

/-- A message of two bytes for a buffer of four: it is delivered and the rest of the
buffer is left alone. -/
theorem recv_truncates_exactly_two :
    TruncatesRight 4 ⟨⟨1, 7, 2, 0⟩, [9, 8], by decide⟩ [1, 2, 3, 4] []
      ((MPI_Recv ⟨0, 2, true⟩ [1, 2, 3, 4] 1 MPI_INT 1 7 MPI_COMM_WORLD).eval (fun _ _ => 0) 0 Pool.empty
        [.frame ⟨⟨1, 7, 2, 0⟩, [9, 8], by decide⟩]) := by
  show TruncatesRight (1 * type_size MPI_INT) _ _
    ((mailbox Pool.empty [.frame ⟨⟨1, 7, 2, 0⟩, [9, 8], by decide⟩]).eraseP (accepts 1 7)) _
  exact (recv_truncates_exactly rfl (.inr (by decide)) (by decide) (by decide) (by decide) (by simp [NoError]) rfl).2
    (by decide)

/-- A message of four bytes for a buffer of `2^30` elements of type `MPI_INT`: the product
wraps to 0 and the message is refused. -/
theorem recv_refuses_fitting :
    ∃ a pool rest, (MPI_Recv ⟨0, 2, true⟩ (List.replicate (2 ^ 32) 0) (2 ^ 30) MPI_INT 1 7 MPI_COMM_WORLD).eval
      (fun _ _ => 0) 0
      Pool.empty [.frame ⟨⟨1, 7, 1, 2⟩, [1, 2, 3, 4], by decide⟩] = .returned a 0 pool rest ∧
      a.rc = MPI_ERR_TRUNCATE ∧ a.status = some ⟨1, 7, MPI_ERR_TRUNCATE, 4⟩ := by
  -- the buffer is not looked at
  have h : ∀ buf : List UInt8, ∃ a pool rest,
      (MPI_Recv ⟨0, 2, true⟩ buf (2 ^ 30) MPI_INT 1 7 MPI_COMM_WORLD).eval (fun _ _ => 0) 0 Pool.empty
        [.frame ⟨⟨1, 7, 1, 2⟩, [1, 2, 3, 4], by decide⟩] = .returned a 0 pool rest ∧
      a.rc = MPI_ERR_TRUNCATE ∧ a.status = some ⟨1, 7, MPI_ERR_TRUNCATE, 4⟩ := by
    intro buf
    exact ⟨_, _, _, rfl, rfl, rfl⟩
  exact h _

end LibNeoos.Mpi
