import LibNeoos.Errno
import LibNeoos.Lib.Int32
/-!
# Constants, tags and datagrams of `mpi.c`

A C `int` is an `Int`; an operation that can leave the range of `int` wraps
modulo `2^32` (`int32`). Everything the library stores in an `int` is in range,
so no other operation wraps.
-/

namespace LibNeoos.Mpi

open LibNeoos.Lib (int32 int32_of_range)

/-! ## `mpi.h` -/

@[simp] abbrev MPI_COMM_WORLD : Int := 0

@[simp] abbrev MPI_SUCCESS : Int := 0
@[simp] abbrev MPI_ERR_COUNT : Int := 2
@[simp] abbrev MPI_ERR_TYPE : Int := 3
@[simp] abbrev MPI_ERR_TAG : Int := 4
@[simp] abbrev MPI_ERR_COMM : Int := 5
@[simp] abbrev MPI_ERR_RANK : Int := 6
@[simp] abbrev MPI_ERR_OP : Int := 9
@[simp] abbrev MPI_ERR_TRUNCATE : Int := 14
@[simp] abbrev MPI_ERR_OTHER : Int := 15
@[simp] abbrev MPI_ERR_INTERN : Int := 16

@[simp] abbrev MPI_ANY_SOURCE : Int := -1
@[simp] abbrev MPI_ANY_TAG : Int := -1

@[simp] abbrev MPI_BYTE : Int := 0
@[simp] abbrev MPI_CHAR : Int := 1
@[simp] abbrev MPI_INT : Int := 2
@[simp] abbrev MPI_LONG : Int := 3
@[simp] abbrev MPI_DOUBLE : Int := 4

@[simp] abbrev MPI_SUM : Int := 0
@[simp] abbrev MPI_PROD : Int := 1
@[simp] abbrev MPI_MAX : Int := 2
@[simp] abbrev MPI_MIN : Int := 3

@[simp] abbrev MPI_MAX_MESSAGE : Nat := 8192

/-! ## `mpi.c` -/

@[simp] abbrev MPI_MAX_RANKS : Nat := 16
@[simp] abbrev PENDING_SLOTS : Nat := 16

@[simp] abbrev COLL_BARRIER_IN : Nat := 1
@[simp] abbrev COLL_BARRIER_OUT : Nat := 2
@[simp] abbrev COLL_BCAST : Nat := 3
@[simp] abbrev COLL_REDUCE : Nat := 4
@[simp] abbrev TAG_HELLO : Int := 0x7F000005
@[simp] abbrev TAG_GO : Int := 0x7F000006

@[simp] abbrev MPI_TAG_UB : Int := 0x3FFFFFFF

def type_size (t : Int) : Int :=
  if t = MPI_BYTE then 1
  else if t = MPI_CHAR then 1
  else if t = MPI_INT then 4
  else if t = MPI_LONG then 8
  else if t = MPI_DOUBLE then 8
  else -1

/-- The tag of a collective's messages, from the value of `coll_seq`. -/
def coll_tag (base coll_seq : Nat) : Int :=
  int32 ((0x40000000 ||| (base <<< 24) ||| (coll_seq &&& 0x00FFFFFF) : Nat) : Int)

/-- `struct mpi_header`. -/
structure Header where
  src : Int
  tag : Int
  count : Int
  type : Int
  deriving DecidableEq, Repr

/-- One message on the wire. `send_raw` builds it in a frame that has room for
`MPI_MAX_MESSAGE` bytes of payload. -/
structure Datagram where
  hdr : Header
  data : List UInt8
  fits : data.length ≤ MPI_MAX_MESSAGE
  deriving DecidableEq, Repr

/-- A message as the receiving side holds it: what `matches` reads. -/
class Framed (α : Type) where
  hdr : α → Header

instance : Framed Datagram := ⟨Datagram.hdr⟩

/-! ## Tags -/

theorem coll_tag_nat (base q : Nat) (hb : base < 63) :
    (0x40000000 ||| (base <<< 24) ||| (q &&& 0x00FFFFFF) : Nat) = 0x40000000 + base * 2 ^ 24 + q % 2 ^ 24 := by
  have h1 : (0x40000000 ||| (base <<< 24) : Nat) = (64 + base) <<< 24 := by
    have h2 : (64 + base) <<< 24 = (64 ||| base) <<< 24 := by
      congr 1
      have := Nat.two_pow_add_eq_or_of_lt (show base < 2 ^ 6 by omega) 1
      simpa using this
    rw [h2, Nat.shiftLeft_or_distrib]
    rfl
  have h3 : (q &&& 0x00FFFFFF : Nat) = q % 2 ^ 24 := Nat.and_two_pow_sub_one_eq_mod q 24
  rw [h1, h3, ← Nat.shiftLeft_add_eq_or_of_lt (Nat.mod_lt _ (by norm_num)), Nat.shiftLeft_eq]
  ring

theorem coll_tag_eq (base q : Nat) (hb : base < 63) :
    coll_tag base q = 0x40000000 + base * 2 ^ 24 + (q % 2 ^ 24 : Nat) := by
  have hq : q % 2 ^ 24 < 2 ^ 24 := Nat.mod_lt _ (by norm_num)
  unfold coll_tag
  rw [coll_tag_nat base q hb, int32_of_range]
  · push_cast; rfl
  · push_cast; omega
  · push_cast; omega

/-- The tags of the collectives are above those of the application and below
those of the handshake. -/
theorem coll_tag_range {base : Nat} (q : Nat) (h : 1 ≤ base) (h' : base ≤ 4) :
    MPI_TAG_UB < coll_tag base q ∧ coll_tag base q < TAG_HELLO := by
  have hq : q % 2 ^ 24 < 2 ^ 24 := Nat.mod_lt _ (by norm_num)
  rw [coll_tag_eq base q (by omega)]
  simp only [MPI_TAG_UB, TAG_HELLO]
  push_cast
  omega

-- unfolding the bit operations on a variable `coll_seq` does not end
attribute [irreducible] coll_tag

end LibNeoos.Mpi
