import LibNeoos.Inet.Parse
import LibNeoos.Lib.Buffer
import LibNeoos.Lib.Until
import LibNeoos.Mpi.Fold
import LibNeoos.Mpi.Process
import LibNeoos.Mpi.Sends
import LibNeoos.Mpi.Startup
/-!
# Messages as bytes

`send_raw` writes the header and the payload into a local array and hands its first
bytes to `sendto`; `recv_match` reads a datagram into an array of the same size, and the
loops of the handshake into one of 24 bytes that they use again and again. None of the
arrays is cleared.

What is sent is nevertheless the message and nothing else (`send_frame_eq`), and what is
taken for a message is the bytes of one (`received_frame_exact`). So the messages of the
system, which are no bytes, arrive as they are there (`messages_survive_wire`), and the
loops of the handshake go by what arrives (`handshake_reads_exact`).
-/

namespace LibNeoos.Mpi

open LibNeoos.Lib Process

/-! ## Four bytes -/

/-- The bytes of an `int32_t` in memory. -/
def int32Bytes (v : Int) : List UInt8 := leBytes 4 (v % 2 ^ 32).toNat

theorem leNat_lt (l : List UInt8) : leNat l < 256 ^ l.length := by
  induction l with
  | nil => simp [leNat]
  | cons b l ih =>
    have hb := b.toNat_lt
    rw [leNat, List.length_cons, Nat.pow_succ]
    omega

theorem leBytes_leNat (l : List UInt8) : leBytes l.length (leNat l) = l := by
  induction l with
  | nil => rfl
  | cons b l ih =>
    have hb := b.toNat_lt
    have hmod : (b.toNat + 256 * leNat l) % 256 = b.toNat := by omega
    have hdiv : (b.toNat + 256 * leNat l) / 256 = leNat l := by omega
    rw [leNat, List.length_cons, leBytes, hdiv, ih]
    congr 1
    apply UInt8.toNat_inj.1
    rw [UInt8.toNat_ofNat', hmod]

@[simp] theorem int32Bytes_length (v : Int) : (int32Bytes v).length = 4 := leBytes_length _ _

theorem int32_of_bytes {v : Int} (h : IsInt32 v) : int32 (leNat (int32Bytes v)) = v := by
  have hpos : 0 ≤ v % 2 ^ 32 := Int.emod_nonneg _ (by decide)
  have hlt : v % 2 ^ 32 < 2 ^ 32 := Int.emod_lt_of_pos _ (by decide)
  have hnat : ((leNat (int32Bytes v) : Nat) : Int) = v % 2 ^ 32 := by
    rw [int32Bytes, leNat_leBytes, Nat.mod_eq_of_lt (by omega)]
    omega
  rw [hnat, int32]
  have hbmod : (v % 2 ^ 32).bmod (2 ^ 32) = v.bmod (2 ^ 32) := Int.emod_bmod v (2 ^ 32)
  rw [hbmod]
  exact int32_of_range h.1 h.2

theorem bytes_of_int32 {l : List UInt8} (h : l.length = 4) : int32Bytes (int32 (leNat l)) = l := by
  have hlt := leNat_lt l
  rw [h] at hlt
  have hmod : (int32 (leNat l) % 2 ^ 32).toNat = leNat l := by
    have hb : (leNat l : Int).bmod (2 ^ 32) % ((2 ^ 32 : Nat) : Int) = (leNat l : Int) % ((2 ^ 32 : Nat) : Int) :=
      Int.bmod_emod
    unfold int32
    omega
  rw [int32Bytes, hmod, ← h]
  exact leBytes_leNat l

/-! ## Headers -/

def Header.bytes (h : Header) : List UInt8 :=
  int32Bytes h.src ++ int32Bytes h.tag ++ int32Bytes h.count ++ int32Bytes h.type

/-- The header at the start of a frame. -/
def headerAt (frame : List UInt8) : Header := ⟨int32At frame 0, int32At frame 4, int32At frame 8, int32At frame 12⟩

/-- All fields are in the range of their type. -/
structure Header.InRange (h : Header) : Prop where
  src : IsInt32 h.src
  tag : IsInt32 h.tag
  count : IsInt32 h.count
  type : IsInt32 h.type

/-- The bytes of a message: the header, then the payload. -/
def Datagram.bytes (d : Datagram) : List UInt8 := d.hdr.bytes ++ d.data

@[simp] theorem Header.bytes_length (h : Header) : h.bytes.length = 16 := by simp [Header.bytes]

theorem int32At_take {l : List UInt8} {i m : Nat} (h : i + 4 ≤ m) : int32At (l.take m) i = int32At l i := by
  rw [int32At, int32At, List.drop_take, List.take_take, Nat.min_eq_left (by omega)]

/-- Only the first 16 bytes of a frame matter for its header. -/
theorem headerAt_take {l : List UInt8} {m : Nat} (h : 16 ≤ m) : headerAt (l.take m) = headerAt l := by
  unfold headerAt
  rw [int32At_take (by omega), int32At_take (by omega), int32At_take (by omega), int32At_take (by omega)]

theorem headerAt_bytes {h : Header} (hr : h.InRange) (l : List UInt8) : headerAt (h.bytes ++ l) = h := by
  have at_field : ∀ (xs : List UInt8) {v : Int} (ys : List UInt8), IsInt32 v →
      int32At (xs ++ (int32Bytes v ++ ys)) xs.length = v := by
    intro xs v ys hv
    rw [int32At, List.drop_left, List.take_append_of_le_length (by simp), List.take_of_length_le (by simp),
      int32_of_bytes hv]
  unfold headerAt Header.bytes
  have h0 := at_field [] (int32Bytes h.tag ++ (int32Bytes h.count ++ (int32Bytes h.type ++ l))) hr.src
  have h4 := at_field (int32Bytes h.src) (int32Bytes h.count ++ (int32Bytes h.type ++ l)) hr.tag
  have h8 := at_field (int32Bytes h.src ++ int32Bytes h.tag) (int32Bytes h.type ++ l) hr.count
  have h12 := at_field (int32Bytes h.src ++ int32Bytes h.tag ++ int32Bytes h.count) l hr.type
  simp only [List.nil_append, List.length_append, int32Bytes_length, List.length_nil, List.append_assoc]
    at h0 h4 h8 h12 ⊢
  rw [h0, h4, h8, h12]

theorem bytes_headerAt {l : List UInt8} (h : 16 ≤ l.length) : (headerAt l).bytes = l.take 16 := by
  have field : ∀ i, i + 4 ≤ 16 → int32Bytes (int32At l i) = (l.drop i).take 4 := by
    intro i hi
    apply bytes_of_int32
    rw [List.length_take, List.length_drop]
    omega
  unfold Header.bytes headerAt
  rw [field 0 (by omega), field 4 (by omega), field 8 (by omega), field 12 (by omega)]
  have hsplit : ∀ i, l.take (i + 4) = l.take i ++ (l.drop i).take 4 := fun i => List.take_add
  rw [hsplit 12, hsplit 8, hsplit 4, List.drop_zero]

theorem headerAt_inRange (l : List UInt8) : (headerAt l).InRange := by
  have field : ∀ i, IsInt32 (int32At l i) := fun i => int32_isInt32 _
  unfold headerAt
  -- the projections go first: comparing under them would evaluate `bmod` at `2 ^ 32`
  constructor <;> dsimp only <;> apply field

/-! ## The code -/

/-- `unsigned char frame[sizeof(struct mpi_header) + MPI_MAX_MESSAGE]`. -/
abbrev Frame : Type := Buffer UInt8 (16 + MPI_MAX_MESSAGE)

/-- What `send_raw` hands to `sendto`: the first bytes of the frame it has filled. -/
def send_frame (frame : Frame) (h : Header) (buf : List UInt8) (bytes : Nat) (hb : bytes ≤ MPI_MAX_MESSAGE) :
    List UInt8 :=
  let f1 := frame.poke 0 (int32Bytes h.src) (by simp)
  let f2 := f1.poke 4 (int32Bytes h.tag) (by simp)
  let f3 := f2.poke 8 (int32Bytes h.count) (by simp)
  let f4 := f3.poke 12 (int32Bytes h.type) (by simp)
  let f5 := if bytes ≠ 0 then f4.poke 16 (buf.take bytes) (by rw [List.length_take]; omega) else f4
  f5.elems.take (16 + bytes)

/-- What `recv_match` makes of a datagram it reads into `frame`. -/
def recv_frame (frame : Frame) (msg : List UInt8) : Recvd Datagram :=
  let f := (frame.recv msg).1
  let n := (frame.recv msg).2
  if n < 16 then .runt n
  else .frame ⟨headerAt f.elems, (f.elems.drop 16).take (n - 16), by
    have hsize := f.size
    rw [List.length_take, List.length_drop]
    omega⟩

/-! ## What is sent -/

/-- The message and nothing else: no byte of the frame that was not written is sent. -/
theorem send_frame_eq (frame : Frame) (h : Header) {buf : List UInt8} {bytes : Nat} (hb : bytes ≤ MPI_MAX_MESSAGE)
    (hbuf : bytes ≤ buf.length) : send_frame frame h buf bytes hb = h.bytes ++ buf.take bytes := by
  unfold send_frame
  extract_lets f1 f2 f3 f4 f5
  have hfit : ∀ {i : Nat} (v : Int), i + 4 ≤ 16 → i + (int32Bytes v).length ≤ 16 + MPI_MAX_MESSAGE := by
    intro i v hi
    rw [int32Bytes_length]
    omega
  have h1 : f1.elems.take 4 = int32Bytes h.src := by
    simpa using frame.poke_take (hfit (i := 0) h.src (by omega))
  have h2 : f2.elems.take 8 = int32Bytes h.src ++ int32Bytes h.tag := by
    rw [← h1]
    simpa using f1.poke_take (hfit (i := 4) h.tag (by omega))
  have h3 : f3.elems.take 12 = int32Bytes h.src ++ int32Bytes h.tag ++ int32Bytes h.count := by
    rw [← h2]
    simpa using f2.poke_take (hfit (i := 8) h.count (by omega))
  have h4 : f4.elems.take 16 = h.bytes := by
    rw [Header.bytes, ← h3]
    simpa using f3.poke_take (hfit (i := 12) h.type (by omega))
  by_cases h0 : bytes = 0
  · subst h0
    simpa [f5] using h4
  · have hlen : (buf.take bytes).length = bytes := by
      rw [List.length_take]
      omega
    have hroom : 16 + (buf.take bytes).length ≤ 16 + MPI_MAX_MESSAGE := by omega
    have h5 := f4.poke_take hroom
    rw [hlen, h4] at h5
    simpa [f5, h0] using h5

/-! ## What is received -/

/-- What the frame held before does not matter. -/
theorem recv_frame_eq (frame : Frame) (msg : List UInt8) {d : Datagram} :
    recv_frame frame msg = .frame d ↔
      16 ≤ msg.length ∧ d.hdr = headerAt msg ∧ d.data = (msg.take (16 + MPI_MAX_MESSAGE)).drop 16 := by
  have hcount := frame.recv_count msg
  have htake := frame.recv_take msg
  unfold recv_frame
  extract_lets f n
  change n = min msg.length (16 + MPI_MAX_MESSAGE) at hcount
  change f.elems.take n = msg.take (16 + MPI_MAX_MESSAGE) at htake
  by_cases hlen : 16 ≤ msg.length
  · have hn : 16 ≤ n := by omega
    have hhdr : headerAt f.elems = headerAt msg := by
      rw [← headerAt_take hn, htake, headerAt_take (by omega)]
    have hdata : (f.elems.drop 16).take (n - 16) = (msg.take (16 + MPI_MAX_MESSAGE)).drop 16 := by
      rw [← List.drop_take, htake]
    obtain ⟨hdr, data, fits⟩ := d
    rw [if_neg (by omega)]
    simp only [Recvd.frame.injEq, Datagram.mk.injEq, hhdr, hdata, hlen, true_and]
    constructor
    · rintro ⟨rfl, rfl⟩
      exact ⟨rfl, rfl⟩
    · rintro ⟨rfl, rfl⟩
      exact ⟨rfl, rfl⟩
  · rw [if_pos (by omega)]
    simp [hlen]

/-- A datagram is taken for the message `d` exactly if it is the bytes of `d`; only one
that is longer than any message is cut. -/
theorem received_frame_exact (frame : Frame) (msg : List UInt8) (d : Datagram) :
    recv_frame frame msg = .frame d ↔
      16 ≤ msg.length ∧ d.hdr.InRange ∧ d.bytes = msg.take (16 + MPI_MAX_MESSAGE) := by
  rw [recv_frame_eq]
  constructor
  · rintro ⟨hlen, hhdr, hdata⟩
    refine ⟨hlen, hhdr ▸ headerAt_inRange msg, ?_⟩
    have hsplit := List.take_append_drop 16 (msg.take (16 + MPI_MAX_MESSAGE))
    rw [List.take_take, Nat.min_eq_left (by omega)] at hsplit
    rw [Datagram.bytes, hhdr, hdata, bytes_headerAt hlen, hsplit]
  · rintro ⟨hlen, hr, hbytes⟩
    have hhdr : headerAt msg = d.hdr := by
      rw [← headerAt_take (m := 16 + MPI_MAX_MESSAGE) (by omega), ← hbytes, Datagram.bytes, headerAt_bytes hr]
    have hdrop : (msg.take (16 + MPI_MAX_MESSAGE)).drop 16 = d.data := by
      rw [← hbytes, Datagram.bytes, ← d.hdr.bytes_length, List.drop_left]
    exact ⟨hlen, hhdr.symm, hdrop.symm⟩

/-- The message read from what `send_raw` sends is the one it was given. -/
theorem frame_round_trip (f g : Frame) {m : Datagram} (hr : m.hdr.InRange) {buf : List UInt8} {bytes : Nat}
    (hb : bytes ≤ MPI_MAX_MESSAGE) (hbuf : bytes ≤ buf.length) (hdata : buf.take bytes = m.data) :
    recv_frame g (send_frame f m.hdr buf bytes hb) = .frame m := by
  rw [send_frame_eq f m.hdr hb hbuf, hdata]
  have hlen : (m.hdr.bytes ++ m.data).length ≤ 16 + MPI_MAX_MESSAGE := by
    have := m.fits
    rw [List.length_append, Header.bytes_length]
    omega
  refine (received_frame_exact g _ m).2 ⟨?_, hr, ?_⟩
  · rw [List.length_append, Header.bytes_length]
    omega
  · rw [List.take_of_length_le hlen]
    rfl

/-- `Process.recvfrom`, which has no frame, reads the same. -/
theorem recvfrom_frame (session : Nat) (frame : Frame) (msg : List UInt8) (d : Datagram) :
    Process.recvfrom session (.datagram msg) = some (.frame ⟨d, session⟩) ↔ recv_frame frame msg = .frame d := by
  obtain ⟨hdr, data, fits⟩ := d
  rw [recv_frame_eq]
  have hlen : (msg.take (16 + MPI_MAX_MESSAGE)).length = min msg.length (16 + MPI_MAX_MESSAGE) := by
    rw [List.length_take, Nat.min_comm]
  have hhdr : headerAt msg = headerAt (msg.take (16 + MPI_MAX_MESSAGE)) := (headerAt_take (by omega)).symm
  simp only [Process.recvfrom]
  split
  · simp only [Option.some.injEq, reduceCtorEq, false_iff]
    omega
  · have h16 : 16 ≤ msg.length := by omega
    simp only [Option.some.injEq, Recvd.frame.injEq, Held.mk.injEq, Datagram.mk.injEq, and_true, h16, true_and, hhdr]
    exact and_congr eq_comm eq_comm

/-! ## All messages of a run -/

/-- The arguments that go into a header are values of their C type. -/
def Op.ArgsInRange : Op → Prop
  | .send _ count type _ tag _ => IsInt32 count ∧ IsInt32 type ∧ IsInt32 tag
  | .recv .. => True
  | .barrier _ => True
  | .bcast _ count type _ _ => IsInt32 count ∧ IsInt32 type
  | .reduce _ _ count type _ _ _ => IsInt32 count ∧ IsInt32 type
  | .allreduce _ _ count type _ _ => IsInt32 count ∧ IsInt32 type

instance : (op : Op) → Decidable op.ArgsInRange
  | .send .. => inferInstanceAs (Decidable (_ ∧ _ ∧ _))
  | .recv .. => inferInstanceAs (Decidable True)
  | .barrier _ => inferInstanceAs (Decidable True)
  | .bcast .. => inferInstanceAs (Decidable (_ ∧ _))
  | .reduce .. => inferInstanceAs (Decidable (_ ∧ _))
  | .allreduce .. => inferInstanceAs (Decidable (_ ∧ _))

section
variable {e : Env} {count type tag comm : Int}

theorem MPI_Send_inRange {buf : List UInt8} {dest : Int} (he : e.rank ≤ MPI_MAX_RANKS) (hc : IsInt32 count)
    (hty : IsInt32 type) (htag : IsInt32 tag) :
    (MPI_Send e buf count type dest tag comm).Sends fun _ m => m.hdr.InRange := by
  refine MPI_Send_sends fun _ _ m hm => ?_
  have hsrc : IsInt32 e.rank := by
    unfold IsInt32
    simp only [MPI_MAX_RANKS] at he
    omega
  rw [hm]
  exact ⟨hsrc, htag, hc, hty⟩

theorem coll_tag_isInt32 {base : Nat} (q : Nat) (h1 : 1 ≤ base) (h4 : base ≤ 4) : IsInt32 (coll_tag base q) := by
  have hrange := coll_tag_range q h1 h4
  simp only [MPI_TAG_UB, TAG_HELLO] at hrange
  unfold IsInt32
  omega

theorem MPI_Barrier_inRange (he : e.rank ≤ MPI_MAX_RANKS) : (MPI_Barrier e comm).Sends fun _ m => m.hdr.InRange := by
  have hsend : ∀ {buf dest base} (q : Nat), 1 ≤ base → base ≤ 4 →
      (MPI_Send e buf 1 MPI_BYTE dest (coll_tag base q) comm).Sends fun _ m => m.hdr.InRange :=
    fun q h1 h4 => MPI_Send_inRange he (by decide) (by decide) (coll_tag_isInt32 q h1 h4)
  unfold MPI_Barrier
  refine .guard fun _ => .guard fun _ => .guard fun _ => fun q => ?_
  split
  · refine (Prog.Sends.forOk (fun i b => MPI_Recv_sends.then_ret _) _ _).bind fun r => .guard fun _ => ?_
    exact (Prog.Sends.forOk (fun i b => (hsend q (by decide) (by decide)).then_ret _) _ _).then_ret _
  · refine (hsend q (by decide) (by decide)).bind fun r => .guard fun _ => ?_
    exact MPI_Recv_sends.bind fun r => .guard fun _ => Prog.sends_ret _

theorem MPI_Bcast_inRange {buf : List UInt8} {root : Int} (he : e.rank ≤ MPI_MAX_RANKS) (hc : IsInt32 count)
    (hty : IsInt32 type) : (MPI_Bcast e buf count type root comm).Sends fun _ m => m.hdr.InRange := by
  simp only [MPI_Bcast, Copies.MPI_Bcast, Io.forget_ite, Io.forget_ret, Io.forget_coll_seq, Io.forget_forOk,
    Io.forget_bind, Io.forget_lift, Copies.forget_MPI_Send]
  refine .guard fun _ => .guard fun _ => .guard fun _ => fun q => .guard fun _ => ?_
  split
  · refine Prog.Sends.forOk (fun i b => Prog.Sends.then_ret ?_ _) _ _
    exact MPI_Send_inRange he hc hty (coll_tag_isInt32 q (by decide) (by decide))
  · exact MPI_Recv_sends.then_ret _

theorem MPI_Reduce_inRange {sendbuf recvbuf : List UInt8} {op root : Int} (he : e.rank ≤ MPI_MAX_RANKS)
    (hc : IsInt32 count) (hty : IsInt32 type) :
    (MPI_Reduce e sendbuf recvbuf count type op root comm).Sends fun _ m => m.hdr.InRange := by
  simp only [MPI_Reduce, Copies.MPI_Reduce, Io.forget_ite, Io.forget_ret, Io.forget_coll_seq, Io.forget_bind,
    Io.forget_copy, Io.forget_lift, Copies.forget_MPI_Send]
  refine .guard fun _ => .guard fun _ => .guard fun _ => .guard fun _ => .guard fun _ => .guard fun _ => fun q => ?_
  dsimp only
  split
  · exact (MPI_Send_inRange he hc hty (coll_tag_isInt32 q (by decide) (by decide))).then_ret _
  · split
    · trivial
    · refine Prog.Sends.forOk (fun i b => ?_) _ _
      intro x
      cases x with
      | error rc => exact Prog.sends_ret _
      | ok got =>
        refine .guard fun _ => ?_
        split
        · trivial
        · exact Prog.sends_ret _

theorem Op.code_inRange {op : Op} (he : e.rank ≤ MPI_MAX_RANKS) (h : op.ArgsInRange) :
    (op.code e).Sends fun _ m => m.hdr.InRange := by
  cases op with
  | send buf count type dest tag comm => exact (MPI_Send_inRange he h.1 h.2.1 h.2.2).then_ret _
  | recv buf count type source tag comm => exact MPI_Recv_sends
  | barrier comm => exact (MPI_Barrier_inRange he).then_ret _
  | bcast buf count type root comm => exact (MPI_Bcast_inRange he h.1 h.2).then_ret _
  | reduce sendbuf recvbuf count type op root comm => exact (MPI_Reduce_inRange he h.1 h.2).then_ret _
  | allreduce sendbuf recvbuf count type op comm =>
    refine Prog.Sends.then_ret ((MPI_Reduce_inRange he h.1 h.2).bind fun _ => .guard fun _ => ?_) _
    exact MPI_Bcast_inRange he h.1 h.2

end

/-- Every call in progress sends what can be sent, and all messages are such. -/
structure Sendable (s : Sys) : Prop where
  prog : ∀ r p, (s.core r).prog? = some p → p.Sends fun _ m => m.hdr.InRange
  held : ∀ x, ∀ m ∈ s.held x, m.frame.hdr.InRange

section
variable {w : World} {s s' : Sys} {l : Label}

theorem token_inRange {r : Nat} {tag : Int} (hr : r < w.n) (ht : IsInt32 tag) : (token r tag).hdr.InRange := by
  have hle := w.le
  simp only [MPI_MAX_RANKS] at hle
  have hsrc : IsInt32 r := by
    unfold IsInt32
    omega
  have hcount : IsInt32 1 := by decide
  have htype : IsInt32 MPI_BYTE := by decide
  exact ⟨hsrc, ht, hcount, htype⟩

theorem sendable_step (hargs : ∀ r < w.n, ∀ op ∈ w.prog r, op.ArgsInRange) (hi : Sendable s)
    (h : step w s l = some s') : Sendable s' := by
  have hmove : (∀ p ∈ news w s l, p.msg.frame.hdr.InRange) ∧
      ∀ x p, (s'.core x).prog? = some p → p.Sends fun _ m => m.hdr.InRange := by
    rcases sys_move h with ⟨r, a, c', rfl, hr, hm, hcore⟩ | ⟨hcore, hn⟩
    · have hrank : (w.env r).rank ≤ MPI_MAX_RANKS := le_trans hr.le w.le
      have hnext : (∀ p ∈ news w s (.rank r a), p.msg.frame.hdr.InRange) ∧
          ∀ p, c'.prog? = some p → p.Sends fun _ m => m.hdr.InRange := by
        generalize news w s (.rank r a) = out at hm
        have hp := hi.prog r
        cases hm with
        | quiet hq =>
          refine ⟨fun p hp' => ?_, hp⟩
          rcases hq p hp' with h | h <;> rw [h]
          · exact token_inRange hr (by decide)
          · exact token_inRange hr (by decide)
        | @call op h1 h2 =>
          refine ⟨by simp, fun p hp' => ?_⟩
          cases hp'
          exact op.code_inRange hrank (hargs r hr op (List.mem_of_getElem? h2))
        | ret h1 => exact ⟨by simp, fun p hp' => by cases hp'⟩
        | tick h1 => exact ⟨by simp, fun p hp' => by cases hp'; exact hp _ h1 _⟩
        | send h1 => exact ⟨by simpa using (hp _ h1).1, fun p hp' => by cases hp'; exact (hp _ h1).2 _⟩
        | take h1 => exact ⟨by simp, fun p hp' => by cases hp'; exact hp _ h1 _⟩
        | failSend _ _ h1 => exact ⟨by simp, fun p hp' => by cases hp'; exact (hp _ h1).2 _⟩
        | failRecv _ h1 => exact ⟨by simp, fun p hp' => by cases hp'; exact hp _ h1 _⟩
      refine ⟨hnext.1, fun x => ?_⟩
      rw [hcore]
      by_cases hx : x = r
      · subst hx
        simpa using hnext.2
      · simpa [hx] using hi.prog x
    · rw [hcore, hn]
      exact ⟨by simp, hi.prog⟩
  refine ⟨hmove.2, fun x m hm => ?_⟩
  have hmem : m ∈ s.held x ++ msgsTo x (news w s l) := (step_held h x).symm.subset (List.mem_append_left _ hm)
  rcases List.mem_append.1 hmem with h1 | h1
  · exact hi.held x m h1
  · exact hmove.1 ⟨x, m⟩ (mem_msgsTo.1 h1)

theorem run_sendable {ok : Sys → Label → Sys → Prop} (hargs : ∀ r < w.n, ∀ op ∈ w.prog r, op.ArgsInRange)
    (h : Run (step w) ok start s) : Sendable s := by
  refine h.inv Sendable ⟨?_, ?_⟩ fun s l s' hi _ hst => sendable_step hargs hi hst
  · intro r p hp
    cases hp
  · intro x m hm
    simp [Sys.held, start, msgsTo, Rank.mail, Rank.taken] at hm

/-- Every message there is in a run, in flight, queued or taken, is read from the bytes
that were sent for it as it is in the model, whatever the frames held. -/
theorem messages_survive_wire {ok : Sys → Label → Sys → Prop} (hargs : ∀ r < w.n, ∀ op ∈ w.prog r, op.ArgsInRange)
    (hrun : Run (step w) ok start s) {x : Nat} {m : Msg} (hm : m ∈ s.held x) (f g : Frame) {buf : List UInt8}
    {bytes : Nat} (hb : bytes ≤ MPI_MAX_MESSAGE) (hbuf : bytes ≤ buf.length) (hdata : buf.take bytes = m.frame.data) :
    recv_frame g (send_frame f m.frame.hdr buf bytes hb) = .frame m.frame :=
  frame_round_trip f g ((run_sendable hargs hrun).held x m hm) hb hbuf hdata

/-- Rank 1 sends two bytes of its buffer. -/
def duoPart : World := duo [] [.send [7, 8, 9] 2 MPI_BYTE 0 5 MPI_COMM_WORLD]

theorem messages_survive_wire_part :
    ∃ s m, Run (step duoPart) (fun _ _ _ => True) start s ∧ (m ∈ s.held 0 ∧ m.frame.hdr = ⟨1, 5, 2, MPI_BYTE⟩) ∧
      ∀ f g : Frame, recv_frame g (send_frame f m.frame.hdr [7, 8, 9] 2 (by decide)) = .frame m.frame := by
  have h : ((exec (step duoPart) (fun _ _ => true) start (duoInit ++ ([.rank 1 .call, .rank 1 .exec] : List Label))).map
      fun s => decide (∃ m ∈ s.held 0, m.frame.hdr = ⟨1, 5, 2, MPI_BYTE⟩ ∧ m.frame.data = [7, 8])) = some true := by
    decide +kernel
  have hargs : ∀ r < duoPart.n, ∀ op ∈ duoPart.prog r, op.ArgsInRange := by decide
  obtain ⟨s, hrun, m, hm, hhdr, hdata⟩ := exec_reaches h fun _ _ _ _ => trivial
  exact ⟨s, m, hrun, ⟨hm, hhdr⟩, fun f g => messages_survive_wire hargs hrun hm f g _ (by decide) hdata.symm⟩

end

/-! ## The handshake -/

/-- `try_recv` takes two errors for an empty socket; `rendezvous` returns on the others. -/
def Process.Arrival.fatal : Arrival → Bool
  | .err n => n ≠ -EAGAIN ∧ n ≠ -EINTR
  | .datagram _ => false

/-- The frame of 24 bytes after `try_recv`, and what it returns. -/
def try_recv (frame : Buffer UInt8 24) : Arrival → Buffer UInt8 24 × Int
  | .err n => (frame, if n = -EAGAIN ∨ n = -EINTR then 0 else n)
  | .datagram bytes => ((frame.recv bytes).1, (frame.recv bytes).2)

/-- Rank 0 in its loop. -/
structure Collect where
  frame : Buffer UInt8 24
  seen : List Nat
  remaining : Nat

/-- One pass of rank 0's loop; `none` when it returns an error. -/
def Collect.pass (mpi_size : Nat) (c : Collect) (x : Arrival) : Option Collect :=
  let frame := (try_recv c.frame x).1
  let n := (try_recv c.frame x).2
  let h := headerAt frame.elems
  if n < 0 then none
  else if n ≥ 16 ∧ h.tag = TAG_HELLO ∧ h.src ≥ 0 ∧ h.src < mpi_size ∧ h.src.toNat ∉ c.seen then
    some ⟨frame, h.src.toNat :: c.seen, c.remaining - 1⟩
  else some { c with frame := frame }

/-- The loop, on what its calls of `recvfrom` meet. -/
def Collect.loop (mpi_size : Nat) : Collect → List Arrival → Option Collect :=
  untilDone (fun c => c.remaining = 0) (pass mpi_size)

/-- What the loop of the other ranks reads: its frame, and `acked`. -/
structure Await where
  frame : Buffer UInt8 24
  acked : Bool

def Await.pass (a : Await) (x : Arrival) : Option Await :=
  let frame := (try_recv a.frame x).1
  let n := (try_recv a.frame x).2
  if n < 0 then none
  else if n ≥ 16 ∧ (headerAt frame.elems).tag = TAG_GO then some ⟨frame, true⟩
  else some { a with frame := frame }

def Await.loop : Await → List Arrival → Option Await := untilDone Await.acked pass

/-- A datagram that begins with the header of a `HELLO` of rank `r`. -/
def SaysHello (r : Nat) (x : Arrival) : Prop :=
  ∃ bytes, x = .datagram bytes ∧ 16 ≤ bytes.length ∧ (headerAt bytes).tag = TAG_HELLO ∧ (headerAt bytes).src = r

/-- A datagram that begins with the header of a `GO`. -/
def SaysGo (x : Arrival) : Prop := ∃ bytes, x = .datagram bytes ∧ 16 ≤ bytes.length ∧ (headerAt bytes).tag = TAG_GO

/-- A header that is read is the one that arrived, not one that an earlier datagram left
in the frame. -/
theorem try_recv_header (frame : Buffer UInt8 24) (bytes : List UInt8) :
    ((try_recv frame (.datagram bytes)).2 ≥ 16 ↔ 16 ≤ bytes.length) ∧
      (16 ≤ bytes.length → headerAt (try_recv frame (.datagram bytes)).1.elems = headerAt bytes) := by
  have hcount := frame.recv_count bytes
  have htake := frame.recv_take bytes
  simp only [try_recv]
  generalize frame.recv bytes = p at hcount htake
  refine ⟨by omega, fun hlen => ?_⟩
  rw [← headerAt_take (m := p.2) (by omega), htake, headerAt_take (by omega)]

theorem try_recv_neg (frame : Buffer UInt8 24) {x : Arrival} (herr : ∀ n, x = .err n → n < 0) :
    (try_recv frame x).2 < 0 ↔ x.fatal = true := by
  cases x with
  | err n =>
    have hn := herr n rfl
    simp only [try_recv, Arrival.fatal]
    by_cases hagain : n = -EAGAIN ∨ n = -EINTR
    · rw [if_pos hagain]
      rcases hagain with h | h <;> simp [h]
    · obtain ⟨h1, h2⟩ := not_or.1 hagain
      rw [if_neg hagain]
      simp [hn, h1, h2]
  | datagram bytes => simp [try_recv, Arrival.fatal]

section
variable {size : Nat} {ys : List Arrival} {x : Arrival}

/-- `seen` and `remaining` after the arrivals `ys`. -/
structure Collect.Tracks (size : Nat) (ys : List Arrival) (c : Collect) : Prop where
  nodup : c.seen.Nodup
  mem : ∀ r, r ∈ c.seen ↔ r < size ∧ (r = 0 ∨ ∃ x ∈ ys, SaysHello r x)
  count : c.seen.length + c.remaining = size

/-- Different ranks below `n` are all of them when there are `n`. -/
theorem full_iff {n : Nat} {l : List Nat} (hn : l.Nodup) (hlt : ∀ x ∈ l, x < n) : l.length = n ↔ ∀ x < n, x ∈ l := by
  have hsub : l.toFinset ⊆ Finset.range n := fun x hx => Finset.mem_range.2 (hlt x (List.mem_toFinset.1 hx))
  have hcard : l.toFinset.card = l.length := List.toFinset_card_of_nodup hn
  constructor
  · intro hlen x hx
    have heq : l.toFinset = Finset.range n := Finset.eq_of_subset_of_card_le hsub (by rw [Finset.card_range]; omega)
    exact List.mem_toFinset.1 (heq ▸ Finset.mem_range.2 hx)
  · intro hall
    have heq : l.toFinset = Finset.range n :=
      hsub.antisymm fun x hx => List.mem_toFinset.2 (hall x (Finset.mem_range.1 hx))
    rw [← hcard, heq, Finset.card_range]

theorem Collect.Tracks.done {c : Collect} (h : c.Tracks size ys) :
    c.remaining = 0 ↔ ∀ r, 0 < r → r < size → ∃ x ∈ ys, SaysHello r x := by
  have hfull := full_iff h.nodup fun r hr => ((h.mem r).1 hr).1
  have hcount := h.count
  constructor
  · intro h0 r hr hlt
    have hmem := (h.mem r).1 (hfull.1 (by omega) r hlt)
    exact hmem.2.resolve_left (by omega)
  · intro hall
    have hlen : c.seen.length = size := hfull.2 fun r hlt => (h.mem r).2 ⟨hlt, by
      rcases Nat.eq_zero_or_pos r with h0 | h0
      · exact .inl h0
      · exact .inr (hall r h0 hlt)⟩
    omega

/-- A pass on something that ticks nobody off. -/
theorem Collect.Tracks.skip {c : Collect} (h : c.Tracks size ys) (frame : Buffer UInt8 24)
    (hx : ∀ r < size, SaysHello r x → r ∈ c.seen) : Tracks size (ys ++ [x]) { c with frame := frame } := by
  refine ⟨h.nodup, fun r => ?_, h.count⟩
  rw [h.mem r]
  simp only [List.mem_append, List.mem_singleton]
  constructor
  · rintro ⟨hlt, rfl | ⟨y, hy, hs⟩⟩
    · exact ⟨hlt, .inl rfl⟩
    · exact ⟨hlt, .inr ⟨y, .inl hy, hs⟩⟩
  · rintro ⟨hlt, rfl | ⟨y, hy | rfl, hs⟩⟩
    · exact ⟨hlt, .inl rfl⟩
    · exact ⟨hlt, .inr ⟨y, hy, hs⟩⟩
    · exact (h.mem r).1 (hx r hlt hs)

/-- A pass on the `HELLO` of a rank that was not seen before. -/
theorem Collect.Tracks.tick {c : Collect} (h : c.Tracks size ys) (frame : Buffer UInt8 24) {r : Nat}
    (hx : SaysHello r x) (hlt : r < size) (hr : r ∉ c.seen) :
    Tracks size (ys ++ [x]) ⟨frame, r :: c.seen, c.remaining - 1⟩ := by
  have hpos : 0 < c.remaining := by
    by_contra h0
    have hcount := h.count
    have hall := (full_iff h.nodup fun r hr => ((h.mem r).1 hr).1).1 (by omega)
    exact hr (hall r hlt)
  refine ⟨List.nodup_cons.2 ⟨hr, h.nodup⟩, fun y => ?_, ?_⟩
  · rw [List.mem_cons, h.mem y]
    simp only [List.mem_append, List.mem_singleton]
    constructor
    · rintro (rfl | ⟨hy, rfl | ⟨z, hz, hs⟩⟩)
      · exact ⟨hlt, .inr ⟨x, .inr rfl, hx⟩⟩
      · exact ⟨hy, .inl rfl⟩
      · exact ⟨hy, .inr ⟨z, .inl hz, hs⟩⟩
    · rintro ⟨hy, rfl | ⟨z, hz | rfl, hs⟩⟩
      · exact .inr ⟨hy, .inl rfl⟩
      · exact .inr ⟨hy, .inr ⟨z, hz, hs⟩⟩
      · -- one datagram has one sender
        obtain ⟨b, rfl, -, -, hb⟩ := hx
        obtain ⟨b', hb', -, -, hsrc⟩ := hs
        cases hb'
        left
        omega
  · have hcount := h.count
    simp only [List.length_cons]
    omega

theorem Collect.Tracks.pass {c : Collect} (h : c.Tracks size ys) (herr : ∀ n, x = .err n → n < 0)
    (hx : x.fatal = false) : ∃ c', c.pass size x = some c' ∧ c'.Tracks size (ys ++ [x]) := by
  have hneg : ¬ (try_recv c.frame x).2 < 0 := by simp [try_recv_neg c.frame herr, hx]
  cases x with
  | err n =>
    have hzero : (try_recv c.frame (.err n)).2 = 0 := by
      have hn := herr n rfl
      simp only [try_recv] at hneg ⊢
      split at hneg
      · rename_i hagain
        rw [if_pos hagain]
      · exact absurd hn hneg
    refine ⟨{ c with frame := (try_recv c.frame (.err n)).1 }, ?_, h.skip _ ?_⟩
    · simp [Collect.pass, hzero]
    · rintro r - ⟨b, hb, -⟩
      cases hb
  | datagram bytes =>
    obtain ⟨hge, hhdr⟩ := try_recv_header c.frame bytes
    simp only [Collect.pass, if_neg hneg]
    split
    · rename_i htest
      obtain ⟨hn, htag, hpos, hlt, hseen⟩ := htest
      have hlen := hge.1 hn
      rw [hhdr hlen] at htag hpos hlt hseen ⊢
      refine ⟨_, rfl, h.tick _ ⟨bytes, rfl, hlen, htag, ?_⟩ (by omega) hseen⟩
      omega
    · rename_i htest
      refine ⟨_, rfl, h.skip _ ?_⟩
      rintro r hr ⟨b, hb, hlen, htag, hsrc⟩
      cases hb
      by_contra hseen
      rw [hhdr hlen, hge, hsrc] at htest
      exact htest ⟨hlen, htag, by omega, by omega, by simpa using hseen⟩

/-- `acked` after the arrivals `ys`. -/
theorem Await.pass_acked {a : Await} (h : a.acked = true ↔ ∃ x ∈ ys, SaysGo x) (herr : ∀ n, x = .err n → n < 0)
    (hx : x.fatal = false) (ha : a.acked = false) :
    ∃ a', a.pass x = some a' ∧ (a'.acked = true ↔ ∃ y ∈ ys ++ [x], SaysGo y) := by
  have hneg : ¬ (try_recv a.frame x).2 < 0 := by simp [try_recv_neg a.frame herr, hx]
  have hnone : ¬ ∃ y ∈ ys, SaysGo y := by simp [← h, ha]
  have hsplit : (∃ y ∈ ys ++ [x], SaysGo y) ↔ SaysGo x := by
    simp only [List.mem_append, List.mem_singleton]
    constructor
    · rintro ⟨y, hy | rfl, hg⟩
      · exact absurd ⟨y, hy, hg⟩ hnone
      · exact hg
    · exact fun hg => ⟨x, .inr rfl, hg⟩
  rw [hsplit]
  simp only [Await.pass, if_neg hneg]
  cases x with
  | err n =>
    have hn := herr n rfl
    have hno : ¬ SaysGo (.err n) := by
      rintro ⟨b, hb, -⟩
      cases hb
    rw [if_neg]
    · exact ⟨_, rfl, by simp [ha, hno]⟩
    · rintro ⟨h16, -⟩
      simp only [try_recv] at h16
      split at h16 <;> omega
  | datagram bytes =>
    obtain ⟨hge, hhdr⟩ := try_recv_header a.frame bytes
    split
    · rename_i htest
      have hlen := hge.1 htest.1
      exact ⟨_, rfl, by simpa using ⟨bytes, rfl, hlen, hhdr hlen ▸ htest.2⟩⟩
    · rename_i htest
      have hno : ¬ SaysGo (.datagram bytes) := by
        rintro ⟨b, hb, hlen, htag⟩
        cases hb
        exact htest ⟨hge.2 hlen, by rw [hhdr hlen]; exact htag⟩
      exact ⟨_, rfl, by simp [ha, hno]⟩

/-- The loops of the handshake hear what arrives and nothing else: whatever their frame
holds, rank 0's ends if each other rank's `HELLO` arrives, before an error that is not
passed over, and those of the others if a `GO` does. A header left in the frame by an
earlier datagram is never read again, not by a shorter datagram either. -/
theorem handshake_reads_exact {xs : List Arrival} (herr : ∀ n, .err n ∈ xs → n < 0) (frame : Buffer UInt8 24)
    (hsize : 0 < size) :
    ((∃ c, Collect.loop size ⟨frame, [0], size - 1⟩ xs = some c ∧ c.remaining = 0) ↔
      ∃ zs rest, xs = zs ++ rest ∧ (∀ x ∈ zs, x.fatal = false) ∧
        ∀ r, 0 < r → r < size → ∃ x ∈ zs, SaysHello r x) ∧
    ((∃ a, Await.loop ⟨frame, false⟩ xs = some a ∧ a.acked = true) ↔
      ∃ zs rest, xs = zs ++ rest ∧ (∀ x ∈ zs, x.fatal = false) ∧ ∃ x ∈ zs, SaysGo x) := by
  have hok : ∀ x ∈ xs, ∀ n, x = .err n → n < 0 := by
    rintro x hx n rfl
    exact herr n hx
  constructor
  · have hstart : Collect.Tracks size [] ⟨frame, [0], size - 1⟩ := by
      refine ⟨by simp, fun r => ?_, by simp; omega⟩
      simp only [List.mem_singleton, List.not_mem_nil, false_and, exists_false, or_false]
      omega
    have hdone : ∀ ys c, Collect.Tracks size ys c → (decide (c.remaining = 0) = true ↔
        ∀ r, 0 < r → r < size → ∃ x ∈ ys, SaysHello r x) := fun ys c hc => by simpa using hc.done
    have hbad : ∀ (c : Collect) (x : Arrival), (∀ n, x = .err n → n < 0) → x.fatal = true → c.pass size x = none :=
      fun c x hx hf => by simp [Collect.pass, (try_recv_neg c.frame hx).2 hf]
    have hrule := untilDone_iff hdone hbad (fun ys c x hc hx hf _ => hc.pass hx (by simpa using hf)) hok hstart
    simpa [Collect.loop] using hrule
  · have hstart : (⟨frame, false⟩ : Await).acked = true ↔ ∃ x ∈ ([] : List Arrival), SaysGo x := by simp
    have hdone : ∀ (ys : List Arrival) (a : Await), (a.acked = true ↔ ∃ x ∈ ys, SaysGo x) →
        (a.acked = true ↔ ∃ x ∈ ys, SaysGo x) := fun _ _ h => h
    have hbad : ∀ (a : Await) (x : Arrival), (∀ n, x = .err n → n < 0) → x.fatal = true → a.pass x = none :=
      fun a x hx hf => by simp [Await.pass, (try_recv_neg a.frame hx).2 hf]
    have hrule := untilDone_iff hdone hbad
      (fun ys a x ha hx hf hd => Await.pass_acked ha hx (by simpa using hf) hd) hok hstart
    simpa [Await.loop] using hrule

/-- Rank 1's `HELLO`, then a datagram of two bytes behind which the `HELLO` still stands in
the frame: two ranks are complete, three are not. -/
theorem handshake_reads_exact_stale :
    let xs : List Arrival := [.err (-EAGAIN), .datagram (token 1 TAG_HELLO).bytes, .datagram [2, 0]]
    let frame : Buffer UInt8 24 := ⟨List.replicate 24 0, rfl⟩
    (∃ c, Collect.loop 2 ⟨frame, [0], 1⟩ xs = some c ∧ c.remaining = 0) ∧
      ¬ ∃ c, Collect.loop 3 ⟨frame, [0], 2⟩ xs = some c ∧ c.remaining = 0 := by
  intro xs frame
  have herr : ∀ n, .err n ∈ xs → n < 0 := by simp [xs]
  have hhdr : (token 1 TAG_HELLO).hdr.InRange := @token_inRange (duo [] []) 1 _ (by decide) (by decide)
  have hbytes := headerAt_bytes hhdr [0]
  constructor
  · refine (handshake_reads_exact herr frame (by decide)).1.2 ⟨xs, [], rfl, by decide, fun r h0 h2 => ?_⟩
    refine ⟨_, List.mem_cons_of_mem _ List.mem_cons_self, _, rfl, by decide, ?_⟩
    obtain rfl : r = 1 := by omega
    change (headerAt ((token 1 TAG_HELLO).hdr.bytes ++ [0])).tag = TAG_HELLO ∧
      (headerAt ((token 1 TAG_HELLO).hdr.bytes ++ [0])).src = 1
    rw [hbytes]
    exact ⟨rfl, rfl⟩
  · intro h
    obtain ⟨zs, rest, hzs, -, hall⟩ := (handshake_reads_exact herr frame (by decide)).1.1 h
    obtain ⟨x, hx, b, rfl, hlen, -, hsrc⟩ := hall 2 (by decide) (by decide)
    have hmem : Arrival.datagram b ∈ xs := hzs ▸ List.mem_append_left _ hx
    simp only [xs, List.mem_cons, reduceCtorEq, Arrival.datagram.injEq, List.not_mem_nil, or_false, false_or] at hmem
    rcases hmem with rfl | rfl
    · change (headerAt ((token 1 TAG_HELLO).hdr.bytes ++ [0])).src = 2 at hsrc
      rw [hbytes] at hsrc
      exact absurd hsrc (by decide)
    · exact absurd hlen (by decide)

end

section
variable {w : World} {s : Sys} {x : Nat} {m : Msg} {sock : List Msg}

theorem Datagram.bytes_header {d : Datagram} (h : d.hdr.InRange) : 16 ≤ d.bytes.length ∧ headerAt d.bytes = d.hdr := by
  refine ⟨?_, headerAt_bytes h d.data⟩
  rw [Datagram.bytes, List.length_append, Header.bytes_length]
  omega

/-- `rendezvous` of the system, which reads whole messages, does in a step what a pass of
the loop does on their bytes. -/
theorem rendezvous_reads_bytes {ok : Sys → Label → Sys → Prop} (hargs : ∀ r < w.n, ∀ op ∈ w.prog r, op.ArgsInRange)
    (hrun : Run (step w) ok start s) (hsock : (s.rank x).sock = m :: sock) (frame : Buffer UInt8 24) :
    (∀ seen remaining, (s.rank x).stage = .collect seen remaining → remaining ≠ 0 →
      ∃ c, Collect.pass w.n ⟨frame, seen, remaining⟩ (.datagram m.frame.bytes) = some c ∧
        rendezvous w.n x (s.rank x) =
          some ({ s.rank x with stage := .collect c.seen c.remaining, sock := sock }, [])) ∧
    (∀ since_hello, (s.rank x).stage = .poll since_hello →
      ∃ a, Await.pass ⟨frame, false⟩ (.datagram m.frame.bytes) = some a ∧
        rendezvous w.n x (s.rank x) =
          some ({ s.rank x with stage := if a.acked then .restore else .hello since_hello, sock := sock }, [])) := by
  have hmem : m ∈ s.held x := by simp [Sys.held, Rank.mail, hsock]
  obtain ⟨hlen, hhdr⟩ := Datagram.bytes_header ((run_sendable hargs hrun).held x m hmem)
  obtain ⟨hge, hread⟩ := try_recv_header frame m.frame.bytes
  have hneg : ¬ (try_recv frame (.datagram m.frame.bytes)).2 < 0 := by simp [try_recv]
  have h16 := hge.2 hlen
  have hframe := (hread hlen).trans hhdr
  constructor
  · intro seen remaining hst hne
    simp only [Collect.pass, if_neg hneg, hframe, h16, true_and, rendezvous, hst, hsock, if_neg hne, ge_iff_le]
    split
    · exact ⟨_, rfl, rfl⟩
    · exact ⟨_, rfl, by rw [← hst]⟩
  · intro since_hello hst
    simp only [Await.pass, if_neg hneg, hframe, h16, true_and, rendezvous, hst, hsock]
    split
    · exact ⟨_, rfl, rfl⟩
    · exact ⟨_, rfl, rfl⟩

end

/-! ## Addresses -/

@[simp] abbrev AF_INET : Nat := 2
@[simp] abbrev MPI_PORT_BASE : Nat := 20000

def htons (v : BitVec 16) : BitVec 16 := (v <<< 8) ||| (v >>> 8)

/-- The bytes of `*a`. -/
def addr_for_rank (a : Buffer UInt8 16) (rank : Int) : Buffer UInt8 16 :=
  let a0 := a.poke 0 (List.replicate 16 0) (by simp)
  let a1 := a0.poke 0 (leBytes 2 AF_INET) (by simp [leBytes_length])
  let a2 := a1.poke 2 (leBytes 2 (htons (BitVec.ofInt 16 (MPI_PORT_BASE + rank))).toNat) (by simp [leBytes_length])
  a2.poke 4 (leBytes 4 (Inet.htonl 0x7F000001).toNat) (by simp [leBytes_length])

theorem htons_toNat (v : BitVec 16) : (htons v).toNat = v.toNat % 256 * 256 + v.toNat / 256 := by
  have hv := v.isLt
  have hlow : v.toNat <<< 8 % 2 ^ 16 = 2 ^ 8 * (v.toNat % 256) := by
    rw [Nat.shiftLeft_eq]
    omega
  rw [htons, BitVec.toNat_or, BitVec.toNat_shiftLeft, BitVec.toNat_ushiftRight, hlow, Nat.shiftRight_eq_div_pow,
    ← Nat.two_pow_add_eq_or_of_lt (by omega)]
  omega

/-- All sixteen bytes, whatever was there: the family, the port and the address 127.0.0.1
with their high byte first, and zeros. -/
theorem addr_for_rank_elems (a : Buffer UInt8 16) {port : Nat} (rank : Int) (h : MPI_PORT_BASE + rank = port)
    (hport : port < 2 ^ 16) :
    (addr_for_rank a rank).elems =
      [2, 0, UInt8.ofNat (port / 256), UInt8.ofNat port, 127, 0, 0, 1, 0, 0, 0, 0, 0, 0, 0, 0] := by
  have hbytes : leBytes 2 (htons (BitVec.ofInt 16 (MPI_PORT_BASE + rank))).toNat =
      [UInt8.ofNat (port / 256), UInt8.ofNat port] := by
    rw [h, BitVec.ofInt_natCast, htons_toNat, BitVec.toNat_ofNat, Nat.mod_eq_of_lt hport]
    have hhigh : (port % 256 * 256 + port / 256) % 256 = port / 256 % 256 := by omega
    have hquot : port / 256 < 256 := by omega
    have hlow : (port % 256 * 256 + port / 256) / 256 % 256 = port % 256 := by
      rw [Nat.add_comm, Nat.add_mul_div_right _ _ (by decide), Nat.div_eq_of_lt hquot, Nat.zero_add, Nat.mod_mod]
    simp only [leBytes]
    congr 1
    · apply UInt8.toNat_inj.1
      rw [UInt8.toNat_ofNat', UInt8.toNat_ofNat', hhigh]
    · congr 1
      apply UInt8.toNat_inj.1
      rw [UInt8.toNat_ofNat', UInt8.toNat_ofNat', hlow]
  have hloop : leBytes 4 (Inet.htonl 0x7F000001).toNat = [127, 0, 0, 1] := by decide
  unfold addr_for_rank
  extract_lets a0 a1 a2
  have h0 : a0.elems = List.replicate 16 0 := by
    have hsize := a.size
    rw [Buffer.poke_elems, List.drop_eq_nil_of_le (by simp [hsize])]
    rfl
  have h1 : a1.elems = leBytes 2 AF_INET ++ List.replicate 14 0 := by rw [Buffer.poke_elems, h0]; rfl
  have h2 : a2.elems = leBytes 2 AF_INET ++ [UInt8.ofNat (port / 256), UInt8.ofNat port] ++ List.replicate 12 0 := by
    rw [Buffer.poke_elems, h1, hbytes]
    rfl
  rw [Buffer.poke_elems, h2, hloop]
  rfl

/-- A message sent to rank `y` is addressed to the socket rank `y` is bound to and to no
other: the sixteen bytes `sendto` gets are those `bind` got exactly for one rank, whatever
the two structures held before. -/
theorem rank_addresses_distinct (a b : Buffer UInt8 16) {x y : Int} (hx : 0 ≤ x ∧ x < MPI_MAX_RANKS)
    (hy : 0 ≤ y ∧ y < MPI_MAX_RANKS) : (addr_for_rank a x).elems = (addr_for_rank b y).elems ↔ x = y := by
  simp only [MPI_MAX_RANKS] at hx hy
  lift x to Nat using hx.1
  lift y to Nat using hy.1
  have hport : ∀ z : Nat, (MPI_PORT_BASE : Int) + z = (20000 + z : Nat) := fun z => by simp
  rw [addr_for_rank_elems a x (hport x) (by omega), addr_for_rank_elems b y (hport y) (by omega)]
  constructor
  · intro h
    have hlow : UInt8.ofNat (20000 + x) = UInt8.ofNat (20000 + y) := by
      simp only [List.cons.injEq, true_and] at h
      exact h.2.1
    have hnat := congrArg UInt8.toNat hlow
    rw [UInt8.toNat_ofNat', UInt8.toNat_ofNat'] at hnat
    omega
  · intro h
    have heq : x = y := by omega
    rw [heq]

end LibNeoos.Mpi
