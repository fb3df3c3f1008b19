import LibNeoos.Mpi.Contract
/-!
# The copies that the sending calls make

Each `memcpy` from the caller's send buffer in `MPI_Send`, `MPI_Bcast` and
`MPI_Reduce` is an operation of its own that shows its length (`Io`). The
lengths are products of two `int`s. A call is right if it copies as many bytes as
that product is, and refuses one that no message can have (`Io.Right`). `MPI_Send`
checks the sign of `count` and the wrapped product, `MPI_Reduce` at the root only the
latter: both are right for the products that are `Sized` (`send_sizes_exact`).
-/

namespace LibNeoos.Mpi

open LibNeoos.Lib (int32 INT_MAX)

namespace Io
variable {α β : Type}

theorem lift_bind (p : Prog α) (f : α → Prog β) : lift (p.bind f) = (lift p).bind fun a => lift (f a) := by
  induction p with
  | ret => rfl
  | fault => rfl
  | coll_seq k ih => simp only [lift, bind, Prog.bind, ih]
  | sendto d m k ih => simp only [lift, bind, Prog.bind, ih]
  | recv_match s t k ih => simp only [lift, bind, Prog.bind, ih]

theorem lift_ite {c : Prop} [Decidable c] (p q : Prog α) : lift (if c then p else q) = if c then lift p else lift q :=
  apply_ite ..

theorem lift_forOk (body : Nat → β → Prog (Int × β)) (is : List Nat) :
    ∀ b, lift (Prog.forOk body is b) = forOk (fun i b => lift (body i b)) is b := by
  induction is with
  | nil =>
    intro b
    rfl
  | cons i is ih =>
    intro b
    simp only [forOk, Prog.forOk, lift_bind, lift_ite, lift, ih]

/-! ## What is right -/

/-- Whatever it is answered, every copy is of `N` bytes, every frame sent has the
payload its header says, no access leaves the buffers, and the result meets `post`. -/
def Exact (N : Int) (post : α → Prop) : Io α → Prop
  | .ret a => post a
  | .fault => False
  | .coll_seq k => ∀ n, (k n).Exact N post
  | .copy n p => (n : Int) = N ∧ p.Exact N post
  | .sendto _ m k => m.hdr.count * type_size m.hdr.type = m.data.length ∧ ∀ n, (k n).Exact N post
  | .recv_match _ _ k => ∀ x, (k x).Exact N post

/-- The call returns an error and has neither copied nor sent anything. -/
def Refuses (code : α → Int) : Io α → Prop
  | .ret a => code a ≠ MPI_SUCCESS
  | .coll_seq k => ∀ n, (k n).Refuses code
  | .fault | .copy .. | .sendto .. | .recv_match .. => False

/-- The call copies, sends or waits at once, or leaves its buffers. -/
def Acts : Io α → Prop
  | .ret _ | .coll_seq _ => False
  | .fault | .copy .. | .sendto .. | .recv_match .. => True

/-- All lengths are the exact product `N`, and one that no message can have is refused. -/
def Right (N : Int) (code : α → Int) (p : Io α) : Prop :=
  p.Exact N (fun _ => True) ∧ (N < 0 ∨ MPI_MAX_MESSAGE < N → p.Refuses code)

variable {N : Int} {post : α → Prop} {code : α → Int}

theorem Exact.bind {p : Io α} {f : α → Io β} {post' : β → Prop} (hp : p.Exact N post)
    (hf : ∀ a, post a → (f a).Exact N post') : (p.bind f).Exact N post' := by
  induction p with
  | ret a => exact hf a hp
  | fault => exact hp
  | coll_seq k ih => exact fun n => ih n (hp n)
  | copy n p ih => exact ⟨hp.1, ih hp.2⟩
  | sendto d m k ih => exact ⟨hp.1, fun n => ih n (hp.2 n)⟩
  | recv_match s t k ih => exact fun x => ih x (hp x)

theorem Exact.forOk {body : Nat → β → Io (Int × β)} (I : β → Prop) {is : List Nat}
    (h : ∀ i ∈ is, ∀ b, I b → (body i b).Exact N fun r => I r.2) :
    ∀ b, I b → (forOk body is b).Exact N fun r => I r.2 := by
  induction is with
  | nil => exact fun b hb => hb
  | cons i is ih =>
    intro b hb
    refine (h i (by simp) b hb).bind fun r hr => ?_
    split
    · exact hr
    · exact ih (fun j hj => h j (List.mem_cons_of_mem i hj)) r.2 hr

theorem Exact.mono {p : Io α} {post' : α → Prop} (hp : p.Exact N post) (h : ∀ a, post a → post' a) :
    p.Exact N post' := by
  induction p with
  | ret a => exact h a hp
  | fault => exact hp
  | coll_seq k ih => exact fun n => ih n (hp n)
  | copy n p ih => exact ⟨hp.1, ih hp.2⟩
  | sendto d m k ih => exact ⟨hp.1, fun n => ih n (hp.2 n)⟩
  | recv_match s t k ih => exact fun x => ih x (hp x)

theorem Acts.bind {p : Io α} (h : p.Acts) (f : α → Io β) : (p.bind f).Acts := by
  cases p with
  | ret | coll_seq => exact h.elim
  | fault | copy | sendto | recv_match => trivial

theorem Acts.not_refuses {p : Io α} (h : p.Acts) : ¬ p.Refuses code := by
  cases p with
  | ret | coll_seq => exact h.elim
  | fault | copy | sendto | recv_match => exact id

/-- A call that returns an error at once is right. -/
theorem Right.ret {a : α} (h : code a ≠ MPI_SUCCESS) : (ret a).Right N code := ⟨trivial, fun _ => h⟩

theorem right_coll_seq {k : Nat → Io α} : (coll_seq k).Right N code ↔ ∀ n, (k n).Right N code :=
  ⟨fun h n => ⟨h.1 n, fun hN => h.2 hN n⟩, fun h => ⟨fun n => (h n).1, fun hN n => (h n).2 hN⟩⟩

/-- A call that acts at once is not right if no message can have the length. -/
theorem Acts.not_right {p : Io α} (h : p.Acts) (hN : N < 0 ∨ MPI_MAX_MESSAGE < N) : ¬ p.Right N code :=
  fun hr => h.not_refuses (hr.2 hN)

theorem Exact.right {p : Io α} (h : p.Exact N post) (h0 : 0 ≤ N) (h1 : N ≤ MPI_MAX_MESSAGE) : p.Right N code :=
  ⟨h.mono fun _ _ => trivial, fun hN => by omega⟩

theorem bind_pure (p : Io α) : p.bind ret = p := by
  induction p with
  | ret => rfl
  | fault => rfl
  | coll_seq k ih => simp only [bind, ih]
  | copy n p ih => simp only [bind, ih]
  | sendto d m k ih => simp only [bind, ih]
  | recv_match s t k ih => simp only [bind, ih]

end Io

/-! ## Products of `int`s -/

/-- The product fits an `int` and is not negative, or wraps to one above `MPI_MAX_MESSAGE`. -/
def Sized (N : Int) : Prop :=
  (0 ≤ N ∧ N < 2 ^ 31) ∨ (MPI_MAX_MESSAGE < N % 2 ^ 32 ∧ N % 2 ^ 32 < 2 ^ 31)

/-- The check of the wrapped product is then as good as one of the exact product. -/
theorem sized_iff (N : Int) : Sized N ↔ MPI_MAX_MESSAGE < int32 N ∨ (int32 N = N ∧ 0 ≤ N) := by
  simp only [Sized, int32, Int.bmod_def, MPI_MAX_MESSAGE]
  split <;> omega

theorem uint64_of_nonneg {x : Int} (h : 0 ≤ x) (h' : x ≤ MPI_MAX_MESSAGE) : (uint64 x : Int) = x := by
  simp only [uint64, MPI_MAX_MESSAGE] at *
  omega

theorem type_size_pos {type : Int} (h : 0 ≤ type_size type) : 1 ≤ type_size type ∧ type_size type ≤ 8 := by
  unfold type_size at *
  split_ifs at * <;> omega

namespace Copies

open Io

variable {e : Env} {buf sendbuf recvbuf : List UInt8} {count type dest tag op root comm : Int}

/-! ## `MPI_Send` -/

/-- One of the checks of `MPI_Send` before that of the length fails. -/
def SendRefused (e : Env) (count type dest tag comm : Int) : Prop :=
  comm ≠ MPI_COMM_WORLD ∨ e.ready = false ∨ (dest < 0 ∨ dest ≥ e.size) ∨ count < 0 ∨
    (tag < 0 ∨ (tag > MPI_TAG_UB ∧ tag.toNat &&& 0x40000000 = 0)) ∨ type_size type < 0

theorem MPI_Send_refused (buf : List UInt8) (h : SendRefused e count type dest tag comm) :
    ∃ rc, rc ≠ MPI_SUCCESS ∧ MPI_Send e buf count type dest tag comm = .ret rc := by
  unfold MPI_Send
  by_cases h1 : comm ≠ MPI_COMM_WORLD
  · exact ⟨MPI_ERR_COMM, by decide, if_pos h1⟩
  rw [if_neg h1]
  by_cases h2 : (!e.ready) = true
  · exact ⟨MPI_ERR_OTHER, by decide, if_pos h2⟩
  rw [if_neg h2]
  by_cases h3 : dest < 0 ∨ dest ≥ e.size
  · exact ⟨MPI_ERR_RANK, by decide, if_pos h3⟩
  rw [if_neg h3]
  by_cases h4 : count < 0
  · exact ⟨MPI_ERR_COUNT, by decide, if_pos h4⟩
  rw [if_neg h4]
  by_cases h5 : tag < 0 ∨ (tag > MPI_TAG_UB ∧ tag.toNat &&& 0x40000000 = 0)
  · exact ⟨MPI_ERR_TAG, by decide, if_pos h5⟩
  rw [if_neg h5]
  -- the last check is the only one left
  obtain h | h | h | h | h | h := h
  · exact absurd h h1
  · exact absurd (by simp [h]) h2
  · exact absurd h h3
  · exact absurd h h4
  · exact absurd h h5
  · exact ⟨MPI_ERR_TYPE, by decide, if_pos h⟩

theorem MPI_Send_goes (h : ¬ SendRefused e count type dest tag comm) :
    MPI_Send e buf count type dest tag comm =
      if int32 (count * type_size type) > MPI_MAX_MESSAGE then .ret MPI_ERR_COUNT
      else send_raw e dest tag type count buf (int32 (count * type_size type)) := by
  simp only [SendRefused, not_or, Bool.not_eq_false] at h
  obtain ⟨h1, h2, h3, h4, h5, h6⟩ := h
  unfold MPI_Send
  rw [if_neg h1, if_neg (by simp [h2]), if_neg (by omega), if_neg h4, if_neg (by tauto), if_neg h6]

theorem send_raw_exact {bytes : Int} (h0 : 0 ≤ bytes) (hmax : bytes ≤ MPI_MAX_MESSAGE) (hbuf : bytes ≤ buf.length)
    (hN : count * type_size type = bytes) :
    (send_raw e dest tag type count buf bytes).Exact bytes fun _ => True := by
  have hraw : (lift (Mpi.send_raw e dest tag type count buf bytes)).Exact bytes fun _ => True := by
    unfold Mpi.send_raw
    rw [dif_pos ⟨h0, hbuf, hmax⟩]
    refine ⟨?_, fun n => ?_⟩
    · simp only [hN, List.length_take]
      omega
    · dsimp only
      split <;> trivial
  unfold send_raw
  split
  · exact ⟨uint64_of_nonneg h0 hmax, hraw⟩
  · exact hraw

theorem send_raw_acts {bytes : Int} : (send_raw e dest tag type count buf bytes).Acts := by
  have hraw : (lift (Mpi.send_raw e dest tag type count buf bytes)).Acts := by
    unfold Mpi.send_raw
    split <;> trivial
  unfold send_raw
  split
  · trivial
  · exact hraw

/-- What is left when the checks before that of the length pass. -/
theorem MPI_Send_cases (h : ¬ SendRefused e count type dest tag comm)
    (hbuf : 0 ≤ count * type_size type → count * type_size type ≤ MPI_MAX_MESSAGE →
      count * type_size type ≤ buf.length) :
    (Sized (count * type_size type) ∧ MPI_Send e buf count type dest tag comm = .ret MPI_ERR_COUNT) ∨
    (Sized (count * type_size type) ∧ 0 ≤ count * type_size type ∧ count * type_size type ≤ MPI_MAX_MESSAGE ∧
      (MPI_Send e buf count type dest tag comm).Exact (count * type_size type) fun _ => True) ∨
    (¬ Sized (count * type_size type) ∧ MPI_MAX_MESSAGE < count * type_size type ∧
      (MPI_Send e buf count type dest tag comm).Acts) := by
  have hpos : 0 ≤ count * type_size type := by
    simp only [SendRefused, not_or] at h
    exact Int.mul_nonneg (by omega) (by omega)
  rw [MPI_Send_goes h]
  generalize hN : count * type_size type = N at *
  by_cases hs : Sized N
  · rcases (sized_iff N).1 hs with hgt | ⟨heq, -⟩
    · exact .inl ⟨hs, if_pos hgt⟩
    · rw [heq]
      by_cases hgt : N > MPI_MAX_MESSAGE
      · exact .inl ⟨hs, if_pos hgt⟩
      · rw [if_neg hgt]
        exact .inr (.inl ⟨hs, hpos, by omega, send_raw_exact hpos (by omega) (hbuf hpos (by omega)) hN⟩)
  · have hle : ¬ int32 N > MPI_MAX_MESSAGE := fun hgt => hs ((sized_iff N).2 (.inl hgt))
    rw [if_neg hle]
    refine .inr (.inr ⟨hs, ?_, send_raw_acts⟩)
    simp only [Sized, not_or] at hs
    simp only [MPI_MAX_MESSAGE]
    omega

/-- A call that sends one message and returns what `MPI_Send` does. -/
theorem send_right_iff {α : Type} {code : α → Int} {f : Int → α} (hf : ∀ rc, code (f rc) = rc)
    (hbuf : 0 ≤ count * type_size type → count * type_size type ≤ MPI_MAX_MESSAGE →
      count * type_size type ≤ buf.length) :
    ((MPI_Send e buf count type dest tag comm).bind fun rc => .ret (f rc)).Right (count * type_size type) code ↔
      SendRefused e count type dest tag comm ∨ Sized (count * type_size type) := by
  by_cases hr : SendRefused e count type dest tag comm
  · obtain ⟨rc, hrc, hp⟩ := MPI_Send_refused buf hr
    rw [hp]
    exact iff_of_true (.ret (by rwa [hf])) (.inl hr)
  · rcases MPI_Send_cases hr hbuf with ⟨hs, hp⟩ | ⟨hs, h0, h1, hp⟩ | ⟨hs, hgt, hp⟩
    · rw [hp]
      exact iff_of_true (.ret (by rw [hf]; decide)) (.inr hs)
    · have hex : ((MPI_Send e buf count type dest tag comm).bind fun rc => .ret (f rc)).Exact (count * type_size type)
          fun _ => True := hp.bind fun _ _ => trivial
      exact iff_of_true (hex.right h0 h1) (.inr hs)
    · exact iff_of_false ((hp.bind _).not_right (.inr hgt)) (by tauto)

/-! ## The collectives -/

theorem coll_not_refused {base seq : Nat} (hb : 1 ≤ base) (hb' : base ≤ 4) (he : e.ready = true)
    (hd : 0 ≤ dest ∧ dest < e.size) :
    SendRefused e count type dest (coll_tag base seq) MPI_COMM_WORLD ↔ count < 0 ∨ type_size type < 0 := by
  obtain ⟨h1, h2⟩ := coll_tag_range seq hb hb'
  have hbit : ¬ (coll_tag base seq < 0 ∨ (coll_tag base seq > MPI_TAG_UB ∧
    (coll_tag base seq).toNat &&& 0x40000000 = 0)) := by
    rintro (h | ⟨-, h⟩)
    · simp only [MPI_TAG_UB] at h1
      omega
    · refine bit30_of_gt h1 ?_ h
      simp only [TAG_HELLO, INT_MAX] at h2 ⊢
      omega
  have hd' : ¬ (dest < 0 ∨ dest ≥ e.size) := by omega
  simp only [SendRefused, hbit, hd', he]
  simp

/-- One of the checks of `MPI_Bcast` fails. -/
def BcastRefused (e : Env) (root comm : Int) : Prop := comm ≠ MPI_COMM_WORLD ∨ e.ready = false ∨
    (root < 0 ∨ root ≥ e.size)

/-- The sends of the root of `MPI_Bcast`. -/
theorem bcast_loop_right_iff {seq : Nat} {is : List Nat} (hne : is ≠ []) (he : e.ready = true)
    (his : ∀ i ∈ is, i < e.size)
    (hbuf : 0 ≤ count * type_size type → count * type_size type ≤ MPI_MAX_MESSAGE →
      count * type_size type ≤ buf.length) :
    (Io.forOk (fun i buf => (MPI_Send e buf count type i (coll_tag COLL_BCAST seq) MPI_COMM_WORLD).bind fun rc =>
        .ret (rc, buf)) is buf).Right (count * type_size type) Prod.fst ↔
      count < 0 ∨ type_size type < 0 ∨ Sized (count * type_size type) := by
  obtain ⟨i, is, rfl⟩ := List.exists_cons_of_ne_nil hne
  have href : ∀ j ∈ i :: is, SendRefused e count type j (coll_tag COLL_BCAST seq) MPI_COMM_WORLD ↔
      count < 0 ∨ type_size type < 0 := fun j hj =>
    coll_not_refused (by decide) (by decide) he ⟨by omega, by exact_mod_cast his j hj⟩
  by_cases hr : count < 0 ∨ type_size type < 0
  · obtain ⟨rc, hrc, hp⟩ := MPI_Send_refused buf ((href i (by simp)).2 hr)
    simp only [Io.forOk, hp, Io.bind, if_pos hrc]
    exact iff_of_true (.ret hrc) (by tauto)
  · have hgo : ∀ j ∈ i :: is, ¬ SendRefused e count type j (coll_tag COLL_BCAST seq) MPI_COMM_WORLD :=
      fun j hj h => hr ((href j hj).1 h)
    rcases MPI_Send_cases (hgo i (by simp)) hbuf with ⟨hs, hp⟩ | ⟨hs, h0, h1, -⟩ | ⟨hs, hgt, hp⟩
    · simp only [Io.forOk, hp, Io.bind]
      rw [if_pos (by decide)]
      exact iff_of_true (.ret (by simp)) (by tauto)
    · refine iff_of_true (Exact.right (Exact.forOk (· = buf) (fun j hj b hb => ?_) buf rfl) h0 h1) (by tauto)
      subst hb
      rcases MPI_Send_cases (hgo j hj) hbuf with ⟨-, hp⟩ | ⟨-, -, -, hp⟩ | ⟨hs', -⟩
      · rw [hp]
        rfl
      · exact hp.bind fun _ _ => rfl
      · exact absurd hs hs'
    · exact iff_of_false (((hp.bind _).bind _).not_right (.inr hgt)) (by tauto)

theorem bcast_right_iff (hroot : e.rank = root)
    (hbuf : 0 ≤ count * type_size type → count * type_size type ≤ MPI_MAX_MESSAGE →
      count * type_size type ≤ buf.length) :
    (MPI_Bcast e buf count type root comm).Right (count * type_size type) Prod.fst ↔
      BcastRefused e root comm ∨ if e.size = 1 then 0 ≤ count * type_size type ∧
        count * type_size type ≤ MPI_MAX_MESSAGE
        else count < 0 ∨ type_size type < 0 ∨ Sized (count * type_size type) := by
  by_cases hr : BcastRefused e root comm
  · refine iff_of_true ?_ (.inl hr)
    unfold MPI_Bcast
    split
    · exact .ret (by simp)
    · split
      · exact .ret (by simp)
      · rw [if_pos (by simp_all [BcastRefused])]
        exact .ret (by simp)
  · simp only [hr, false_or]
    simp only [BcastRefused, not_or, not_not, Bool.not_eq_false] at hr
    obtain ⟨rfl, he, hrange⟩ := hr
    unfold MPI_Bcast
    rw [if_neg (by simp), if_neg (by simp [he]), if_neg (by omega), right_coll_seq]
    simp only [hroot, if_true]
    split_ifs with h1
    · -- a single rank sends nothing and does not look at the length
      refine ⟨fun h => ?_, fun h seq => ⟨trivial, fun hN => by omega⟩⟩
      by_contra hN
      exact (h 0).2 (by omega) rfl
    · have hne : ((List.range e.size).filter fun i : Nat => (i : Int) ≠ root) ≠ [] := by
        intro h0
        have hall := List.filter_eq_nil_iff.1 h0
        have hz := hall 0 (List.mem_range.2 (by omega))
        have ho := hall 1 (List.mem_range.2 (by omega))
        simp at hz ho
        omega
      have his : ∀ i ∈ (List.range e.size).filter fun i : Nat => (i : Int) ≠ root, i < e.size := fun i hi =>
        List.mem_range.1 (List.mem_filter.1 hi).1
      refine ⟨fun h => (bcast_loop_right_iff hne he his hbuf).1 (h 0), fun h seq => ?_⟩
      exact (bcast_loop_right_iff hne he his hbuf).2 h

/-- One of the checks of `MPI_Reduce` before that of the length fails. -/
def ReduceRefused (e : Env) (type op root comm : Int) : Prop :=
  comm ≠ MPI_COMM_WORLD ∨ e.ready = false ∨ (root < 0 ∨ root ≥ e.size) ∨ (op < MPI_SUM ∨ op > MPI_MIN) ∨
    type_size type < 0

/-- A pass over buffers that have all the elements stays inside them. -/
theorem reduce_apply_inside {dst : List UInt8} (src : List UInt8) (hop : MPI_SUM ≤ op ∧ op ≤ MPI_MIN)
    (h0 : 0 ≤ count) (hd : count * type_size type ≤ dst.length) (hs : count * type_size type ≤ src.length) :
    ∃ r, reduce_apply dst src count type op = some r ∧ r.2.length = dst.length := by
  by_cases ht : Arithmetic type
  · obtain ⟨T, A, hA, hsize, -, hloop⟩ := arith_of ht
    obtain ⟨n, rfl⟩ := Int.eq_ofNat_of_zero_le h0
    rw [← hsize] at hd hs
    have hd' : n * A.size ≤ dst.length := by exact_mod_cast hd
    have hs' : n * A.size ≤ src.length := by exact_mod_cast hs
    refine ⟨_, (hloop dst src op n).trans (reduce_loop_eq (apply_eq_fn A hop.1 hop.2) n dst src hd' hs'), ?_⟩
    simp only [List.length_append, elementwise_length hA, List.length_drop]
    omega
  · refine ⟨(MPI_ERR_TYPE, dst), ?_, rfl⟩
    simp only [Arithmetic, not_or] at ht
    simp [reduce_apply, ht]

/-- The root of a reduction, when the buffers have room for the product. -/
theorem reduce_root_exact {tag bytes : Int} {is : List Nat} (hty : 0 ≤ type_size type)
    (hop : MPI_SUM ≤ op ∧ op ≤ MPI_MIN) (hN : count * type_size type = bytes) (h0 : 0 ≤ bytes)
    (hmax : bytes ≤ MPI_MAX_MESSAGE) (hsend : bytes ≤ sendbuf.length) (hrecv : bytes ≤ recvbuf.length) :
    (Io.copy (uint64 bytes) <| lift <|
        match memcpy recvbuf sendbuf bytes with
        | none => .fault
        | some recvbuf =>
          .forOk (fun _ recvbuf => .recv_match MPI_ANY_SOURCE tag fun
            | .error rc => .ret (rc, recvbuf)
            | .ok got =>
              if got.data.length ≠ bytes then .ret (MPI_ERR_TRUNCATE, recvbuf)
              else
                match reduce_apply recvbuf got.data count type op with
                | none => .fault
                | some r => .ret r) is recvbuf).Exact bytes fun r => bytes ≤ r.2.length := by
  have hcount : 0 ≤ count := by
    have := (type_size_pos hty).1
    by_contra hneg
    have : count * type_size type < 0 := Int.mul_neg_of_neg_of_pos (by omega) (by omega)
    omega
  refine ⟨uint64_of_nonneg h0 hmax, ?_⟩
  simp only [memcpy, if_pos (show 0 ≤ bytes ∧ bytes ≤ sendbuf.length ∧ bytes ≤ recvbuf.length from ⟨h0, hsend, hrecv⟩),
    lift_forOk]
  refine Exact.forOk (fun b : List UInt8 => bytes ≤ b.length) (fun i _ b hb => ?_) _ ?_
  · intro x
    cases x with
    | error rc => exact hb
    | ok got =>
      dsimp only
      rw [lift_ite]
      split_ifs with hlen
      · exact hb
      · have hgot : bytes ≤ got.data.length := by omega
        obtain ⟨r, hr, hrl⟩ := reduce_apply_inside got.data hop hcount (hN ▸ hb) (hN ▸ hgot)
        rw [hr]
        show bytes ≤ r.2.length
        rw [hrl]
        exact hb
  · simp only [List.length_append, List.length_take, List.length_drop]
    omega

theorem reduce_right_iff
    (hsend : 0 ≤ count * type_size type → count * type_size type ≤ MPI_MAX_MESSAGE →
      count * type_size type ≤ sendbuf.length)
    (hrecv : 0 ≤ count * type_size type → count * type_size type ≤ MPI_MAX_MESSAGE →
      count * type_size type ≤ recvbuf.length) :
    (MPI_Reduce e sendbuf recvbuf count type op root comm).Right (count * type_size type) Prod.fst ↔
      ReduceRefused e type op root comm ∨ ((e.rank : Int) ≠ root ∧ count < 0) ∨ Sized (count * type_size type) := by
  by_cases hr : ReduceRefused e type op root comm
  · refine iff_of_true ?_ (.inl hr)
    unfold MPI_Reduce
    by_cases h1 : comm ≠ MPI_COMM_WORLD
    · rw [if_pos h1]
      exact .ret (by simp)
    rw [if_neg h1]
    by_cases h2 : (!e.ready) = true
    · rw [if_pos h2]
      exact .ret (by simp)
    rw [if_neg h2]
    by_cases h3 : root < 0 ∨ root ≥ e.size
    · rw [if_pos h3]
      exact .ret (by simp)
    rw [if_neg h3]
    by_cases h4 : op < MPI_SUM ∨ op > MPI_MIN
    · rw [if_pos h4]
      exact .ret (by simp)
    rw [if_neg h4]
    obtain h | h | h | h | h := hr
    · exact absurd h h1
    · exact absurd (by simp [h]) h2
    · exact absurd h h3
    · exact absurd h h4
    · rw [if_pos h]
      exact .ret (by simp)
  · simp only [hr, false_or]
    simp only [ReduceRefused, not_or, not_not, Bool.not_eq_false] at hr
    obtain ⟨rfl, he, hrange, hop, hty⟩ := hr
    unfold MPI_Reduce
    rw [if_neg (by simp), if_neg (by simp [he]), if_neg (by omega), if_neg (by omega), if_neg hty]
    split_ifs with hgt hroot
    · exact iff_of_true (.ret (by simp)) (.inr ((sized_iff _).2 (.inl hgt)))
    · have hsr : ∀ seq, ((MPI_Send e sendbuf count type root (coll_tag COLL_REDUCE seq) MPI_COMM_WORLD).bind fun rc =>
          .ret (rc, recvbuf)).Right (count * type_size type) Prod.fst ↔ count < 0 ∨ Sized (count * type_size type) := by
        intro seq
        rw [send_right_iff (fun _ => rfl) hsend, coll_not_refused (by decide) (by decide) he (by omega)]
        simp only [hty, or_false]
      rw [right_coll_seq]
      simp only [hroot, not_false_eq_true, true_and, ne_eq]
      exact ⟨fun h => (hsr 0).1 (h 0), fun h seq => (hsr seq).2 h⟩
    · simp only [hroot, false_and, false_or]
      rw [right_coll_seq]
      refine ⟨fun h => ?_, fun h seq => ?_⟩
      · have hN : 0 ≤ count * type_size type := by
          have := (h 0).1.1
          omega
        have hle : ¬ MPI_MAX_MESSAGE < count * type_size type := fun hlt => (h 0).2 (.inr hlt)
        simp only [MPI_MAX_MESSAGE] at hle
        exact .inl ⟨hN, by omega⟩
      · obtain ⟨hint, h0⟩ : int32 (count * type_size type) = count * type_size type ∧ 0 ≤ count * type_size type :=
          ((sized_iff _).1 h).resolve_left (fun hlt => hgt hlt)
        rw [hint] at hgt ⊢
        have hle : count * type_size type ≤ MPI_MAX_MESSAGE := by omega
        exact (reduce_root_exact (by omega) (by omega) rfl h0 hle (hsend h0 hle) (hrecv h0 hle)).right h0 hle

/-- For every count, datatype and other arguments, where the buffers hold the elements
if these fit a message: `MPI_Send` copies and sends exactly `count * type_size(type)`
bytes, or refuses, exactly if one of its other checks fails or the product is `Sized`;
so does the root of `MPI_Bcast`, except that a single rank accepts any length; and so
does `MPI_Reduce`, where only the ranks other than the root look at the sign of
`count`. -/
theorem send_sizes_exact (e : Env) (count type : Int) (buf : List UInt8)
    (hbuf : 0 ≤ count * type_size type → count * type_size type ≤ MPI_MAX_MESSAGE →
      count * type_size type ≤ buf.length) :
    (∀ dest tag comm, (MPI_Send e buf count type dest tag comm).Right (count * type_size type) id ↔
      SendRefused e count type dest tag comm ∨ Sized (count * type_size type)) ∧
    (∀ root comm, (e.rank : Int) = root → ((MPI_Bcast e buf count type root comm).Right
      (count * type_size type) Prod.fst ↔
      BcastRefused e root comm ∨ if e.size = 1 then 0 ≤ count * type_size type ∧
        count * type_size type ≤ MPI_MAX_MESSAGE
        else count < 0 ∨ type_size type < 0 ∨ Sized (count * type_size type))) ∧
    ∀ op root comm recvbuf, (0 ≤ count * type_size type → count * type_size type ≤ MPI_MAX_MESSAGE →
        count * type_size type ≤ recvbuf.length) →
      ((MPI_Reduce e buf recvbuf count type op root comm).Right (count * type_size type) Prod.fst ↔
        ReduceRefused e type op root comm ∨ ((e.rank : Int) ≠ root ∧ count < 0) ∨ Sized (count * type_size type)) := by
  refine ⟨fun dest tag comm => ?_, fun root comm hroot => bcast_right_iff hroot hbuf,
    fun op root comm recvbuf hrecv => reduce_right_iff hbuf hrecv⟩
  rw [← Io.bind_pure (MPI_Send e buf count type dest tag comm)]
  exact send_right_iff (fun _ => rfl) hbuf

/-- Two elements of type `MPI_INT` are 8 bytes: the sends are right. -/
theorem send_sizes_exact_pair :
    (MPI_Send ⟨0, 2, true⟩ [1, 0, 0, 0, 2, 0, 0, 0] 2 MPI_INT 1 5 MPI_COMM_WORLD).Right 8 id ∧
    (MPI_Bcast ⟨0, 2, true⟩ [1, 0, 0, 0, 2, 0, 0, 0] 2 MPI_INT 0 MPI_COMM_WORLD).Right 8 Prod.fst := by
  obtain ⟨hsend, hbcast, -⟩ := send_sizes_exact ⟨0, 2, true⟩ 2 MPI_INT [1, 0, 0, 0, 2, 0, 0, 0] (by decide)
  have hsized : Sized 8 := .inl (by decide)
  exact ⟨(hsend 1 5 MPI_COMM_WORLD).2 (.inr hsized), (hbcast 0 MPI_COMM_WORLD rfl).2 (.inr (.inr (.inr hsized)))⟩

/-- `2^30` elements of type `MPI_INT`: the product wraps to 0, and `MPI_Send` sends a
frame without payload whose header says `2^30` elements, and returns success. `2^29` of
them: it wraps to a negative number, and `MPI_Send` copies `2^64 - 2^31` bytes. And for
-1 elements the root of `MPI_Reduce` copies `2^64 - 4` bytes. -/
theorem send_sizes_wrap :
    (∃ m k, MPI_Send ⟨0, 2, true⟩ (List.replicate (2 ^ 32) 0) (2 ^ 30) MPI_INT 1 5 MPI_COMM_WORLD = .sendto 1 m k ∧
      m.hdr.count = 2 ^ 30 ∧ m.data = [] ∧ k 16 = .ret MPI_SUCCESS) ∧
    (∃ p, MPI_Send ⟨0, 2, true⟩ (List.replicate (2 ^ 31) 0) (2 ^ 29) MPI_INT 1 5 MPI_COMM_WORLD =
      .copy (2 ^ 64 - 2 ^ 31) p) ∧
    ∃ p : Nat → Io (Int × List UInt8), MPI_Reduce ⟨0, 2, true⟩ [] [] (-1) MPI_INT MPI_SUM 0 MPI_COMM_WORLD =
      .coll_seq fun seq => .copy (2 ^ 64 - 4) (p seq) := by
  have hgo : ∀ c, 0 ≤ c → ¬ SendRefused ⟨0, 2, true⟩ c MPI_INT 1 5 MPI_COMM_WORLD := by
    intro c hc
    simp only [SendRefused, not_or, not_lt]
    exact ⟨by decide, by decide, by decide, hc, by decide, by decide⟩
  have h0 : int32 (2 ^ 30 * type_size MPI_INT) = 0 := by decide
  have h1 : int32 (2 ^ 29 * type_size MPI_INT) = -2 ^ 31 := by decide
  -- neither depends on what is in the buffer
  have hzero : ∀ buf : List UInt8, ∃ m k, MPI_Send ⟨0, 2, true⟩ buf (2 ^ 30) MPI_INT 1 5 MPI_COMM_WORLD =
    .sendto 1 m k ∧
      m.hdr.count = 2 ^ 30 ∧ m.data = [] ∧ k 16 = .ret MPI_SUCCESS := by
    intro buf
    rw [MPI_Send_goes (hgo _ (by decide)), h0, if_neg (by decide), send_raw, if_neg (by decide), Mpi.send_raw,
      dif_pos (by simp)]
    exact ⟨_, _, rfl, rfl, by simp, rfl⟩
  have hneg : ∀ buf : List UInt8, ∃ p, MPI_Send ⟨0, 2, true⟩ buf (2 ^ 29) MPI_INT 1 5 MPI_COMM_WORLD =
      .copy (2 ^ 64 - 2 ^ 31) p := by
    intro buf
    rw [MPI_Send_goes (hgo _ (by decide)), h1, if_neg (by decide), send_raw, if_pos (by decide)]
    exact ⟨_, rfl⟩
  exact ⟨hzero _, hneg _, _, rfl⟩

end Copies

end LibNeoos.Mpi
