import LibNeoos.Mpi.Contract
import LibNeoos.Mpi.World
/-!
# One collective call

What a collective is about, from its arguments alone: the code all ranks
return (`Call.code`), the phases they go through (`Call.elems`), what a message
of a phase holds (`Op.pay`) and what a rank has in its buffer at the end, given
the messages it received (`Op.post`). `code_sat` says that the calls of
`mpi.c` do this for all arguments for which the ranks agree (`Call.benign`).
-/

namespace LibNeoos.Mpi

open LibNeoos.Lib (int32 int32_of_range)
open Prog

/-! ## What all ranks agree on -/

/-- The size of a message as the code computes it. -/
def bytes (count type : Int) : Int := int32 (count * type_size type)

/-- What `MPI_Bcast` returns, when it gets its messages. -/
def bcastCode (n : Nat) (count type root comm : Int) : Int :=
  if comm ≠ MPI_COMM_WORLD then MPI_ERR_COMM
  else if root < 0 ∨ root ≥ n then MPI_ERR_RANK
  else if n ≠ 1 ∧ (count < 0 ∨ type_size type < 0) then argCode count
  else MPI_SUCCESS

/-- What `MPI_Reduce` returns, when it gets its messages. -/
def reduceCode (n : Nat) (count type op root comm : Int) : Int :=
  if comm ≠ MPI_COMM_WORLD then MPI_ERR_COMM
  else if root < 0 ∨ root ≥ n then MPI_ERR_RANK
  else if op < MPI_SUM ∨ op > MPI_MIN then MPI_ERR_OP
  else if type_size type < 0 then MPI_ERR_TYPE
  else if bytes count type > MPI_MAX_MESSAGE then MPI_ERR_COUNT
  else MPI_SUCCESS

/-- The code a collective returns on every rank. -/
def Call.code (n : Nat) : Call → Int
  | .barrier comm => if comm ≠ MPI_COMM_WORLD then MPI_ERR_COMM else MPI_SUCCESS
  | .bcast count type root comm => bcastCode n count type root comm
  | .reduce count type op root comm => reduceCode n count type op root comm
  | .allreduce count type op comm => reduceCode n count type op 0 comm

/-- The phases of a collective, one for each `coll_seq++`. -/
def Call.elems (n : Nat) : Call → List Elem
  | .barrier comm => if comm ≠ MPI_COMM_WORLD ∨ n = 1 then [] else [.barrier]
  | .bcast count type root comm =>
    if comm ≠ MPI_COMM_WORLD ∨ root < 0 ∨ root ≥ n then []
    else if n ≠ 1 ∧ (count < 0 ∨ type_size type < 0) then [.void]
    else [.bcast root.toNat (bytes count type).toNat]
  | .reduce count type op root comm =>
    if reduceCode n count type op root comm ≠ MPI_SUCCESS then []
    else [.reduce root.toNat (bytes count type).toNat]
  | .allreduce count type op comm =>
    if reduceCode n count type op 0 comm ≠ MPI_SUCCESS then []
    else [.reduce 0 (bytes count type).toNat, .bcast 0 (bytes count type).toNat]

/-- What a reduction needs: elements with arithmetic, in one message. -/
def Summable (count type : Int) : Prop :=
  Arithmetic type ∧ 0 ≤ count ∧ count * type_size type ≤ MPI_MAX_MESSAGE

instance (count type : Int) : Decidable (Summable count type) := inferInstanceAs (Decidable (_ ∧ _))

/-- The ranks refuse the call alike, or carry it out alike. -/
def Call.benign (n : Nat) (c : Call) : Prop :=
  c.code n = MPI_SUCCESS →
    match c with
    | .barrier _ => True
    | .bcast count type _ _ => n = 1 ∨ (0 ≤ bytes count type ∧ bytes count type ≤ MPI_MAX_MESSAGE)
    | .reduce count type _ _ _ => (n = 1 ∧ 0 ≤ bytes count type) ∨ Summable count type
    | .allreduce count type _ _ => (n = 1 ∧ 0 ≤ bytes count type) ∨ Summable count type

instance (n : Nat) : (c : Call) → Decidable (c.benign n)
  | .barrier _ => inferInstanceAs (Decidable (_ → True))
  | .bcast .. => inferInstanceAs (Decidable (_ → _ ∨ _ ∧ _))
  | .reduce .. => inferInstanceAs (Decidable (_ → _ ∧ _ ∨ Summable _ _))
  | .allreduce .. => inferInstanceAs (Decidable (_ → _ ∧ _ ∨ Summable _ _))

/-- The buffers of a call that is carried out hold its elements. -/
def Op.Fits (n r : Nat) : Op → Prop
  | .bcast buf count type root comm =>
    bcastCode n count type root comm = MPI_SUCCESS → n ≠ 1 → bytes count type ≤ buf.length
  | .reduce sendbuf recvbuf count type op root comm =>
    reduceCode n count type op root comm = MPI_SUCCESS →
      bytes count type ≤ sendbuf.length ∧ ((r : Int) = root → bytes count type ≤ recvbuf.length)
  | .allreduce sendbuf recvbuf count type op comm =>
    reduceCode n count type op 0 comm = MPI_SUCCESS →
      bytes count type ≤ sendbuf.length ∧ bytes count type ≤ recvbuf.length
  | _ => True

instance (n r : Nat) : (op : Op) → Decidable (op.Fits n r)
  | .send .. => inferInstanceAs (Decidable True)
  | .recv .. => inferInstanceAs (Decidable True)
  | .barrier .. => inferInstanceAs (Decidable True)
  | .bcast .. => inferInstanceAs (Decidable (_ → _ → _ ≤ _))
  | .reduce .. => inferInstanceAs (Decidable (_ → _ ≤ _ ∧ (_ → _ ≤ _)))
  | .allreduce .. => inferInstanceAs (Decidable (_ → _ ≤ _ ∧ _ ≤ _))

/-! ## Messages and results -/

/-- What a message of a phase holds. The second phase of an `MPI_Allreduce`
sends what the first one computed. -/
def Op.pay : Op → Pay
  | .barrier _, .barrier, _, d => d.length ≤ 1
  | .bcast buf _ _ _ _, .bcast _ len, _, d => d = buf.take len
  | .reduce sendbuf _ _ _ _ _ _, .reduce _ len, _, d => d = sendbuf.take len
  | .allreduce sendbuf _ _ _ _ _, .reduce _ len, _, d => d = sendbuf.take len
  | .allreduce sendbuf _ count type op _, .bcast _ len, old, d =>
    d = fold type op count.toNat (sendbuf.take len :: old)
  | _, _, _, _ => False

/-- What a collective that is carried out leaves in the buffer, given the
contents of the messages received. -/
def Op.result (r : Nat) : Op → List UInt8 → List (List UInt8) → Prop
  | .barrier _, b, _ => b = []
  | .bcast buf _ _ root _, b, ms =>
    ((r : Int) = root → b = buf) ∧ ((r : Int) ≠ root → ∃ d, ms = [d] ∧ b = d ++ buf.drop d.length)
  | .reduce sendbuf recvbuf count type op root _, b, ms =>
    ((r : Int) = root → b = fold type op count.toNat (sendbuf.take (bytes count type).toNat :: ms) ++
      recvbuf.drop (bytes count type).toNat) ∧ ((r : Int) ≠ root → b = recvbuf)
  | .allreduce sendbuf recvbuf count type op _, b, ms =>
    (r = 0 → b = fold type op count.toNat (sendbuf.take (bytes count type).toNat :: ms) ++
      recvbuf.drop (bytes count type).toNat) ∧ (r ≠ 0 → ∃ d, ms = [d] ∧ b = d ++ recvbuf.drop d.length)
  | _, _, _ => True

/-- The buffer a call writes to. -/
def Op.out : Op → List UInt8
  | .send .. => []
  | .recv buf .. => buf
  | .barrier _ => []
  | .bcast buf .. => buf
  | .reduce _ recvbuf .. => recvbuf
  | .allreduce _ recvbuf .. => recvbuf

/-- How a collective ends: all ranks return its code, and a call that is refused
leaves the buffer as it was. -/
def Op.post (n r : Nat) (op : Op) (a : Ret) (ms : List (List UInt8)) : Prop :=
  ∀ c, op.call = some c →
    a.rc = c.code n ∧ (c.code n = MPI_SUCCESS → op.result r a.buf ms) ∧ (c.code n ≠ MPI_SUCCESS → a.buf = op.out)

section
variable {n r : Nat} {count type op root comm : Int}

theorem bcastCode_success (h : bcastCode n count type root comm = MPI_SUCCESS) :
    comm = MPI_COMM_WORLD ∧ 0 ≤ root ∧ root < n ∧ (n ≠ 1 → 0 ≤ count ∧ 0 ≤ type_size type) := by
  have hcode : argCode count ≠ MPI_SUCCESS := by unfold argCode; split <;> simp
  unfold bcastCode at h
  split_ifs at h with h1 h2 h3
  · simp at h
  · simp at h
  · exact absurd h hcode
  · refine ⟨by omega, by omega, by omega, fun hn => ?_⟩
    push Not at h3
    exact h3 hn

theorem reduceCode_success (h : reduceCode n count type op root comm = MPI_SUCCESS) :
    comm = MPI_COMM_WORLD ∧ 0 ≤ root ∧ root < n ∧ MPI_SUM ≤ op ∧ op ≤ MPI_MIN ∧ 0 ≤ type_size type ∧
      bytes count type ≤ MPI_MAX_MESSAGE := by
  unfold reduceCode at h
  split_ifs at h with h1 h2 h3 h4 h5
  all_goals first | (simp at h; done) | skip
  exact ⟨by omega, by omega, by omega, by omega, by omega, by omega, by omega⟩

/-- The size of a reduction's message is computed without wrapping. -/
theorem Summable.bytes_eq (h : Summable count type) : bytes count type = count * type_size type ∧
    0 ≤ bytes count type ∧ bytes count type ≤ MPI_MAX_MESSAGE := by
  obtain ⟨h1, h2, h3⟩ := h
  have hty : 0 ≤ type_size type := by rcases h1 with rfl | rfl | rfl <;> decide
  have h4 : 0 ≤ count * type_size type := Int.mul_nonneg h2 hty
  simp only [MPI_MAX_MESSAGE] at h3 ⊢
  rw [bytes, int32_of_range (by omega) (by omega)]
  exact ⟨rfl, h4, h3⟩

theorem MPI_Bcast_refused (e : Env) {buf : List UInt8} (he : e.ready = true)
    (h : comm ≠ MPI_COMM_WORLD ∨ root < 0 ∨ root ≥ e.size) :
    MPI_Bcast e buf count type root comm = .ret (bcastCode e.size count type root comm, buf) := by
  simp only [MPI_Bcast, Copies.MPI_Bcast, Io.forget_ite, Io.forget_ret, Io.forget_coll_seq, Io.forget_forOk,
    Io.forget_bind, Io.forget_lift, Copies.forget_MPI_Send]
  unfold bcastCode
  by_cases h1 : comm ≠ MPI_COMM_WORLD
  · rw [if_pos h1, if_pos h1]
  · rw [if_neg h1, if_neg h1, if_neg (by simp [he]), if_pos (h.resolve_left h1), if_pos (h.resolve_left h1)]

theorem MPI_Reduce_refused (e : Env) {sendbuf recvbuf : List UInt8} (he : e.ready = true)
    (h : reduceCode e.size count type op root comm ≠ MPI_SUCCESS) :
    MPI_Reduce e sendbuf recvbuf count type op root comm =
      .ret (reduceCode e.size count type op root comm, recvbuf) := by
  unfold reduceCode at h ⊢
  simp only [MPI_Reduce, Copies.MPI_Reduce, Io.forget_ite, Io.forget_ret, Io.forget_coll_seq, Io.forget_bind,
    Io.forget_copy, Io.forget_lift, Copies.forget_MPI_Send]
  by_cases h1 : comm ≠ MPI_COMM_WORLD
  · rw [if_pos h1, if_pos h1]
  rw [if_neg h1] at h ⊢
  rw [if_neg h1, if_neg (show ¬ (!e.ready) = true by simp [he])]
  by_cases h2 : root < 0 ∨ root ≥ e.size
  · rw [if_pos h2, if_pos h2]
  rw [if_neg h2] at h ⊢
  rw [if_neg h2]
  by_cases h3 : op < MPI_SUM ∨ op > MPI_MIN
  · rw [if_pos h3, if_pos h3]
  rw [if_neg h3] at h ⊢
  rw [if_neg h3]
  by_cases h4 : type_size type < 0
  · rw [if_pos h4, if_pos h4]
  rw [if_neg h4] at h ⊢
  rw [if_neg h4]
  by_cases h5 : bytes count type > MPI_MAX_MESSAGE
  · rw [if_pos h5]
    exact if_pos h5
  · rw [if_neg h5] at h
    exact absurd rfl h

end

/-! ## The calls do this -/

section
variable {n r : Nat} {e : Elem} {q : Nat}

/-- How the program of a call is used: it makes the sends and receives of its
phases and ends as `Op.post` says. -/
def Op.Done (n r : Nat) (op : Op) (a : Ret) (σ : Pos) : Prop :=
  σ.acts = [] ∧ σ.rest = [] ∧ op.post n r a (σ.old ++ σ.cur)

theorem barrier_code_sat {comm : Int} (hn : 0 < n) (hr : r < n) :
    (Op.code ⟨r, n, true⟩ (.barrier comm)).Sat n r (Op.pay (.barrier comm)) (·.rc ≠ MPI_SUCCESS)
      (Op.Done n r (.barrier comm)) ⟨e, q, [], (Call.barrier comm).elems n, [], []⟩ := by
  simp only [Op.code]
  by_cases h : comm ≠ MPI_COMM_WORLD ∨ n = 1
  · -- no message: refused, or alone
    have hret : MPI_Barrier ⟨r, n, true⟩ comm = .ret ((Call.barrier comm).code n) := by
      show _ = Prog.ret (if comm ≠ MPI_COMM_WORLD then MPI_ERR_COMM else MPI_SUCCESS)
      unfold MPI_Barrier
      by_cases h1 : comm ≠ MPI_COMM_WORLD
      · rw [if_pos h1, if_pos h1]
      · rw [if_neg h1, if_neg h1, if_neg (by simp), if_pos (h.resolve_left h1)]
    rw [hret]
    refine ⟨rfl, by simp only [Call.elems, if_pos h], ?_⟩
    rintro c ⟨⟩
    exact ⟨rfl, fun _ => rfl, fun _ => rfl⟩
  · obtain ⟨h1, h2⟩ := not_or.1 h
    obtain rfl : comm = MPI_COMM_WORLD := not_not.1 h1
    refine Sat.map (barrier_sat (by omega) hr rfl (by simp [Call.elems, h2]; rfl) (fun old d hd => hd) fun cur => ?_)
      (fun a σ' h => h) fun a h => h
    refine ⟨rfl, rfl, ?_⟩
    rintro c ⟨⟩
    exact ⟨by simp [Call.code], fun _ => rfl, fun _ => rfl⟩

theorem bcast_code_sat {buf : List UInt8} {count type root comm : Int} (hr : r < n)
    (hb : (Call.bcast count type root comm).benign n) (hf : (Op.bcast buf count type root comm).Fits n r) :
    (Op.code ⟨r, n, true⟩ (.bcast buf count type root comm)).Sat n r (Op.pay (.bcast buf count type root comm))
      (·.rc ≠ MPI_SUCCESS) (Op.Done n r (.bcast buf count type root comm))
      ⟨e, q, [], (Call.bcast count type root comm).elems n, [], []⟩ := by
  have hpost : ∀ b ms, (bcastCode n count type root comm = MPI_SUCCESS →
      (Op.bcast buf count type root comm).result r b ms) →
      (bcastCode n count type root comm ≠ MPI_SUCCESS → b = buf) →
      (Op.bcast buf count type root comm).post n r ⟨bcastCode n count type root comm, b, none⟩ ms := by
    rintro b ms h h' c ⟨⟩
    exact ⟨rfl, h, h'⟩
  simp only [Op.code]
  by_cases h : comm ≠ MPI_COMM_WORLD ∨ root < 0 ∨ root ≥ n
  · rw [MPI_Bcast_refused ⟨r, n, true⟩ rfl h]
    refine ⟨rfl, by simp only [Call.elems, if_pos h], hpost _ _ (fun hs => ?_) fun _ => rfl⟩
    obtain ⟨h1, h2, h3, -⟩ := bcastCode_success hs
    omega
  · obtain ⟨h1, h2⟩ := not_or.1 h
    obtain rfl : comm = MPI_COMM_WORLD := not_not.1 h1
    lift root to Nat using (by omega)
    have hroot : root < n := by omega
    by_cases hargs : n ≠ 1 ∧ (count < 0 ∨ type_size type < 0)
    · have hcode : bcastCode n count type root MPI_COMM_WORLD = argCode count := by
        unfold bcastCode
        rw [if_neg h1, if_neg h2, if_pos hargs]
      refine Sat.map (bcast_void_sat hargs.1 hroot hargs.2 rfl (by simp only [Call.elems, if_neg h, if_pos hargs]; rfl)
        ?_) (fun a σ' h => h) fun a h => h
      refine ⟨rfl, rfl, ?_⟩
      rw [← hcode]
      refine hpost _ _ (fun hs => ?_) fun _ => rfl
      have := (bcastCode_success hs).2.2.2 hargs.1
      omega
    · have hcode : bcastCode n count type root MPI_COMM_WORLD = MPI_SUCCESS := by
        unfold bcastCode
        rw [if_neg h1, if_neg h2, if_neg hargs]
      have hlen : n ≠ 1 → 0 ≤ count ∧ 0 ≤ type_size type ∧ bytes count type = (bytes count type).toNat ∧
          (bytes count type).toNat ≤ MPI_MAX_MESSAGE ∧ (bytes count type).toNat ≤ buf.length := by
        intro hn
        have h3 := (bcastCode_success hcode).2.2.2 hn
        have h4 := (hb hcode).resolve_left hn
        have h5 := hf hcode hn
        simp only [MPI_MAX_MESSAGE] at h4 ⊢
        exact ⟨h3.1, h3.2, by omega, by omega, by omega⟩
      refine Sat.map (bcast_sat hr hroot hlen rfl (by simp only [Call.elems, if_neg h, if_neg hargs]; rfl)
        (fun _ _ => rfl) (fun hrr => ?_) fun hrr d hd => ?_) (fun a σ' h => h) fun a h => h
      · refine ⟨rfl, rfl, ?_⟩
        rw [← hcode]
        exact hpost _ _ (fun _ => ⟨fun _ => rfl, fun h => absurd (congrArg Nat.cast hrr) h⟩) fun h => absurd hcode h
      · refine ⟨rfl, rfl, ?_⟩
        rw [← hcode]
        exact hpost _ _ (fun _ => ⟨fun h => absurd (by exact_mod_cast h) hrr, fun _ => ⟨d, rfl, rfl⟩⟩)
          fun h => absurd hcode h

/-- What the arguments of a reduction that is carried out give. -/
theorem reduce_args {count type op root comm : Int} {sendbuf : List UInt8}
    (hcode : reduceCode n count type op root comm = MPI_SUCCESS)
    (hb : (n = 1 ∧ 0 ≤ bytes count type) ∨ Summable count type) (hs : bytes count type ≤ sendbuf.length) :
    bytes count type = (bytes count type).toNat ∧ (bytes count type).toNat ≤ MPI_MAX_MESSAGE ∧
      (bytes count type).toNat ≤ sendbuf.length ∧
      (n ≠ 1 → Arithmetic type ∧ 0 ≤ count ∧ ((bytes count type).toNat : Int) = count * type_size type) := by
  have h0 : 0 ≤ bytes count type := by
    rcases hb with hb | hb
    · exact hb.2
    · exact hb.bytes_eq.2.1
  have h1 := (reduceCode_success hcode).2.2.2.2.2.2
  simp only [MPI_MAX_MESSAGE] at h1 ⊢
  refine ⟨by omega, by omega, by omega, fun hn => ?_⟩
  have hsum := hb.resolve_left (by omega)
  exact ⟨hsum.1, hsum.2.1, by rw [← hsum.bytes_eq.1]; omega⟩

theorem reduce_code_sat {sendbuf recvbuf : List UInt8} {count type op root comm : Int} (hr : r < n)
    (hb : (Call.reduce count type op root comm).benign n)
    (hf : (Op.reduce sendbuf recvbuf count type op root comm).Fits n r) :
    (Op.code ⟨r, n, true⟩ (.reduce sendbuf recvbuf count type op root comm)).Sat n r
      (Op.pay (.reduce sendbuf recvbuf count type op root comm)) (·.rc ≠ MPI_SUCCESS)
      (Op.Done n r (.reduce sendbuf recvbuf count type op root comm))
      ⟨e, q, [], (Call.reduce count type op root comm).elems n, [], []⟩ := by
  have hpost : ∀ b ms, (reduceCode n count type op root comm = MPI_SUCCESS →
      (Op.reduce sendbuf recvbuf count type op root comm).result r b ms) →
      (reduceCode n count type op root comm ≠ MPI_SUCCESS → b = recvbuf) →
      (Op.reduce sendbuf recvbuf count type op root comm).post n r
        ⟨reduceCode n count type op root comm, b, none⟩ ms := by
    rintro b ms h h' c ⟨⟩
    exact ⟨rfl, h, h'⟩
  simp only [Op.code]
  by_cases hcode : reduceCode n count type op root comm = MPI_SUCCESS
  · obtain ⟨rfl, h1, h2, h3, h4, h5, -⟩ := reduceCode_success hcode
    lift root to Nat using h1
    obtain ⟨hs, hv⟩ := hf hcode
    obtain ⟨hlen, hmax, hsend, hargs⟩ := reduce_args hcode (hb hcode) hs
    refine Sat.map (reduce_sat hr (by omega) h3 h4 h5 hlen hmax hsend (fun h => ?_) hargs rfl
      (by simp only [Call.elems, hcode, ne_eq, not_true, if_false]; rfl) rfl (fun hrr cur => ?_) fun hrr => ?_)
      (fun a σ' h => h) fun a h => h
    · have := hv (by exact_mod_cast h)
      omega
    · refine ⟨rfl, rfl, ?_⟩
      rw [← hcode]
      exact hpost _ _ (fun _ => ⟨fun _ => rfl, fun h => absurd (congrArg Nat.cast hrr) h⟩) fun h => absurd hcode h
    · refine ⟨rfl, rfl, ?_⟩
      rw [← hcode]
      exact hpost _ _ (fun _ => ⟨fun h => absurd (by exact_mod_cast h) hrr, fun _ => rfl⟩) fun h => absurd hcode h
  · rw [MPI_Reduce_refused ⟨r, n, true⟩ rfl hcode]
    exact ⟨rfl, by simp only [Call.elems, hcode, ne_eq, not_false_eq_true, if_true],
      hpost _ _ (fun hs => absurd hs hcode) fun _ => rfl⟩

theorem allreduce_code_sat {sendbuf recvbuf : List UInt8} {count type op comm : Int} (hr : r < n)
    (hb : (Call.allreduce count type op comm).benign n)
    (hf : (Op.allreduce sendbuf recvbuf count type op comm).Fits n r) :
    (Op.code ⟨r, n, true⟩ (.allreduce sendbuf recvbuf count type op comm)).Sat n r
      (Op.pay (.allreduce sendbuf recvbuf count type op comm)) (·.rc ≠ MPI_SUCCESS)
      (Op.Done n r (.allreduce sendbuf recvbuf count type op comm))
      ⟨e, q, [], (Call.allreduce count type op comm).elems n, [], []⟩ := by
  have hpost : ∀ b ms, (reduceCode n count type op 0 comm = MPI_SUCCESS →
      (Op.allreduce sendbuf recvbuf count type op comm).result r b ms) →
      (reduceCode n count type op 0 comm ≠ MPI_SUCCESS → b = recvbuf) →
      (Op.allreduce sendbuf recvbuf count type op comm).post n r ⟨reduceCode n count type op 0 comm, b, none⟩ ms := by
    rintro b ms h h' c ⟨⟩
    exact ⟨rfl, h, h'⟩
  simp only [Op.code]
  by_cases hcode : reduceCode n count type op 0 comm = MPI_SUCCESS
  · obtain ⟨rfl, -, -, h3, h4, h5, -⟩ := reduceCode_success hcode
    obtain ⟨hs, hv⟩ := hf hcode
    obtain ⟨hlen, hmax, hsend, hargs⟩ := reduce_args hcode (hb hcode) hs
    refine Sat.map (allreduce_sat hr h3 h4 h5 hlen hmax hsend (by omega) hargs rfl
      (by simp only [Call.elems, hcode, ne_eq, not_true, if_false]; rfl) rfl rfl rfl (fun cur => rfl)
        (fun hrr cur => ?_)
      fun hrr d hd => ?_) (fun a σ' h => h) fun a h => h
    · refine ⟨rfl, rfl, ?_⟩
      rw [← hcode]
      exact hpost _ _ (fun _ => ⟨fun _ => by simp, fun h => absurd hrr h⟩) fun h => absurd hcode h
    · refine ⟨rfl, rfl, ?_⟩
      rw [← hcode]
      exact hpost _ _ (fun _ => ⟨fun h => absurd h hrr, fun _ => ⟨d, rfl, rfl⟩⟩) fun h => absurd hcode h
  · have hret : MPI_Allreduce ⟨r, n, true⟩ sendbuf recvbuf count type op comm =
        .ret (reduceCode n count type op 0 comm, recvbuf) := by
      unfold MPI_Allreduce
      rw [MPI_Reduce_refused ⟨r, n, true⟩ rfl hcode, Prog.bind_ret, if_pos hcode]
    rw [hret]
    exact ⟨rfl, by simp only [Call.elems, hcode, ne_eq, not_false_eq_true, if_true],
      hpost _ _ (fun hs => absurd hs hcode) fun _ => rfl⟩

/-- A collective makes the sends and receives of its phases and no others, and
ends as `Op.post` says. -/
theorem code_sat {op : Op} {c : Call} (hc : op.call = some c) (hb : c.benign n) (hf : op.Fits n r) (hr : r < n) :
    (op.code ⟨r, n, true⟩).Sat n r op.pay (·.rc ≠ MPI_SUCCESS) (op.Done n r) ⟨e, q, [], c.elems n, [], []⟩ := by
  cases op with
  | send => cases hc
  | recv => cases hc
  | barrier => cases hc; exact barrier_code_sat (by omega) hr
  | bcast => cases hc; exact bcast_code_sat hr hb hf
  | reduce => cases hc; exact reduce_code_sat hr hb hf
  | allreduce => cases hc; exact allreduce_code_sat hr hb hf

/-- What a call sends is what the other ranks expect. -/
theorem pay_good {op : Op} {c : Call} (hc : op.call = some c) (hb : c.benign n) (hf : op.Fits n r) (hn : n ≠ 1)
    (he : e ∈ c.elems n) {old : List (List UInt8)} {d : List UInt8} (hp : op.pay e old d) : e.Good d := by
  cases op with
  | send => cases hc
  | recv => cases hc
  | barrier comm =>
    cases hc
    cases e <;> first | exact hp | exact hp.elim
  | bcast buf count type root comm =>
    cases hc
    cases e with
    | bcast root' len =>
      replace hp : d = buf.take len := hp
      show d.length ≤ len
      rw [hp]
      exact List.length_take_le _ _
    | _ => exact hp.elim
  | reduce sendbuf recvbuf count type op root comm =>
    cases hc
    simp only [Call.elems] at he
    split_ifs at he with hcode
    · simp at he
    · replace hcode := not_not.1 hcode
      obtain ⟨-, -, hsend, -⟩ := reduce_args hcode (hb hcode) (hf hcode).1
      simp only [List.mem_singleton] at he
      subst he
      replace hp : d = sendbuf.take _ := hp
      show d.length = _
      rw [hp, List.length_take, Nat.min_eq_left hsend]
  | allreduce sendbuf recvbuf count type op comm =>
    cases hc
    simp only [Call.elems] at he
    split_ifs at he with hcode
    · simp at he
    · replace hcode := not_not.1 hcode
      obtain ⟨-, -, hsend, hargs⟩ := reduce_args hcode (hb hcode) (hf hcode).1
      obtain ⟨ha, hc, hl⟩ := hargs hn
      simp only [List.mem_cons, List.not_mem_nil, or_false] at he
      rcases he with rfl | rfl
      · replace hp : d = sendbuf.take _ := hp
        show d.length = _
        rw [hp, List.length_take, Nat.min_eq_left hsend]
      · replace hp : d = fold _ _ _ (sendbuf.take _ :: old) := hp
        show d.length ≤ _
        have h2 := @fold_length type op count.toNat ha (sendbuf.take (bytes count type).toNat) old
          (by rw [Int.toNat_of_nonneg hc, ← hl, List.length_take, Nat.min_eq_left hsend])
        rw [Int.toNat_of_nonneg hc, ← hl] at h2
        rw [hp]
        exact_mod_cast h2.le

end

end LibNeoos.Mpi
