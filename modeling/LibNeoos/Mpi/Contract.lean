import LibNeoos.Lib.Phased
import LibNeoos.Mpi.Fold
/-!
# What the collectives do, one message after the other

A collective call goes through one or two phases (`Elem`), one for each
`coll_seq++`. In a phase a rank has a fixed list of sends and receives.
`Prog.Sat` says of a program that from a given point on it makes exactly the
sends and receives that are left, that what it sends is right, and what it
returns; a message of a size the phase does not have ends the call with an
error. There is one lemma for each call; rules for sequences and loops put
them together.
-/

namespace LibNeoos.Mpi

open LibNeoos.Lib (int32 INT_MAX)
open LibNeoos.Lib.Phased (Act)

/-! ## Phases -/

/-- A phase of a collective, with the number of bytes of its messages. In a
`void` phase nobody sends or receives. -/
inductive Elem where
  | barrier
  | bcast (root len : Nat)
  | reduce (root len : Nat)
  | void
  deriving DecidableEq

/-- What rank `r` of `n` does in a phase. -/
def Elem.acts (n r : Nat) : Elem → List (Act Nat)
  | .barrier =>
    if r = 0 then List.replicate (n - 1) (.recv none) ++ (List.range' 1 (n - 1)).map .send
    else [.send 0, .recv (some 0)]
  | .bcast root _ => if r = root then ((List.range n).filter (· ≠ root)).map .send else [.recv (some root)]
  | .reduce root _ => if r = root then List.replicate (n - 1) (.recv none) else [.send root]
  | .void => []

/-- The operation in the tag of the messages for rank `r`. -/
def Elem.base (r : Nat) : Elem → Nat
  | .barrier => if r = 0 then COLL_BARRIER_IN else COLL_BARRIER_OUT
  | .bcast .. => COLL_BCAST
  | .reduce .. => COLL_REDUCE
  | .void => 0

/-- The messages a phase goes on with. -/
def Elem.Good : Elem → List UInt8 → Prop
  | .barrier, d => d.length ≤ 1
  | .bcast _ len, d => d.length ≤ len
  | .reduce _ len, d => d.length = len
  | .void, _ => False

/-- Where a call is: its phase, the number of the phase, the acts left in it,
the phases after it, and the contents of the messages received in earlier
phases of the call and in this one. -/
structure Pos where
  elem : Elem
  q : Nat
  acts : List (Act Nat)
  rest : List Elem
  old : List (List UInt8)
  cur : List (List UInt8)

/-- The source argument of a receive. -/
def selector : Option Nat → Int
  | none => MPI_ANY_SOURCE
  | some x => x

/-- What a message of a phase may hold, given what earlier phases received. -/
abbrev Pay : Type := Elem → List (List UInt8) → List UInt8 → Prop

namespace Prog
variable {α β : Type} {n r : Nat} {pay : Pay}

/-- The program makes the sends and receives that are left at `σ` and no
others. It ends with `post`, or with `bad` after a message of a wrong size. -/
def Sat (n r : Nat) (pay : Pay) (bad : α → Prop) (post : α → Pos → Prop) : Prog α → Pos → Prop
  | .ret a, σ => post a σ
  | .fault, _ => False
  | .coll_seq k, σ => σ.acts = [] ∧ ∃ e es, σ.rest = e :: es ∧ ∀ seq, seq % 2 ^ 24 = (σ.q + 1) % 2 ^ 24 →
      (k seq).Sat n r pay bad post ⟨e, σ.q + 1, e.acts n r, es, σ.old ++ σ.cur, []⟩
  | .sendto d m k, σ => ∃ as, σ.acts = .send d :: as ∧ m.hdr.tag = coll_tag (σ.elem.base d) σ.q ∧
      pay σ.elem σ.old m.data ∧ ∀ j, 0 ≤ j → (k j).Sat n r pay bad post { σ with acts := as }
  | .recv_match source tag k, σ => ∃ src as, σ.acts = .recv src :: as ∧ source = selector src ∧
      tag = coll_tag (σ.elem.base r) σ.q ∧ ∀ m : Datagram,
        (σ.elem.Good m.data → (k (.ok m)).Sat n r pay bad post { σ with acts := as, cur := σ.cur ++ [m.data] }) ∧
        (¬ σ.elem.Good m.data → ∃ a, k (.ok m) = .ret a ∧ bad a)

variable {bad : α → Prop} {bad' : β → Prop} {post : α → Pos → Prop} {post' : β → Pos → Prop} {σ : Pos}

theorem Sat.bind {p : Prog α} {f : α → Prog β} (hp : p.Sat n r pay bad post σ)
    (hf : ∀ a σ', post a σ' → (f a).Sat n r pay bad' post' σ')
    (hbad : ∀ a, bad a → ∃ b, f a = .ret b ∧ bad' b) : (p.bind f).Sat n r pay bad' post' σ := by
  induction p generalizing σ with
  | ret a => exact hf a σ hp
  | fault => exact hp
  | coll_seq k ih =>
    obtain ⟨h1, e, es, h2, h3⟩ := hp
    exact ⟨h1, e, es, h2, fun seq hs => ih seq (h3 seq hs)⟩
  | sendto d m k ih =>
    obtain ⟨as, h1, h2, h3, h4⟩ := hp
    exact ⟨as, h1, h2, h3, fun j hj => ih j (h4 j hj)⟩
  | recv_match s t k ih =>
    obtain ⟨src, as, h1, h2, h3, h4⟩ := hp
    refine ⟨src, as, h1, h2, h3, fun m => ⟨fun hg => ih _ ((h4 m).1 hg), fun hg => ?_⟩⟩
    obtain ⟨a, ha, hb⟩ := (h4 m).2 hg
    obtain ⟨b, hb1, hb2⟩ := hbad a hb
    exact ⟨b, by simpa only [ha, Prog.bind_ret] using hb1, hb2⟩

/-- A call whose result is only repacked. -/
theorem Sat.map {p : Prog α} {g : α → β} (hp : p.Sat n r pay bad post σ) (h : ∀ a σ', post a σ' → post' (g a) σ')
    (hbad : ∀ a, bad a → bad' (g a)) : (p.bind fun a => .ret (g a)).Sat n r pay bad' post' σ :=
  hp.bind h fun a ha => ⟨g a, rfl, hbad a ha⟩

theorem Sat.mono {p : Prog α} {bad' : α → Prop} {post' : α → Pos → Prop} (hp : p.Sat n r pay bad post σ)
    (h : ∀ a σ', post a σ' → post' a σ') (hbad : ∀ a, bad a → bad' a) : p.Sat n r pay bad' post' σ := by
  have := hp.bind (f := .ret) h fun a ha => ⟨a, rfl, hbad a ha⟩
  rwa [Prog.bind_pure] at this

/-- A loop that stops at the first error keeps `I`, a property of what is left
to go through, of the loop's state and of the position. -/
theorem Sat.forOk {body : Nat → β → Prog (Int × β)} (I : List Nat → β → Pos → Prop)
    (h : ∀ i is b σ, I (i :: is) b σ →
      (body i b).Sat n r pay (fun x => x.1 ≠ MPI_SUCCESS) (fun x σ' => x.1 = MPI_SUCCESS ∧ I is x.2 σ') σ)
    (is : List Nat) : ∀ b σ, I is b σ →
      (Prog.forOk body is b).Sat n r pay (fun x => x.1 ≠ MPI_SUCCESS) (fun x σ' => x.1 = MPI_SUCCESS ∧
        I [] x.2 σ') σ := by
  induction is with
  | nil => exact fun b σ hI => ⟨rfl, hI⟩
  | cons i is ih =>
    intro b σ hI
    refine (h i is b σ hI).bind (fun x σ' hx => ?_) fun x hx => ?_
    · rw [if_neg (by simp [hx.1])]
      exact ih x.2 σ' hx.2
    · exact ⟨x, by rw [if_pos hx], hx⟩

end Prog

/-! ## Sends and receives -/

theorem coll_tag_congr {base q q' : Nat} (hb : base < 63) (h : q % 2 ^ 24 = q' % 2 ^ 24) :
    coll_tag base q = coll_tag base q' := by
  rw [coll_tag_eq base q hb, coll_tag_eq base q' hb, h]

/-- Every `int` above `MPI_TAG_UB` has bit 30 set. -/
theorem bit30_of_gt {t : Int} (h : MPI_TAG_UB < t) (h' : t ≤ INT_MAX) : t.toNat &&& 0x40000000 ≠ 0 := by
  have h1 : t.toNat.testBit 30 = true := by
    rw [Nat.testBit_eq_decide_div_mod_eq]
    simp at h h' ⊢
    omega
  intro h2
  have h3 : (t.toNat &&& 2 ^ 30).testBit 30 = true := by rw [Nat.testBit_and, h1, Nat.testBit_two_pow_self]; rfl
  rw [show (2 : Nat) ^ 30 = 0x40000000 from rfl, h2] at h3
  simp at h3

section
variable {e : Env} {buf : List UInt8} {count type tag : Int} {len : Nat}

/-- No `int` that is not negative fails the check of the tag. -/
theorem tag_accepted {tag : Int} (ht : 0 ≤ tag) (ht' : tag ≤ INT_MAX) :
    ¬ (tag < 0 ∨ (tag > MPI_TAG_UB ∧ tag.toNat &&& 0x40000000 = 0)) := by
  rintro (h | ⟨h1, h2⟩)
  · omega
  · exact bit30_of_gt h1 ht' h2

/-- A send whose arguments are right hands one datagram to `sendto`: no tag
an `int` can hold is refused, but the negative ones. -/
theorem MPI_Send_eq {dest : Nat} (he : e.ready = true) (hd : dest < e.size) (hc : 0 ≤ count)
    (ht : 0 ≤ tag) (ht' : tag ≤ INT_MAX) (hty : 0 ≤ type_size type) (hlen : int32 (count * type_size type) = len)
    (hmax : len ≤ MPI_MAX_MESSAGE) (hbuf : len ≤ buf.length) :
    MPI_Send e buf count type dest tag MPI_COMM_WORLD =
      .sendto dest ⟨⟨e.rank, tag, count, type⟩, buf.take len, by simp at hmax ⊢; omega⟩ fun j =>
        if j < 0 then .ret MPI_ERR_INTERN else .ret MPI_SUCCESS := by
  have hbit := tag_accepted ht ht'
  simp only [MPI_Send, Copies.MPI_Send, Io.forget_ite, Io.forget_ret, Copies.forget_send_raw]
  rw [if_neg (by simp), if_neg (by simp [he]), if_neg (by omega), if_neg (by omega), if_neg hbit]
  rw [if_neg (by omega), if_neg (by rw [hlen]; simp at hmax ⊢; omega)]
  unfold send_raw
  rw [dif_pos (by rw [hlen]; exact ⟨by omega, by omega, by exact_mod_cast hmax⟩)]
  simp [hlen]

theorem MPI_Recv_eq {source : Option Nat} (he : e.ready = true) (hs : ∀ x, source = some x → x < e.size)
    (hc : 0 ≤ count) (hty : 0 ≤ type_size type) (hlen : int32 (count * type_size type) = len)
    (hbuf : len ≤ buf.length) :
    ∃ k, MPI_Recv e buf count type (selector source) tag MPI_COMM_WORLD = .recv_match (selector source) tag k ∧
      ∀ m : Datagram, (m.data.length ≤ len → ∃ a, k (.ok m) = .ret a ∧ a.rc = MPI_SUCCESS ∧
          a.buf = m.data ++ buf.drop m.data.length) ∧
        (¬ m.data.length ≤ len → ∃ a, k (.ok m) = .ret a ∧ a.rc ≠ MPI_SUCCESS) := by
  have hsel : ¬ (selector source ≠ MPI_ANY_SOURCE ∧ (selector source < 0 ∨ selector source ≥ e.size)) := by
    rintro ⟨h1, h2⟩
    cases source with
    | none => exact h1 rfl
    | some x => have := hs x rfl; simp only [selector] at h2; omega
  unfold MPI_Recv
  rw [if_neg (by simp), if_neg (by simp [he]), if_neg hsel, if_neg (by omega)]
  dsimp only
  rw [if_neg (by omega)]
  refine ⟨_, rfl, fun m => ⟨fun hm => ?_, fun hm => ?_⟩⟩
  · dsimp only
    rw [if_neg (by rw [hlen]; omega)]
    have hcopy : memcpy buf m.data m.data.length = some (m.data ++ buf.drop m.data.length) := by
      unfold memcpy
      rw [if_pos ⟨by omega, by omega, by omega⟩]
      simp
    rw [hcopy]
    exact ⟨_, rfl, rfl, rfl⟩
  · dsimp only
    rw [if_pos (by rw [hlen]; omega)]
    exact ⟨_, rfl, by simp⟩

end

/-! ## The collectives -/

section
variable {n r : Nat} {pay : Pay} {σ : Pos} {buf : List UInt8} {count type : Int} {len : Nat} {as : List (Act Nat)}

open Prog

/-- A send of the current phase. -/
theorem send_sat {dest base q : Nat} (hd : dest < n) (hc : 0 ≤ count) (hty : 0 ≤ type_size type)
    (hlen : int32 (count * type_size type) = len) (hmax : len ≤ MPI_MAX_MESSAGE) (hbuf : len ≤ buf.length)
    (hacts : σ.acts = .send dest :: as) (hbase : σ.elem.base dest = base) (hb : 1 ≤ base) (hb' : base ≤ 4)
    (hq : q % 2 ^ 24 = σ.q % 2 ^ 24) (hpay : pay σ.elem σ.old (buf.take len)) :
    (MPI_Send ⟨r, n, true⟩ buf count type dest (coll_tag base q) MPI_COMM_WORLD).Sat n r pay (fun _ => False)
      (fun rc σ' => rc = MPI_SUCCESS ∧ σ' = { σ with acts := as }) σ := by
  obtain ⟨h1, h2⟩ := coll_tag_range q hb hb'
  have ht : 0 ≤ coll_tag base q := (Int.lt_trans (by decide) h1).le
  have ht' : coll_tag base q ≤ INT_MAX := (Int.lt_of_lt_of_le h2 (by decide)).le
  rw [MPI_Send_eq rfl hd hc ht ht' hty hlen hmax hbuf]
  refine ⟨as, hacts, ?_, hpay, fun j hj => ?_⟩
  · rw [hbase]
    exact coll_tag_congr (by omega) hq
  · dsimp only
    rw [if_neg (by omega)]
    exact ⟨rfl, rfl⟩

/-- A receive of the current phase through `MPI_Recv`. -/
theorem recv_sat {src : Option Nat} {base q : Nat} (hs : ∀ x, src = some x → x < n)
    (hc : 0 ≤ count) (hty : 0 ≤ type_size type) (hlen : int32 (count * type_size type) = len) (hbuf : len ≤ buf.length)
    (hacts : σ.acts = .recv src :: as) (hbase : σ.elem.base r = base) (hb : base ≤ 4) (hq : q % 2 ^ 24 = σ.q % 2 ^ 24)
    (hgood : ∀ d, σ.elem.Good d ↔ d.length ≤ len) :
    (MPI_Recv ⟨r, n, true⟩ buf count type (selector src) (coll_tag base q) MPI_COMM_WORLD).Sat n r pay
      (fun a => a.rc ≠ MPI_SUCCESS)
      (fun a σ' => a.rc = MPI_SUCCESS ∧ ∃ d : List UInt8, d.length ≤ len ∧ a.buf = d ++ buf.drop d.length ∧
        σ' = { σ with acts := as, cur := σ.cur ++ [d] }) σ := by
  obtain ⟨k, hk, hm⟩ := @MPI_Recv_eq ⟨r, n, true⟩ buf count type (coll_tag base q) len src rfl hs hc hty hlen hbuf
  rw [hk]
  refine ⟨src, as, hacts, rfl, ?_, fun m => ⟨fun hg => ?_, fun hg => ?_⟩⟩
  · rw [hbase]
    exact coll_tag_congr (by omega) hq
  · obtain ⟨a, ha, h1, h2⟩ := (hm m).1 ((hgood _).1 hg)
    rw [ha]
    exact ⟨h1, m.data, (hgood _).1 hg, h2, rfl⟩
  · exact (hm m).2 (fun h => hg ((hgood _).2 h))

theorem int32_one : int32 (1 * type_size MPI_BYTE) = ((1 : Nat) : Int) := by decide

theorem type_size_byte : 0 ≤ type_size MPI_BYTE := by decide

theorem barrier_sat {post : Int → Pos → Prop} {es : List Elem} (hn : 2 ≤ n) (hr : r < n) (hacts : σ.acts = [])
    (hrest : σ.rest = .barrier :: es) (hpay : ∀ old (d : List UInt8), d.length ≤ 1 → pay .barrier old d)
    (hpost : ∀ cur, post MPI_SUCCESS ⟨.barrier, σ.q + 1, [], es, σ.old ++ σ.cur, cur⟩) :
    (MPI_Barrier ⟨r, n, true⟩ MPI_COMM_WORLD).Sat n r pay (· ≠ MPI_SUCCESS) post σ := by
  unfold MPI_Barrier
  rw [if_neg (by simp), if_neg (by simp), if_neg (by simp; omega)]
  refine ⟨hacts, .barrier, es, hrest, fun seq hseq => ?_⟩
  dsimp only
  split
  · rename_i h0
    subst h0
    -- as many receives are left as rounds of the gathering loop
    refine Sat.bind (Sat.forOk (fun is token σ' => token.length = 1 ∧ ∃ cur, σ' = ⟨.barrier, σ.q + 1,
      List.replicate is.length (.recv none) ++ (List.range' 1 (n - 1)).map .send, es, σ.old ++ σ.cur, cur⟩)
      ?gather _ _ _ ⟨rfl, [], by simp [Elem.acts]⟩) ?after fun x hx => ⟨x.1, by rw [if_pos hx], hx⟩
    case gather =>
      rintro i is token _ ⟨htok, cur, rfl⟩
      refine Sat.map (@recv_sat n 0 pay _ _ _ _ _ _ none _ _ (by simp)
        (by decide) type_size_byte int32_one (by omega) rfl
        rfl (by decide) hseq (fun d => Iff.rfl)) ?_ fun _ h => h
      rintro a σ' ⟨h1, d, hd, h2, rfl⟩
      exact ⟨h1, by simp [h2]; omega, _, rfl⟩
    case after =>
      rintro x _ ⟨hrc, htok, cur, rfl⟩
      rw [if_neg (by simp [hrc])]
      -- and as many sends as rounds of the releasing loop
      refine Sat.map (Sat.forOk (fun is token σ' => token.length = 1 ∧ (∀ i ∈ is, 1 ≤ i ∧ i < n) ∧
        σ' = ⟨.barrier, σ.q + 1, is.map .send, es, σ.old ++ σ.cur, cur⟩) ?release _ _ _
        ⟨htok, fun i hi => by simp at hi; omega, by simp⟩) ?done fun y hy => hy
      case done =>
        rintro y _ ⟨hrc, -, -, rfl⟩
        rw [hrc]
        exact hpost cur
      case release =>
        rintro i is token _ ⟨htok, hin, rfl⟩
        have hi := hin i (by simp)
        refine Sat.map (send_sat hi.2 (by decide) type_size_byte int32_one (by decide) (by omega) rfl
          (by simp [Elem.base, show i ≠ 0 by omega]) (by decide) (by decide) hseq (hpay _ _ (by simp))) ?_
            fun _ h => h.elim
        rintro rc _ ⟨rfl, rfl⟩
        exact ⟨rfl, htok, fun j hj => hin j (by simp [hj]), rfl⟩
  · rename_i h0
    refine Sat.bind (@send_sat n r pay _ _ _ _ _ [.recv (some 0)] 0 _ _ (by omega) (by decide) type_size_byte int32_one
      (by decide) (by simp) (by simp [Elem.acts, h0]) rfl (by decide) (by decide) hseq (hpay _ _ (by simp))) ?_
      fun _ h => h.elim
    rintro rc _ ⟨rfl, rfl⟩
    rw [if_neg (by simp)]
    refine Sat.bind (@recv_sat n r pay _ _ _ _ _ [] (some 0) _ _ (by simp; omega) (by decide) type_size_byte int32_one
      (by simp) rfl (by simp [Elem.base, h0]) (by decide) hseq (fun d => Iff.rfl)) ?_
        fun a ha => ⟨a.rc, by rw [if_pos ha], ha⟩
    rintro a _ ⟨h1, d, hd, h2, rfl⟩
    rw [if_neg (by simp [h1])]
    exact hpost _

theorem bcast_sat {post : Int × List UInt8 → Pos → Prop} {es : List Elem} {root : Nat} (hr : r < n) (hroot : root < n)
    (hargs : n ≠ 1 → 0 ≤ count ∧ 0 ≤ type_size type ∧ int32 (count * type_size type) = len ∧ len ≤ MPI_MAX_MESSAGE ∧
      len ≤ buf.length)
    (hacts : σ.acts = []) (hrest : σ.rest = .bcast root len :: es)
    (hpay : n ≠ 1 → r = root → pay (.bcast root len) (σ.old ++ σ.cur) (buf.take len))
    (hpost : r = root → post (MPI_SUCCESS, buf) ⟨.bcast root len, σ.q + 1, [], es, σ.old ++ σ.cur, []⟩)
    (hpost' : r ≠ root → ∀ d : List UInt8, d.length ≤ len →
      post (MPI_SUCCESS, d ++ buf.drop d.length) ⟨.bcast root len, σ.q + 1, [], es, σ.old ++ σ.cur, [d]⟩) :
    (MPI_Bcast ⟨r, n, true⟩ buf count type root MPI_COMM_WORLD).Sat n r pay (·.1 ≠ MPI_SUCCESS) post σ := by
  simp only [MPI_Bcast, Copies.MPI_Bcast, Io.forget_ite, Io.forget_ret, Io.forget_coll_seq, Io.forget_forOk,
    Io.forget_bind, Io.forget_lift, Copies.forget_MPI_Send]
  rw [if_neg (by simp), if_neg (by simp), if_neg (by simp; omega)]
  refine ⟨hacts, .bcast root len, es, hrest, fun seq hseq => ?_⟩
  dsimp only
  split
  · rename_i h1
    obtain rfl : r = root := by omega
    obtain rfl : r = 0 := by omega
    have hnone : (Elem.bcast 0 len).acts n 0 = [] := by simp [Elem.acts, h1]
    rw [hnone]
    exact hpost rfl
  · rename_i h1
    obtain ⟨hc, hty, hlen, hmax, hbuf⟩ := hargs h1
    have hfilter : ((List.range n).filter fun i : Nat => decide ((i : Int) ≠ root)) =
        (List.range n).filter (· ≠ root) := List.filter_congr fun i _ => by simp
    rw [hfilter]
    split
    · rename_i hrr
      obtain rfl : r = root := by omega
      refine Sat.mono (Sat.forOk (fun is b σ' => b = buf ∧ (∀ i ∈ is, i < n) ∧
        σ' = ⟨.bcast r len, σ.q + 1, is.map .send, es, σ.old ++ σ.cur, []⟩) ?send _ _ _
        ⟨rfl, fun i hi => by simp at hi; exact hi.1, by simp [Elem.acts]⟩) ?done fun _ h => h
      case done =>
        rintro ⟨rc, b⟩ _ ⟨hrc, rfl, -, rfl⟩
        simp only at hrc
        rw [hrc]
        exact hpost rfl
      case send =>
        rintro i is b _ ⟨rfl, hin, rfl⟩
        refine Sat.map (send_sat (hin i (by simp)) hc hty hlen hmax hbuf rfl rfl (by decide) (by decide) hseq
          (hpay h1 rfl)) ?_ fun _ h => h.elim
        rintro rc _ ⟨rfl, rfl⟩
        exact ⟨rfl, rfl, fun j hj => hin j (by simp [hj]), rfl⟩
    · rename_i hrr
      have hrr' : r ≠ root := by omega
      refine Sat.map (@recv_sat n r pay _ _ _ _ _ [] (some root) _ _ (by simp; omega) hc hty hlen hbuf
        (by simp [Elem.acts, hrr']) rfl (by decide) hseq (fun d => Iff.rfl)) ?_ fun _ h => h
      rintro a _ ⟨h2, d, hd, h3, rfl⟩
      rw [h2, h3]
      exact hpost' hrr' d hd

theorem reduce_sat {post : Int × List UInt8 → Pos → Prop} {es : List Elem} {root : Nat} {op : Int}
    {sendbuf recvbuf : List UInt8} (hr : r < n) (hroot : root < n)
    (hop : MPI_SUM ≤ op) (hop' : op ≤ MPI_MIN) (hty : 0 ≤ type_size type) (hlen : int32 (count * type_size type) = len)
    (hmax : len ≤ MPI_MAX_MESSAGE) (hsend : len ≤ sendbuf.length) (hrecv : r = root → len ≤ recvbuf.length)
    (hargs : n ≠ 1 → Arithmetic type ∧ 0 ≤ count ∧ (len : Int) = count * type_size type)
    (hacts : σ.acts = []) (hrest : σ.rest = .reduce root len :: es)
    (hpay : pay (.reduce root len) (σ.old ++ σ.cur) (sendbuf.take len))
    (hpost : r = root → ∀ cur, post (MPI_SUCCESS, fold type op count.toNat (sendbuf.take len :: cur) ++
      recvbuf.drop len)
      ⟨.reduce root len, σ.q + 1, [], es, σ.old ++ σ.cur, cur⟩)
    (hpost' : r ≠ root → post (MPI_SUCCESS, recvbuf) ⟨.reduce root len, σ.q + 1, [], es, σ.old ++ σ.cur, []⟩) :
    (MPI_Reduce ⟨r, n, true⟩ sendbuf recvbuf count type op root MPI_COMM_WORLD).Sat n r pay
      (·.1 ≠ MPI_SUCCESS) post σ := by
  simp only [MPI_Reduce, Copies.MPI_Reduce, Io.forget_ite, Io.forget_ret, Io.forget_coll_seq, Io.forget_bind,
    Io.forget_copy, Io.forget_lift, Copies.forget_MPI_Send]
  rw [if_neg (by simp), if_neg (by simp), if_neg (by simp; omega), if_neg (by omega)]
  rw [if_neg (by omega), if_neg (by rw [hlen]; simp at hmax ⊢; omega)]
  refine ⟨hacts, .reduce root len, es, hrest, fun seq hseq => ?_⟩
  dsimp only
  split
  · rename_i hrr
    have hrr' : r ≠ root := by omega
    obtain ⟨-, hc, -⟩ := hargs (by omega)
    refine Sat.map (@send_sat n r pay _ _ _ _ _ [] _ _ _ hroot hc hty hlen hmax hsend (by simp [Elem.acts, hrr']) rfl
      (by decide) (by decide) hseq hpay) ?_ fun _ h => h.elim
    rintro rc _ ⟨rfl, rfl⟩
    exact hpost' hrr'
  · rename_i hrr
    obtain rfl : r = root := by omega
    have hcopy : memcpy recvbuf sendbuf (int32 (count * type_size type)) =
        some (sendbuf.take len ++ recvbuf.drop len) := by
      unfold memcpy
      rw [if_pos (by rw [hlen]; exact ⟨by omega, by omega, by exact_mod_cast hrecv rfl⟩), hlen]
      simp
    rw [hcopy]
    refine Sat.mono (Sat.forOk
      (fun is b σ' => is.length ≤ n - 1 ∧ ∃ cur, b = fold type op count.toNat (sendbuf.take len :: cur) ++
        recvbuf.drop len ∧
        σ' = ⟨.reduce r len, σ.q + 1, List.replicate is.length (.recv none), es, σ.old ++ σ.cur, cur⟩) ?combine _ _ _
      ⟨by simp, [], by simp [fold], by simp [Elem.acts]⟩) ?done fun _ h => h
    case done =>
      rintro ⟨rc, b⟩ _ ⟨hrc, -, cur, rfl, rfl⟩
      simp only at hrc
      rw [hrc]
      exact hpost rfl cur
    case combine =>
      rintro i is b _ ⟨hi, cur, rfl, rfl⟩
      obtain ⟨ha, hc, hl⟩ := hargs (by simp at hi; omega)
      refine ⟨none, List.replicate is.length (.recv none), rfl, rfl, coll_tag_congr (by decide) hseq,
        fun m => ⟨fun hg => ?_, fun hg => ?_⟩⟩
      · have hg' : m.data.length = len := hg
        have hcount : ((count.toNat : Nat) : Int) = count := Int.toNat_of_nonneg hc
        have hown : ((fold type op count.toNat (sendbuf.take len :: cur)).length : Int) =
            (count.toNat : Nat) * type_size type := by
          rw [fold_length ha]
          rw [hcount, ← hl, List.length_take, Nat.min_eq_left hsend]
        have hsrc : (m.data.length : Int) = (count.toNat : Nat) * type_size type := by rw [hcount, ← hl, hg']
        have happly := reduce_apply_eq ha hop hop' (x := recvbuf.drop len) hown hsrc
        rw [hcount] at happly
        dsimp only
        rw [if_neg (by rw [hlen, hg']; simp), happly]
        refine ⟨rfl, by simp at hi ⊢; omega, cur ++ [m.data], ?_, rfl⟩
        rw [fold_snoc]
      · dsimp only
        have hg' : m.data.length ≠ len := hg
        rw [if_pos (by rw [hlen]; exact_mod_cast hg')]
        exact ⟨_, rfl, by simp⟩

theorem allreduce_sat {post : Int × List UInt8 → Pos → Prop} {es : List Elem} {op : Int}
    {sendbuf recvbuf : List UInt8} (hr : r < n) (hop : MPI_SUM ≤ op) (hop' : op ≤ MPI_MIN) (hty : 0 ≤ type_size type)
    (hlen : int32 (count * type_size type) = len) (hmax : len ≤ MPI_MAX_MESSAGE) (hsend : len ≤ sendbuf.length)
    (hrecv : len ≤ recvbuf.length) (hargs : n ≠ 1 → Arithmetic type ∧ 0 ≤ count ∧ (len : Int) = count * type_size type)
    (hacts : σ.acts = []) (hrest : σ.rest = .reduce 0 len :: .bcast 0 len :: es) (hold : σ.old = []) (hcur : σ.cur = [])
    (hpay : pay (.reduce 0 len) [] (sendbuf.take len))
    (hpay' : ∀ cur, pay (.bcast 0 len) cur (fold type op count.toNat (sendbuf.take len :: cur)))
    (hpost : r = 0 → ∀ cur, post (MPI_SUCCESS, fold type op count.toNat (sendbuf.take len :: cur) ++ recvbuf.drop len)
      ⟨.bcast 0 len, σ.q + 2, [], es, cur, []⟩)
    (hpost' : r ≠ 0 → ∀ d : List UInt8, d.length ≤ len →
      post (MPI_SUCCESS, d ++ recvbuf.drop d.length) ⟨.bcast 0 len, σ.q + 2, [], es, [], [d]⟩) :
    (MPI_Allreduce ⟨r, n, true⟩ sendbuf recvbuf count type op MPI_COMM_WORLD).Sat n r pay
      (·.1 ≠ MPI_SUCCESS) post σ := by
  have hpos : 0 < n := by omega
  -- after the reduction the root holds the fold and the others what they had
  refine Sat.bind (@reduce_sat n r pay σ count type len (fun x σ' => x.1 = MPI_SUCCESS ∧
      (r = 0 → ∃ cur, x.2 = fold type op count.toNat (sendbuf.take len :: cur) ++ recvbuf.drop len ∧
        σ' = ⟨.reduce 0 len, σ.q + 1, [], .bcast 0 len :: es, [], cur⟩) ∧
      (r ≠ 0 → x.2 = recvbuf ∧ σ' = ⟨.reduce 0 len, σ.q + 1, [], .bcast 0 len :: es, [], []⟩))
    _ 0 op sendbuf recvbuf hr hpos hop hop' hty hlen hmax hsend (fun _ => hrecv) hargs hacts hrest ?_ ?_ ?_) ?_
    fun x hx => ⟨x, by rw [if_pos hx], hx⟩
  · simpa [hold, hcur] using hpay
  · exact fun h0 cur => ⟨rfl, fun _ => ⟨cur, rfl, by simp [hold, hcur]⟩, fun h => absurd h0 h⟩
  · exact fun h0 => ⟨rfl, fun h => absurd h h0, fun _ => ⟨rfl, by simp [hold, hcur]⟩⟩
  · rintro ⟨rc, b⟩ σ' ⟨hrc, hroot, hother⟩
    simp only at hrc hroot hother
    rw [if_neg (by simp [hrc])]
    by_cases h0 : r = 0
    · obtain ⟨cur, rfl, rfl⟩ := hroot h0
      have hfold : n ≠ 1 → (fold type op count.toNat (sendbuf.take len :: cur)).length = len := fun h1 => by
        obtain ⟨ha, hc, hl⟩ := hargs h1
        have h2 := @fold_length type op count.toNat ha (sendbuf.take len) cur
          (by rw [Int.toNat_of_nonneg hc, ← hl, List.length_take, Nat.min_eq_left hsend])
        rw [Int.toNat_of_nonneg hc, ← hl] at h2
        exact_mod_cast h2
      refine bcast_sat hr hpos (fun h1 => ?_) rfl rfl (fun h1 _ => ?_) (fun _ => ?_) fun h => absurd h0 h
      · obtain ⟨ha, hc, hl⟩ := hargs h1
        exact ⟨hc, hty, hlen, hmax, by rw [List.length_append, hfold h1]; omega⟩
      · rw [List.take_append_of_le_length (hfold h1).ge, List.take_of_length_le (hfold h1).le]
        exact hpay' cur
      · exact hpost h0 cur
    · obtain ⟨rfl, rfl⟩ := hother h0
      refine bcast_sat hr hpos (fun h1 => ?_) rfl rfl (fun h1 h => absurd h h0) (fun h => absurd h h0) (hpost' ·)
      obtain ⟨ha, hc, hl⟩ := hargs h1
      exact ⟨hc, hty, hlen, hmax, hrecv⟩

/-- The code for a negative count or an unknown type, the same from a send and
from a receive. -/
def argCode (count : Int) : Int := if count < 0 then MPI_ERR_COUNT else MPI_ERR_TYPE

theorem argCode_ne (count : Int) : argCode count ≠ MPI_SUCCESS := by
  unfold argCode
  split
  · decide
  · decide

theorem MPI_Send_void {i : Nat} {tag : Int} (hi : i < n) (ht : 0 ≤ tag) (ht' : tag ≤ INT_MAX)
    (hargs : count < 0 ∨ type_size type < 0) :
    MPI_Send ⟨r, n, true⟩ buf count type i tag MPI_COMM_WORLD = .ret (argCode count) := by
  simp only [MPI_Send, Copies.MPI_Send, Io.forget_ite, Io.forget_ret, Copies.forget_send_raw]
  unfold argCode
  rw [if_neg (by simp), if_neg (by simp), if_neg (by simp; omega)]
  by_cases hc : count < 0
  · rw [if_pos hc, if_pos hc]
  · rw [if_neg hc, if_neg (tag_accepted ht ht'), if_neg hc]
    exact if_pos (hargs.resolve_left hc)

theorem MPI_Recv_void {i : Nat} {tag : Int} (hi : i < n) (hargs : count < 0 ∨ type_size type < 0) :
    MPI_Recv ⟨r, n, true⟩ buf count type i tag MPI_COMM_WORLD = .ret ⟨argCode count, buf, none⟩ := by
  unfold MPI_Recv argCode
  rw [if_neg (by simp), if_neg (by simp), if_neg (by simp; omega)]
  by_cases hc : count < 0
  · rw [if_pos hc, if_pos hc]
  · rw [if_neg hc, if_neg hc]
    exact if_pos (hargs.resolve_left hc)

/-- Some rank is not the root. -/
theorem exists_not_root {root : Nat} (hn : n ≠ 1) (hroot : root < n) :
    ∃ i is, ((List.range n).filter fun i : Nat => decide ((i : Int) ≠ root)) = i :: is ∧ i < n := by
  have hmem : (if root = 0 then 1 else 0) ∈ (List.range n).filter fun i : Nat => decide ((i : Int) ≠ root) := by
    simp
    split <;> omega
  obtain ⟨i, is, hl⟩ := List.exists_cons_of_ne_nil (List.ne_nil_of_mem hmem)
  have hi : i ∈ (List.range n).filter fun i : Nat => decide ((i : Int) ≠ root) := by
    rw [hl]
    exact List.mem_cons_self ..
  exact ⟨i, is, hl, List.mem_range.1 (List.mem_of_mem_filter hi)⟩

/-- A broadcast nobody sends or receives in: each rank refuses its first message. -/
theorem bcast_void_sat {post : Int × List UInt8 → Pos → Prop} {es : List Elem} {root : Nat} (hn : n ≠ 1)
    (hroot : root < n) (hargs : count < 0 ∨ type_size type < 0) (hacts : σ.acts = []) (hrest : σ.rest = .void :: es)
    (hpost : post (argCode count, buf) ⟨.void, σ.q + 1, [], es, σ.old ++ σ.cur, []⟩) :
    (MPI_Bcast ⟨r, n, true⟩ buf count type root MPI_COMM_WORLD).Sat n r pay (·.1 ≠ MPI_SUCCESS) post σ := by
  simp only [MPI_Bcast, Copies.MPI_Bcast, Io.forget_ite, Io.forget_ret, Io.forget_coll_seq, Io.forget_forOk,
    Io.forget_bind, Io.forget_lift, Copies.forget_MPI_Send]
  rw [if_neg (by simp), if_neg (by simp), if_neg (by simp; omega)]
  refine ⟨hacts, .void, es, hrest, fun seq hseq => ?_⟩
  dsimp only
  rw [if_neg hn]
  split
  · obtain ⟨i, is, hl, hi⟩ := exists_not_root hn hroot
    obtain ⟨h1, h2⟩ := @coll_tag_range COLL_BCAST seq (by decide) (by decide)
    have ht : 0 ≤ coll_tag COLL_BCAST seq := (Int.lt_trans (by decide) h1).le
    have ht' : coll_tag COLL_BCAST seq ≤ INT_MAX := (Int.lt_of_lt_of_le h2 (by decide)).le
    rw [hl, Prog.forOk, MPI_Send_void hi ht ht' hargs]
    simp only [Prog.bind_ret]
    rw [if_pos (argCode_ne count)]
    exact hpost
  · rw [MPI_Recv_void hroot hargs]
    exact hpost

end

end LibNeoos.Mpi
