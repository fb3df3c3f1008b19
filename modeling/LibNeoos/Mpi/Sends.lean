import LibNeoos.Mpi.Transport
/-!
# What calls send

Every datagram a call sends names its sender and goes to a rank of the world;
`MPI_Send` sends it with the tag it was given and the collectives only with
tags of their own, which no tag up to `MPI_TAG_UB` equals.
-/

namespace LibNeoos.Mpi

open LibNeoos.Lib Prog

/-! ## Programs -/

namespace Prog
variable {α β : Type} {P : Nat → Datagram → Prop}

/-- Every datagram the program sends meets `P`, whatever it receives. -/
def Sends (P : Nat → Datagram → Prop) : Prog α → Prop
  | .ret _ => True
  | .fault => True
  | .coll_seq k => ∀ q, (k q).Sends P
  | .sendto d m k => P d m ∧ ∀ n, (k n).Sends P
  | .recv_match _ _ k => ∀ x, (k x).Sends P

theorem sends_ret (a : α) : (ret a).Sends P := trivial

/-- A check that returns. -/
theorem Sends.guard {c : Prop} [Decidable c] {a : α} {p : Prog α} (h : ¬ c → p.Sends P) :
    (if c then ret a else p).Sends P := by
  split
  · exact sends_ret a
  · rename_i hc; exact h hc

theorem Sends.bind {p : Prog α} {f : α → Prog β} (hp : p.Sends P) (hf : ∀ a, (f a).Sends P) : (p.bind f).Sends P := by
  induction p with
  | ret a => exact hf a
  | fault => trivial
  | coll_seq k ih => exact fun q => ih q (hp q)
  | sendto d m k ih => exact ⟨hp.1, fun n => ih n (hp.2 n)⟩
  | recv_match s t k ih => exact fun x => ih x (hp x)

theorem Sends.forOk {body : Nat → β → Prog (Int × β)} (h : ∀ i b, (body i b).Sends P) (is : List Nat) :
    ∀ b, (Prog.forOk body is b).Sends P := by
  induction is with
  | nil => intro b; trivial
  | cons i is ih =>
    intro b
    refine (h i b).bind fun r => ?_
    split
    · trivial
    · exact ih r.2

end Prog

/-! ## Calls -/

/-- A tag of the collectives. -/
def CollTag (t : Int) : Prop := ∃ base q, base ∈ [COLL_BARRIER_IN, COLL_BARRIER_OUT, COLL_BCAST, COLL_REDUCE] ∧
    t = coll_tag base q

theorem CollTag.range {t : Int} (h : CollTag t) : MPI_TAG_UB < t ∧ t < TAG_HELLO := by
  obtain ⟨base, q, hb, rfl⟩ := h
  have hb' : 1 ≤ base ∧ base ≤ 4 := by simp at hb; omega
  exact coll_tag_range q hb'.1 hb'.2

section
variable {e : Env} {P : Nat → Datagram → Prop}

theorem MPI_Send_sends {buf : List UInt8} {count type dest tag comm : Int}
    (h : 0 ≤ dest → dest < e.size → ∀ m : Datagram, m.hdr = ⟨e.rank, tag, count, type⟩ → P dest.toNat m) :
    (MPI_Send e buf count type dest tag comm).Sends P := by
  simp only [MPI_Send, Copies.MPI_Send, Io.forget_ite, Io.forget_ret, Copies.forget_send_raw]
  refine .guard fun _ => .guard fun _ => .guard fun hd => .guard fun _ => .guard fun _ => .guard fun _ =>
    .guard fun _ => ?_
  unfold send_raw
  split
  · exact ⟨h (by omega) (by omega) _ rfl, fun n => .guard fun _ => sends_ret _⟩
  · trivial

theorem MPI_Recv_sends {buf : List UInt8} {count type source tag comm : Int} :
    (MPI_Recv e buf count type source tag comm).Sends P := by
  unfold MPI_Recv
  refine .guard fun _ => .guard fun _ => .guard fun _ => .guard fun _ => .guard fun _ => ?_
  intro x
  cases x with
  | error rc => exact sends_ret _
  | ok got =>
    refine .guard fun _ => ?_
    split
    · exact sends_ret _
    · trivial

/-- A call followed by nothing that sends. -/
theorem Prog.Sends.then_ret {α β : Type} {p : Prog α} (hp : p.Sends P) (f : α → β) :
    (p.bind fun a => .ret (f a)).Sends P :=
  hp.bind fun _ => sends_ret _

section
variable (h : ∀ (d : Nat) (m : Datagram), d < e.size → m.hdr.src = e.rank → CollTag m.hdr.tag → P d m)
include h

/-- A send of a collective. -/
theorem coll_send_sends {buf : List UInt8} {count type dest comm : Int} {base : Nat} (q : Nat)
    (hb : base ∈ [COLL_BARRIER_IN, COLL_BARRIER_OUT, COLL_BCAST, COLL_REDUCE]) :
    (MPI_Send e buf count type dest (coll_tag base q) comm).Sends P := by
  refine MPI_Send_sends fun h1 h2 m hm => ?_
  exact h _ m (by omega) (by rw [hm]) (by rw [hm]; exact ⟨base, q, hb, rfl⟩)

theorem MPI_Barrier_sends {comm : Int} : (MPI_Barrier e comm).Sends P := by
  unfold MPI_Barrier
  refine .guard fun _ => .guard fun _ => .guard fun _ => fun q => ?_
  split
  · refine (Sends.forOk (fun i b => MPI_Recv_sends.then_ret _) _ _).bind fun r => .guard fun _ => ?_
    exact (Sends.forOk (fun i b => (coll_send_sends h q (by simp)).then_ret _) _ _).then_ret _
  · refine (coll_send_sends h q (by simp)).bind fun r => .guard fun _ => ?_
    exact MPI_Recv_sends.bind fun r => .guard fun _ => sends_ret _

theorem MPI_Bcast_sends {buf : List UInt8} {count type root comm : Int} :
    (MPI_Bcast e buf count type root comm).Sends P := by
  simp only [MPI_Bcast, Copies.MPI_Bcast, Io.forget_ite, Io.forget_ret, Io.forget_coll_seq, Io.forget_forOk,
    Io.forget_bind, Io.forget_lift, Copies.forget_MPI_Send]
  refine .guard fun _ => .guard fun _ => .guard fun _ => fun q => .guard fun _ => ?_
  split
  · exact Sends.forOk (fun i b => (coll_send_sends h q (by simp)).then_ret _) _ _
  · exact MPI_Recv_sends.then_ret _

theorem MPI_Reduce_sends {sendbuf recvbuf : List UInt8} {count type op root comm : Int} :
    (MPI_Reduce e sendbuf recvbuf count type op root comm).Sends P := by
  simp only [MPI_Reduce, Copies.MPI_Reduce, Io.forget_ite, Io.forget_ret, Io.forget_coll_seq, Io.forget_bind,
    Io.forget_copy, Io.forget_lift, Copies.forget_MPI_Send]
  refine .guard fun _ => .guard fun _ => .guard fun _ => .guard fun _ => .guard fun _ => .guard fun _ => fun q => ?_
  dsimp only
  split
  · exact (coll_send_sends h q (by simp)).then_ret _
  · split
    · trivial
    · refine Sends.forOk (fun i b => ?_) _ _
      intro x
      cases x with
      | error rc => exact sends_ret _
      | ok got =>
        refine .guard fun _ => ?_
        split
        · trivial
        · exact sends_ret _

theorem MPI_Allreduce_sends {sendbuf recvbuf : List UInt8} {count type op comm : Int} :
    (MPI_Allreduce e sendbuf recvbuf count type op comm).Sends P :=
  (MPI_Reduce_sends h).bind fun _ => .guard fun _ => MPI_Bcast_sends h

end

end

/-- What a datagram of the call `op` of a rank looks like. -/
def FrameOf (e : Env) (op : Op) (d : Nat) (m : Datagram) : Prop :=
  d < e.size ∧ m.hdr.src = e.rank ∧
    match op with
    | .send _ _ _ _ tag _ => m.hdr.tag = tag
    | .recv .. => False
    | _ => CollTag m.hdr.tag

theorem Op.code_sends (e : Env) (op : Op) : (op.code e).Sends (FrameOf e op) := by
  cases op with
  | send buf count type dest tag comm =>
    refine (MPI_Send_sends fun h1 h2 m hm => ?_).then_ret _
    exact ⟨by omega, by rw [hm], by rw [hm]⟩
  | recv buf count type source tag comm => exact MPI_Recv_sends
  | barrier comm => exact (MPI_Barrier_sends fun d m h1 h2 h3 => ⟨h1, h2, h3⟩).then_ret _
  | bcast buf count type root comm => exact (MPI_Bcast_sends fun d m h1 h2 h3 => ⟨h1, h2, h3⟩).then_ret _
  | reduce sendbuf recvbuf count type op root comm =>
    exact (MPI_Reduce_sends fun d m h1 h2 h3 => ⟨h1, h2, h3⟩).then_ret _
  | allreduce sendbuf recvbuf count type op comm =>
    exact (MPI_Allreduce_sends fun d m h1 h2 h3 => ⟨h1, h2, h3⟩).then_ret _

/-! ## Runs -/

/-- A message of a call is one its call sends; the others are the handshake's. -/
def MsgOk (w : World) (d : Nat) (m : Msg) : Prop :=
  match m.origin with
  | .user s i => s < w.n ∧ ∃ op, (w.prog s)[i]? = some op ∧ op.call = none ∧ FrameOf (w.env s) op d m.frame
  | .coll s i _ => s < w.n ∧ ∃ op, (w.prog s)[i]? = some op ∧ op.call.isSome ∧ FrameOf (w.env s) op d m.frame
  | .hello s => m.frame = token s TAG_HELLO
  | .go => m.frame.hdr.tag = TAG_GO

/-- Every call in progress sends what its call may, and so did all that have sent. -/
structure Labelled (w : World) (s : Sys) : Prop where
  prog : ∀ r p, (s.core r).prog? = some p →
    ∃ op, (w.prog r)[(s.core r).rets.length]? = some op ∧ p.Sends (FrameOf (w.env r) op)
  sent : ∀ p ∈ s.sent, MsgOk w p.dst p.msg
  held : ∀ x, ∀ m ∈ s.held x, MsgOk w x m

section
variable {w : World} {s s' : Sys} {l : Label}

theorem isColl_eq {r i : Nat} {op : Op} (h : (w.prog r)[i]? = some op) : w.isColl r i = op.call.isSome := by
  simp [World.isColl, h]

theorem move_msgOk {r : Nat} {b : Bool} {mail : List Msg} {c c' : Core} {out : List Packet} (hr : r < w.n)
    (hp : ∀ p, c.prog? = some p → ∃ op, (w.prog r)[c.rets.length]? = some op ∧ p.Sends (FrameOf (w.env r) op))
    (hm : Move w r b mail c c' out) : ∀ p ∈ out, MsgOk w p.dst p.msg := by
  cases hm with
  | quiet hq =>
    intro p hp
    rcases hq p hp with h | h <;> simp [MsgOk, h, token]
  | @send d m f h1 =>
    intro p hp'
    obtain ⟨op, hop, hs⟩ := hp _ h1
    simp only [List.mem_singleton] at hp'
    subst hp'
    cases hc : op.call with
    | none => simpa [MsgOk, Core.origin, isColl_eq hop, hc] using ⟨hr, op, hop, hc, hs.1⟩
    | some call => simpa [MsgOk, Core.origin, isColl_eq hop, hc] using ⟨hr, op, hop, by simp [hc], hs.1⟩
  | _ => simp

theorem move_prog {r : Nat} {b : Bool} {mail : List Msg} {c c' : Core} {out : List Packet}
    (hp : ∀ p, c.prog? = some p → ∃ op, (w.prog r)[c.rets.length]? = some op ∧ p.Sends (FrameOf (w.env r) op))
    (hm : Move w r b mail c c' out) :
    ∀ p, c'.prog? = some p → ∃ op, (w.prog r)[c'.rets.length]? = some op ∧ p.Sends (FrameOf (w.env r) op) := by
  intro p h
  cases hm with
  | quiet => exact hp p h
  | @call op h1 h2 => cases h; exact ⟨op, h2, op.code_sends _⟩
  | ret h1 => cases h
  | tick h1 => cases h; obtain ⟨op, hop, hs⟩ := hp _ h1; exact ⟨op, hop, hs _⟩
  | send h1 => cases h; obtain ⟨op, hop, hs⟩ := hp _ h1; exact ⟨op, hop, hs.2 _⟩
  | take h1 => cases h; obtain ⟨op, hop, hs⟩ := hp _ h1; exact ⟨op, hop, hs _⟩
  | failSend _ _ h1 => cases h; obtain ⟨op, hop, hs⟩ := hp _ h1; exact ⟨op, hop, hs.2 _⟩
  | failRecv _ h1 => cases h; obtain ⟨op, hop, hs⟩ := hp _ h1; exact ⟨op, hop, hs _⟩

theorem labelled_step (hi : Labelled w s) (h : step w s l = some s') : Labelled w s' := by
  have hnews : ∀ p ∈ news w s l, MsgOk w p.dst p.msg := by
    rcases sys_move h with ⟨r, a, c', rfl, hr, hm, -⟩ | ⟨-, hn⟩
    · exact move_msgOk hr (hi.prog r) hm
    · simp [hn]
  refine ⟨fun x => ?_, fun p hp => ?_, fun x m hm => ?_⟩
  · rcases sys_move h with ⟨r, a, c', rfl, hr, hm, hc⟩ | ⟨hc, -⟩ <;> rw [hc]
    · by_cases hx : x = r
      · subst hx; simpa using move_prog (hi.prog x) hm
      · simpa [hx] using hi.prog x
    · exact hi.prog x
  · rw [step_sent h] at hp
    rcases List.mem_append.1 hp with hp | hp
    · exact hi.sent p hp
    · exact hnews p (List.mem_of_mem_filter hp)
  · have hmem : m ∈ s.held x ++ msgsTo x (news w s l) :=
      (step_held h x).symm.subset (List.mem_append_left _ hm)
    rcases List.mem_append.1 hmem with h1 | h1
    · exact hi.held x m h1
    · exact hnews ⟨x, m⟩ (mem_msgsTo.1 h1)

theorem run_labelled {ok : Sys → Label → Sys → Prop} (h : Run (step w) ok start s) : Labelled w s := by
  refine h.inv (Labelled w) ⟨?_, ?_, ?_⟩ fun s l s' hi _ hst => labelled_step hi hst
  · intro r p hp; cases hp
  · intro p hp; cases hp
  · intro x m hm; simp [Sys.held, start, msgsTo, Rank.mail, Rank.taken] at hm

end

end LibNeoos.Mpi
