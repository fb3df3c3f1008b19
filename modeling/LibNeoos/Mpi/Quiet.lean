import LibNeoos.Lib.Rounds
import LibNeoos.Mpi.Collectives
/-!
# Collectives that need no unexpected queue

In an `MPI_Barrier` and in an `MPI_Allreduce` every rank tells rank 0 that it is
there and waits for rank 0's answer. A sequence of them is an exchange in
rounds through rank 0 (`plan_rounds`), so that a rank in `recv_match` has no
message before it but those it looks for: every datagram it reads is one it
takes, nothing is ever put on the unexpected queue and nothing is dropped
(`synchronising_calls_need_no_queue`). The sequence number in the tags may wrap
any number of times.
-/

namespace LibNeoos.Mpi

open LibNeoos.Lib LibNeoos.Lib.Phased

/-- An `MPI_Barrier` or an `MPI_Allreduce`. -/
def Op.syncs : Op → Bool
  | .barrier _ => true
  | .allreduce .. => true
  | _ => false

/-- What the ranks have yet to call are barriers and `MPI_Allreduce`s. -/
def Synchronising (w : World) (s : Sys) : Prop :=
  ∀ r < w.n, ∀ op ∈ (w.prog r).drop (s.rank r).rets.length, op.syncs = true

instance (w : World) (s : Sys) : Decidable (Synchronising w s) :=
  inferInstanceAs (Decidable (∀ r < w.n, ∀ op ∈ (w.prog r).drop (s.rank r).rets.length, op.syncs = true))

/-- All ranks are started and between two calls, have counted `coll_seq` alike,
and nothing is in flight, in a socket or on an unexpected queue. -/
structure Rested (w : World) (s : Sys) : Prop where
  ready : ∀ r < w.n, (s.rank r).stage = .ready
  idle : ∀ r < w.n, (s.rank r).prog?.isNone = true
  alike : ∀ r < w.n, (s.rank r).ticks = (s.rank 0).ticks
  sock : ∀ r < w.n, (s.rank r).sock = []
  queue : ∀ r < w.n, (s.rank r).pool.queue = []
  net : s.net = []

instance (w : World) (s : Sys) : Decidable (Rested w s) :=
  decidable_of_iff ((∀ r < w.n, (s.rank r).stage = .ready) ∧ (∀ r < w.n, (s.rank r).prog?.isNone = true) ∧
      (∀ r < w.n, (s.rank r).ticks = (s.rank 0).ticks) ∧ (∀ r < w.n, (s.rank r).sock = []) ∧
      (∀ r < w.n, (s.rank r).pool.queue = []) ∧ s.net = [])
    ⟨fun ⟨h1, h2, h3, h4, h5, h6⟩ => ⟨h1, h2, h3, h4, h5, h6⟩,
      fun h => ⟨h.ready, h.idle, h.alike, h.sock, h.queue, h.net⟩⟩

/-! ## Rounds through rank 0 -/

section
variable {w : World} {r i N q : Nat}

theorem syncs_call {op : Op} (h : op.syncs = true) : op.call.isSome = true := by
  cases op <;> first | rfl | cases h

/-- The phases of a barrier or an `MPI_Allreduce` that is carried out. -/
theorem syncs_elems {n : Nat} {op : Op} {c : Call} (h : op.syncs = true) (hc : op.call = some c) :
    c.elems n = [] ∨ c.elems n = [.barrier] ∨ ∃ len, c.elems n = [.reduce 0 len, .bcast 0 len] := by
  cases op with
  | barrier comm =>
    cases hc
    simp only [Call.elems]
    split
    · exact .inl rfl
    · exact .inr (.inl rfl)
  | allreduce sendbuf recvbuf count type op comm =>
    cases hc
    simp only [Call.elems]
    split
    · exact .inl rfl
    · exact .inr (.inr ⟨_, rfl⟩)
  | _ => cases h

/-- The collective of a phase after the first `i` calls of rank 0 is one of its later
calls. -/
theorem call_of_late_phase (hw : Lawful w) {k : Nat} {c : Call} (hc : w.calls[k]? = some c) (hN : w.phases 0 i < q)
    (hq : q ≤ w.startOf (k + 1)) : ∃ op ∈ (w.prog 0).drop i, op.call = some c := by
  obtain ⟨j, op, hop, hcall, hk⟩ := exists_of_filterMap (show ((w.prog 0).filterMap Op.call)[k]? = some c from hc)
  refine ⟨op, ?_, hcall⟩
  have hij : i ≤ j := by
    by_contra hlt
    have h1 := @phases_mono w 0 (j + 1) i (by omega)
    rw [phases_eq hw w.pos (j + 1), colls_succ (isColl_iff.2 ⟨op, hop, by simp [hcall]⟩),
      show w.colls 0 j = k from hk] at h1
    omega
  refine List.mem_of_getElem? (i := j - i) ?_
  rw [List.getElem?_drop, Nat.add_sub_cancel' hij]
  exact hop

/-- From a point on at which only barriers and `MPI_Allreduce`s are left, the
plan goes in rounds through rank 0. -/
theorem plan_rounds (hw : Lawful w) (hs : ∀ op ∈ (w.prog 0).drop i, op.syncs = true) (hN : w.phases 0 i = N) :
    Rounds w.plan 0 N (fun q => elemAt w.elems q = .barrier)
      (fun q => ∃ len, elemAt w.elems q = .reduce 0 len ∧ elemAt w.elems (q + 1) = .bcast 0 len) where
  hub := plan_hub w.pos
  relay q hq := by
    obtain ⟨len, h1, h2⟩ := hq
    exact plan_relay w.pos h1 h2
  into q hq s d hsend := by
    obtain ⟨len, h1, -⟩ := hq
    have hlink := (mem_plan_send.1 hsend).2
    rw [h1] at hlink
    exact hlink.2
  self q s hsend := (mem_plan_send.1 hsend).2.ne rfl
  cover q s d hq hsend := by
    have hlink := (mem_plan_send.1 hsend).2
    have hlen : q ≤ w.startOf w.calls.length := by
      by_contra hlt
      have hvoid : elemAt w.elems q = .void := by
        obtain ⟨q, rfl⟩ : ∃ q', q = q' + 1 := ⟨q - 1, by omega⟩
        have : w.elems.length ≤ q := by
          rw [World.startOf, List.take_length] at hlt
          exact Nat.le_of_lt_succ (Nat.lt_of_not_le hlt)
        simp [elemAt, List.getElem?_eq_none this]
      rw [hvoid] at hlink
      exact hlink
    obtain ⟨k, c, hc, hlow, hhigh⟩ := exists_startOf (show 0 < q by omega) hlen
    obtain ⟨op, hop, hcall⟩ := call_of_late_phase hw hc (hN ▸ hq) hhigh
    have hlast := startOf_succ hc
    rcases syncs_elems (n := w.n) (hs op hop) hcall with he | he | ⟨len, he⟩ <;> rw [he] at hlast
    · simp only [List.length_nil] at hlast
      omega
    · left
      obtain rfl : q = w.startOf k + 1 := by simp only [List.length_singleton] at hlast; omega
      exact elemAt_start (j := 0) hc (by rw [he]; rfl)
    · right
      have h1 : elemAt w.elems (w.startOf k + 1) = .reduce 0 len := elemAt_start (j := 0) hc (by rw [he]; rfl)
      have h2 : elemAt w.elems (w.startOf k + 1 + 1) = .bcast 0 len := elemAt_start (j := 1) hc (by rw [he]; rfl)
      have hq' : q = w.startOf k + 1 ∨ q = w.startOf k + 1 + 1 := by
        simp only [List.length_cons, List.length_nil] at hlast
        omega
      rcases hq' with rfl | rfl
      · exact .inl ⟨len, h1, h2⟩
      · exact .inr ⟨_, rfl, len, h1, h2⟩

end

/-! ## What a rank reads -/

/-- A message of a collective. -/
def IsColl (m : Msg) : Prop := ∃ x i q, m.origin = .coll x i q

/-- What holds while the ranks go through the rounds after phase `N`. -/
structure InRounds (w : World) (N : Nat) (s : Sys) : Prop where
  ready : ∀ r < w.n, (s.rank r).stage = .ready
  sim : SysSim w (fun _ => True) s.core s.sent
  begun : ∀ r < w.n, N ≤ w.phases r (s.rank r).rets.length
  sync : Synchronising w s
  net : ∀ p ∈ s.net, IsColl p.msg
  sock : ∀ r < w.n, ∀ m ∈ (s.rank r).sock, IsColl m
  queue : ∀ r < w.n, (s.rank r).pool.queue = []

section
variable {w : World} {N r : Nat} {s : Sys} {Z Y : Nat → Prop}

theorem InRounds.late (hi : InRounds w N s) (hr : r < w.n) {a : Act Nat}
    (hnext : next w.plan (absOf w s.core) r = some a) : N < (s.core r).ticks :=
  (hi.begun r hr).trans_lt ((hi.sim.rank r hr).in_call (next_lt hnext)).2.2

theorem InRounds.in_coll (hi : InRounds w N s) (hl : Labelled w s) (hr : r < w.n) {p : Prog Ret}
    (hp : (s.core r).prog? = some p) : w.isColl r (s.core r).rets.length = true := by
  obtain ⟨op, hop, -⟩ := hl.prog r p hp
  have hmem : op ∈ (w.prog r).drop (s.rank r).rets.length := by
    refine List.mem_of_getElem? (i := 0) ?_
    rw [List.getElem?_drop]
    exact hop
  exact isColl_iff.2 ⟨op, hop, syncs_call (hi.sync r hr op hmem)⟩

/-- Whatever is in the socket of a rank in `recv_match` is a message it looks for. -/
theorem InRounds.accepts (hi : InRounds w N s) (hR : Rounds w.plan 0 N Z Y) (hl : Labelled w s)
    (hsub : ∀ x, (apps (s.held x)).Subperm (msgsTo x s.sent)) (hr : r < w.n) {source tag : Int}
    {f : Except Int Datagram → Prog Ret} (hp : (s.core r).prog? = some (.recv_match source tag f)) {m : Msg}
    (hm : m ∈ (s.rank r).sock) : accepts source tag m = true := by
  obtain ⟨op, σ, -, -, ht⟩ := (hi.sim.rank r hr).tracks hp (hi.in_coll hl hr hp) (by simp)
  obtain ⟨src, as, hacts, rfl, rfl, -⟩ := ht.sat
  rw [ht.acts] at hacts
  have hnext : next w.plan (absOf w s.core) r = some (.recv src) := (drop_eq_cons hacts).1
  -- the message, as one the plan has sent and the rank has not taken
  have hmail : m ∈ (s.rank r).mail := List.mem_append_right _ hm
  have hheld : m ∈ s.held r := List.mem_append_left _ (List.mem_append_right _ hmail)
  obtain ⟨x, i, q, ho⟩ := hi.sock r hr m hm
  have hsent : m ∈ msgsTo r s.sent := (hsub r).subset (List.mem_filter.2 ⟨hheld, by simp [ho, Origin.app]⟩)
  have hso := hi.sim.sent _ (mem_msgsTo.1 hsent) x i q ho
  have hnot := not_took_of_mail (w := w) (hsub r) (hi.sim.uniq r) hmail ho
  have hq : q = (s.core r).ticks :=
    hR.current (plan_balanced (elems_rooted w)) hi.sim.inv hi.sim.exact (hi.late hr hnext) hnext hso.sent hnot
  have hok := hl.held r m hheld
  simp only [MsgOk, ho] at hok
  obtain ⟨-, -, -, -, -, hsrc, -⟩ := hok
  refine accepts_iff.2 ⟨?_, .inr ?_⟩
  · cases src with
    | none => exact .inl rfl
    | some y =>
      have hxy : x = y := by
        have hsend := (phase_of_mem hso.sent).2
        rw [hq] at hsend
        exact plan_leveled.src _ x r y (List.mem_of_getElem? hnext) hsend
      exact .inr (by rw [← hxy]; exact hsrc)
  · rw [ht.elem, ht.phase, ← hq]
    exact hso.tag

/-- A step of a rank with an empty queue that looks for all that is in its
socket. -/
theorem read_step {k k' : Rank} {a : Do} {out : List Packet} (hr : k.stage = .ready) (hq : k.pool.queue = [])
    (hacc : ∀ source tag f, k.prog? = some (.recv_match source tag f) → ∀ m ∈ k.sock, accepts source tag m = true)
    (h : k.step w r a = some (k', out)) : k'.pool.queue = [] ∧ k'.sock ⊆ k.sock ∧ k.lost a = [] := by
  cases a with simp only [Rank.step, hr, if_true] at h
  | bind => cases h
  | init => simp only [rendezvous, hr] at h; cases h
  | call =>
    split at h <;> cases h
    exact ⟨hq, List.Subset.refl _, rfl⟩
  | exec =>
    refine ⟨?_, by rw [(exec_mail h).1]; exact List.Subset.refl _, rfl⟩
    unfold Rank.exec at h
    split at h
    · cases h; exact hq
    · cases h; exact hq
    · cases h; exact hq
    · rename_i source tag f _
      have hleft := (k.pool.take_spec (accepts source tag)).2
      rw [hq, List.eraseP_nil] at hleft
      split at h <;> rename_i htake <;> cases h <;> rw [htake] at hleft <;> exact hleft
    · cases h
  | recv =>
    split at h
    · rename_i m sock hs
      unfold Rank.recvfrom at h
      split at h
      · rename_i source tag f hctl
        replace hctl : k.ctl = .recvLoop source tag f := hctl
        have ha := hacc source tag f (by simp [Rank.prog?, hctl]) m (by simp [hs])
        simp only [recv_match_body, recv_match_pass, ha, if_true] at h
        cases h
        refine ⟨hq, ?_, by simp [Rank.lost, hctl, hs, ha]⟩
        rw [hs]
        exact List.subset_cons_self m sock
      · cases h
    · cases h
  | err e =>
    split_ifs at h
    split at h
    · cases h; exact ⟨hq, List.Subset.refl _, rfl⟩
    · unfold Rank.recvfrom at h
      split at h
      · unfold recv_match_body recv_match_pass at h
        simp only at h
        split_ifs at h <;> cases h <;> exact ⟨hq, List.Subset.refl _, rfl⟩
      · cases h

/-- No step drops a message. -/
theorem InRounds.lost (hi : InRounds w N s) (hR : Rounds w.plan 0 N Z Y) (hl : Labelled w s)
    (hsub : ∀ x, (apps (s.held x)).Subperm (msgsTo x s.sent)) {l : Label} {s' : Sys} (h : step w s l = some s')
    (x : Nat) :
    s.lost x l = [] := by
  cases l with
  | rank r a =>
    have hr := (step_rank h).1
    simp only [Sys.lost]
    split
    · exact (read_step (hi.ready r hr) (hi.queue r hr) (fun _ _ _ hp _ hm => hi.accepts hR hl hsub hr hp hm)
        (step_one h).1).2.2
    · rfl
  | deliver i =>
    obtain ⟨p, hp, -⟩ := step_deliver h
    -- it is sent to a rank, and all ranks are started
    obtain ⟨y, j, q, ho⟩ := hi.net p (List.mem_of_getElem? hp)
    have hok := hl.held p.dst p.msg
      (List.mem_append_left _ (List.mem_append_left _ (mem_msgsTo.2 (List.mem_of_getElem? hp))))
    simp only [MsgOk, ho] at hok
    obtain ⟨-, -, -, -, hdst, -⟩ := hok
    simp only [Sys.lost, hp]
    refine if_neg ?_
    rintro ⟨rfl, hclosed⟩
    simp [Rank.open?, hi.ready p.dst hdst] at hclosed

/-! ## Runs -/

theorem net_step {l : Label} {s' : Sys} (h : step w s l = some s') {p : Packet} (hp : p ∈ s'.net) :
    p ∈ s.net ∨ p ∈ news w s l := by
  cases l with
  | rank r a =>
    obtain ⟨-, k, out, hk, rfl⟩ := step_rank h
    simpa [news, hk] using hp
  | deliver i =>
    obtain ⟨q, -, hnet, -⟩ := deliver_spec h
    rw [hnet] at hp
    exact .inl (List.mem_of_mem_eraseIdx hp)

theorem rets_mono {l : Label} {s' : Sys} (h : step w s l = some s') (x : Nat) :
    (s.rank x).rets.length ≤ (s'.rank x).rets.length := by
  show (s.core x).rets.length ≤ (s'.core x).rets.length
  rcases sys_move h with ⟨r, a, c', -, -, hm, hc⟩ | ⟨hc, -⟩ <;> rw [hc]
  by_cases hx : x = r
  · subst hx
    rw [Function.update_self]
    generalize news w s l = out at hm
    cases hm with
    | ret => simp
    | _ => exact Nat.le_refl _
  · rw [Function.update_of_ne hx]

/-- What a rank sends in a round is a message of a collective. -/
theorem InRounds.news_coll (hi : InRounds w N s) (hl : Labelled w s) {l : Label} {s' : Sys} (h : step w s l = some s') :
    ∀ p ∈ news w s l, IsColl p.msg := by
  intro p hp
  have happ := ready_news hi.ready h p hp
  rcases sys_move h with ⟨r, a, c', rfl, hr, hm, -⟩ | ⟨-, hn⟩
  · generalize news w s (.rank r a) = out at hm hp
    cases hm with
    | quiet hq =>
      rw [(hq p hp).not_app] at happ
      cases happ
    | send h1 =>
      simp only [List.mem_singleton] at hp
      subst hp
      exact ⟨r, (s.core r).rets.length, (s.core r).ticks, by simp only [Core.origin, hi.in_coll hl hr h1, if_true]⟩
    | _ => cases hp
  · rw [hn] at hp
    cases hp

/-- Messages stay those of collectives, and none gets on a queue. -/
theorem InRounds.places (hi : InRounds w N s) (hR : Rounds w.plan 0 N Z Y) (hl : Labelled w s)
    (hsub : ∀ x, (apps (s.held x)).Subperm (msgsTo x s.sent)) {l : Label} {s' : Sys} (h : step w s l = some s') :
    (∀ p ∈ s'.net, IsColl p.msg) ∧
      ∀ x < w.n, (∀ m ∈ (s'.rank x).sock, IsColl m) ∧ (s'.rank x).pool.queue = [] := by
  cases l with
  | rank r a =>
    have hr := (step_rank h).1
    obtain ⟨hk, hsame⟩ := step_one h
    obtain ⟨hq, hsock, -⟩ := read_step (hi.ready r hr) (hi.queue r hr)
      (fun _ _ _ hp _ hm => hi.accepts hR hl hsub hr hp hm) hk
    refine ⟨fun p hp => ?_, fun x hx => ?_⟩
    · rcases net_step h hp with hp | hp
      · exact hi.net p hp
      · exact hi.news_coll hl h p hp
    · by_cases hxr : x = r
      · subst hxr
        exact ⟨fun m hm => hi.sock x hr m (hsock hm), hq⟩
      · rw [hsame x hxr]
        exact ⟨hi.sock x hx, hi.queue x hx⟩
  | deliver i =>
    refine ⟨fun p hp => hi.net p ((net_step h hp).resolve_right (by simp [news])), fun x hx => ?_⟩
    obtain ⟨p, hp, -, hrank⟩ := deliver_spec h
    rcases hrank x with ⟨hxp, -⟩ | ⟨-, hxp⟩ <;> rw [hxp]
    · exact ⟨hi.sock x hx, hi.queue x hx⟩
    · refine ⟨fun m hm => ?_, hi.queue x hx⟩
      rcases List.mem_append.1 hm with hm | hm
      · exact hi.sock x hx m hm
      · rw [List.mem_singleton.1 hm]
        exact hi.net p (List.mem_of_getElem? hp)

theorem InRounds.step (hw : Lawful w) (hi : InRounds w N s) (hR : Rounds w.plan 0 N Z Y) (hl : Labelled w s)
    (hsub : ∀ x, (apps (s.held x)).Subperm (msgsTo x s.sent)) {l : Label} {s' : Sys} (h : step w s l = some s')
    (hcalm : calm s l = true) : InRounds w N s' := by
  have hB : Balanced w.plan := plan_balanced (elems_rooted w)
  have hexact : ∀ st', Step w.plan (absOf w s.core) st' → Exact (fun _ => True) st' := fun st' hst =>
    exact_rounds hR hB hi.sim.inv hi.sim.exact
      (fun r src hnext => hi.late
        (by simpa [World.plan, plan] using hB.mem_ranks (List.mem_of_getElem? hnext)) hnext) hst
  have hrets := rets_mono h
  obtain ⟨hnet, hrank⟩ := hi.places hR hl hsub h
  refine ⟨ready_step hi.ready h, ?_, fun r hr => (hi.begun r hr).trans (phases_mono (hrets r)), fun r hr op hop => ?_,
    hnet, fun r hr => (hrank r hr).1, fun r hr => (hrank r hr).2⟩
  · exact sim_step hw hl hsub hi.sim h hcalm (fun _ _ _ _ hd => hd.1 trivial) hexact
  · refine hi.sync r hr op ?_
    rw [← Nat.add_sub_cancel' (hrets r), ← List.drop_drop] at hop
    exact List.mem_of_mem_drop hop

theorem rested_inRounds (hw : Lawful w) (hstart : Run (step w) (fun s l _ => Regular w s l) start s)
    (hrest : Rested w s) (hsync : Synchronising w s) : InRounds w (s.rank 0).ticks s := by
  have hsim := run_exact hw (fun _ _ _ hl => hl) hstart
  refine ⟨hrest.ready, hsim, fun r hr => ?_, hsync, ?_, fun r hr => ?_, hrest.queue⟩
  · -- between two calls a rank is at the end of a phase
    have hnone : (s.core r).prog? = none := Option.isNone_iff_eq_none.1 (hrest.idle r hr)
    rw [← hrest.alike r hr]
    exact ((hsim.rank r hr).rest (by simp [hnone])).1.le
  · rw [hrest.net]
    simp
  · rw [hrest.sock r hr]
    simp

/-- From a state on in which all ranks are started and have nothing in flight, in
their sockets or on their queues, and in which they go on to make the same
barriers and `MPI_Allreduce`s: in every state, however far apart the ranks are
and in whatever order messages arrive, every unexpected queue is empty, the
datagram a rank reads next is one its receive matches, and no step drops a
message. -/
theorem synchronising_calls_need_no_queue (hw : Lawful w) {s₀ : Sys}
    (hstart : Run (step w) (fun s l _ => Regular w s l) start s₀) (hrest : Rested w s₀) (hsync : Synchronising w s₀)
    (h : Run (step w) (fun s l _ => calm s l = true) s₀ s) :
    (∀ r < w.n, (s.rank r).pool.queue = []) ∧
      (∀ r < w.n, ∀ source tag f m rest, (s.rank r).ctl = .recvLoop source tag f → (s.rank r).sock = m :: rest →
        accepts source tag m = true) ∧
      ∀ l s', step w s l = some s' → ∀ x, s.lost x l = [] := by
  have hi₀ := rested_inRounds hw hstart hrest hsync
  have hphase : w.phases 0 (s₀.rank 0).rets.length = (s₀.rank 0).ticks := by
    refine Nat.le_antisymm ?_ (hi₀.begun 0 w.pos)
    exact (hi₀.sim.rank 0 w.pos).low
  have hR := plan_rounds hw (hsync 0 w.pos) hphase
  have hreach : ∀ {s}, Run (step w) (fun s l _ => calm s l = true) s₀ s →
      Run (step w) (fun _ _ _ => True) start s := fun h' =>
    (hstart.mono fun _ _ _ _ => trivial).trans (h'.mono fun _ _ _ _ => trivial)
  have hi : InRounds w (s₀.rank 0).ticks s :=
    h.inv_reach _ hi₀ fun s l s' hr hi hcalm hst =>
      hi.step hw hR (run_labelled (hreach hr)) (held_subperm (hreach hr)) hst hcalm
  have hl := run_labelled (hreach h)
  have hsub := held_subperm (hreach h)
  refine ⟨hi.queue, fun r hr source tag f m rest hctl hsock => ?_, fun l s' hst x => hi.lost hR hl hsub hst x⟩
  exact hi.accepts hR hl hsub hr (f := f) (by simp [Sys.core, Rank.core, Rank.prog?, hctl]) (by simp [hsock])

/-- Two ranks that meet and then add their numbers. -/
def duoSum : World :=
  duo [.barrier MPI_COMM_WORLD, .allreduce [1, 0, 0, 0] [0, 0, 0, 0] 1 MPI_INT MPI_SUM MPI_COMM_WORLD]
    [.barrier MPI_COMM_WORLD, .allreduce [2, 0, 0, 0] [0, 0, 0, 0] 1 MPI_INT MPI_SUM MPI_COMM_WORLD]

/-- Both are through the barrier, and rank 0 waits for the number of rank 1. -/
def duoSumRun : List Label :=
  [.rank 1 .call, .rank 1 .exec, .rank 1 .exec, .deliver 0, .rank 0 .call, .rank 0 .exec, .rank 0 .exec, .rank 0 .recv,
    .rank 0 .exec, .rank 0 .exec, .deliver 0, .rank 1 .exec, .rank 1 .recv, .rank 1 .exec, .rank 1 .call, .rank 1 .exec,
    .rank 1 .exec, .deliver 0, .rank 0 .call, .rank 0 .exec, .rank 0 .exec]

theorem synchronising_calls_need_no_queue_duo :
    ∃ s₀ s, Run (step duoSum) (fun s l _ => Regular duoSum s l) start s₀ ∧ Rested duoSum s₀ ∧
      Synchronising duoSum s₀ ∧ Run (step duoSum) (fun s l _ => calm s l = true) s₀ s ∧
      (s.rank 0).waiting = true ∧ (s.rank 0).sock.length = 1 ∧ ∀ r < 2, (s.rank r).pool.queue = [] := by
  have h : (exec (step duoSum) (fun s l => decide (Regular duoSum s l)) start duoInit).map (fun s₀ =>
      decide (Rested duoSum s₀ ∧ Synchronising duoSum s₀ ∧
        (exec (step duoSum) calm s₀ duoSumRun).map (fun s =>
          decide ((s.rank 0).waiting = true ∧ (s.rank 0).sock.length = 1)) = some true)) = some true := by
    decide +kernel
  obtain ⟨s₀, hstart, hrest, hsync, h'⟩ := exec_reaches h fun _ _ _ hb => by simpa using hb
  obtain ⟨s, hrun, hwait, hsock⟩ := exec_reaches h' fun _ _ _ hb => hb
  exact ⟨s₀, s, hstart, hrest, hsync, hrun, hwait, hsock,
    (synchronising_calls_need_no_queue (by decide) hstart hrest hsync hrun).1⟩

end

end LibNeoos.Mpi
