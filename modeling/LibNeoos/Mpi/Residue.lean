import LibNeoos.Mpi.Delivery
/-!
# What the handshake leaves behind

A rank repeats its `HELLO` every 64 rounds until its `GO` is there, and rank 0
reads no more once it has heard from all ranks. A `HELLO` that is under way to
rank 0 at that moment, or sent later, is not the handshake's any more: the
first receive of rank 0 that meets it puts it on the unexpected queue. If there
is none, every rank reads the one `GO` it gets, and nothing is left when all
ranks are started (`handshake_leaves_no_residue`).
-/

namespace LibNeoos.Mpi

open LibNeoos.Lib

def Origin.isHello : Origin → Bool
  | .hello _ => true
  | _ => false

/-- The messages of the handshake that are in flight to `x`, in its socket or on
its unexpected queue. -/
def Sys.residue (s : Sys) (x : Nat) : List Msg := (msgsTo x s.net ++ (s.rank x).mail).filter (! ·.origin.app)

/-- No `HELLO` is under way when rank 0 stops reading, and none is sent after. -/
def tidy (s : Sys) : Label → Bool
  | .rank r .init =>
    match (s.rank r).stage with
    | .hello 0 => ! (s.rank 0).stage.past
    | .collect _ 0 => (msgsTo 0 s.net ++ (s.rank 0).sock).all (! ·.origin.isHello)
    | _ => true
  | _ => true

/-! ## Stages -/

/-- The stages only rank 0 has. -/
def Stage.ofRoot : Stage → Bool
  | .collect .. => true
  | .go _ => true
  | _ => false

/-- The stages only the other ranks have. -/
def Stage.ofOther : Stage → Bool
  | .hello _ => true
  | .poll _ => true
  | _ => false

/-- Rank 0 has sent the `GO` of rank `b`, or will never send it. -/
def Stage.goSent (b : Nat) : Stage → Bool
  | .go i => b < i
  | .restore => true
  | .ready => true
  | .failed => true
  | _ => false

section
variable {w : World} {r : Nat} {k k' : Rank} {out : List Packet} {a : Do}

/-- What a rank other than rank 0 does before it is started: it sends nothing
but `HELLO`s, and goes on when it reads a `GO`. -/
theorem other_step (hn : 2 ≤ w.n) (hr : r ≠ 0) (hk : k.stage.ofRoot = false) (hnr : k.stage ≠ .ready)
    (h : k.step w r a = some (k', out)) :
    k'.stage.ofRoot = false ∧
      (∀ p ∈ out, p = ⟨0, token r TAG_HELLO, .hello r⟩ ∧ a = .init ∧ k.stage = .hello 0) ∧
      (k'.stage = .restore ∨ k'.stage = .ready → k.stage = .restore ∨
        ∃ c m q, a = .init ∧ k.stage = .poll c ∧ k.sock = m :: q ∧ m.frame.hdr.tag = TAG_GO) := by
  rcases step_early hnr h with ⟨-, hu, rfl, rfl⟩ | ⟨rfl, st, q, rfl, hj⟩ | ⟨e, rfl, rfl, st, rfl, hf⟩
  · exact ⟨rfl, by simp, by simp⟩
  · generalize k.stage = st0, k.sock = q0 at hj hk ⊢
    cases hj with
    | alone h1 => omega
    | root h1 h2 => exact absurd h2 hr
    | @hello c =>
      refine ⟨rfl, fun p hp => ?_, by simp⟩
      split at hp <;> simp only [List.mem_singleton, List.not_mem_nil] at hp
      subst hp
      exact ⟨rfl, rfl, by simp [*]⟩
    | acked h1 => exact ⟨rfl, by simp, fun _ => .inr ⟨_, _, _, rfl, rfl, rfl, h1⟩⟩
    | restored => exact ⟨rfl, by simp, fun _ => .inl rfl⟩
    | other | empty | ignores => exact ⟨rfl, by simp, by simp⟩
    | _ => cases hk
  · generalize k.stage = st0 at hf hk ⊢
    cases hf with
    | fatal | hello | poll => exact ⟨rfl, by simp, by simp⟩
    | _ => cases hk

/-- What rank 0 does before it is started: it sends each rank one `GO`, and
begins to when it has heard from all. -/
theorem root_sends (hn : 2 ≤ w.n) (hk : k.stage.ofOther = false) (hnr : k.stage ≠ .ready)
    (h : k.step w 0 a = some (k', out)) :
    k'.stage.ofOther = false ∧
      (k'.stage.past = true → k.stage.past = true ∨ ∃ seen, a = .init ∧ k.stage = .collect seen 0) ∧
      (∀ b, k.stage.goSent b = true → k'.stage.goSent b = true) ∧
      (∀ i, k'.stage = .go i → i = 1 ∨ ∃ j, k.stage = .go j ∧ i = j + 1) ∧
      (out = [] ∨ ∃ i < w.n, k.stage = .go i ∧ k'.stage = .go (i + 1) ∧ out = [⟨i, token 0 TAG_GO, .go⟩]) := by
  rcases step_early hnr h with ⟨-, hu, rfl, rfl⟩ | ⟨rfl, st, q, rfl, hj⟩ | ⟨e, rfl, rfl, st, rfl, hf⟩
  · simp [hu, Stage.ofOther, Stage.past, Stage.goSent]
  · generalize k.stage = st0, k.sock = q0 at hj hk ⊢
    cases hj with
    | alone h1 => omega
    | other h1 h2 => exact absurd rfl h2
    | @go i q h1 =>
      refine ⟨rfl, fun _ => .inl rfl, fun b hb => ?_, fun j hj => .inr ⟨i, rfl, ?_⟩, .inr ⟨i, h1, rfl, rfl, rfl⟩⟩
      · simp only [Stage.goSent, decide_eq_true_eq] at hb ⊢
        omega
      · simpa using hj.symm
    | root | all | yield | hears | skips | went | restored => simp [Stage.ofOther, Stage.past, Stage.goSent]
    | _ => cases hk
  · generalize k.stage = st0 at hf hk ⊢
    cases hf with
    | @go i =>
      refine ⟨rfl, fun _ => .inl rfl, fun b hb => ?_, fun j hj => .inr ⟨i, rfl, ?_⟩, .inl rfl⟩
      · simp only [Stage.goSent, decide_eq_true_eq] at hb ⊢
        omega
      · simpa using hj.symm
    | fatal | collect => simp [Stage.ofOther, Stage.past, Stage.goSent]
    | _ => cases hk

end

/-! ## While no call has sent anything -/

/-- The number of `GO`s among some messages. -/
def gos (l : List Msg) : Nat := l.countP (·.origin = .go)

/-- Every rank is in a stage of its own. -/
structure Roles (s : Sys) : Prop where
  root : (s.rank 0).stage.ofOther = false
  other : ∀ r, r ≠ 0 → (s.rank r).stage.ofRoot = false

/-- Rank 0 alone is sent `HELLO`s, and none is left once it has decided; each
other rank is sent one `GO`, which is gone when the rank has gone on. -/
structure Settling (w : World) (s : Sys) : Prop where
  first : ∀ i, (s.rank 0).stage = .go i → 1 ≤ i
  hello : ∀ x, ∀ m ∈ s.held x, m.origin.isHello = true → x = 0 ∧ (s.rank 0).stage.past = false
  go : ∀ b, gos (s.held b) ≤ if 0 < b ∧ b < w.n ∧ (s.rank 0).stage.goSent b = true then 1 else 0
  acked : ∀ b, b ≠ 0 → (s.rank b).stage = .restore ∨ (s.rank b).stage = .ready →
    gos (s.held b) = 0 ∧ (s.rank 0).stage.goSent b = true

section
variable {w : World} {s s' : Sys} {l : Label}

theorem run_roles (hn : 2 ≤ w.n) {ok : Sys → Label → Sys → Prop} (h : Run (step w) ok start s) : Roles s := by
  refine h.inv Roles ⟨rfl, fun _ _ => rfl⟩ fun s l s' hR _ hst => ?_
  cases l with
  | rank r a =>
    obtain ⟨hk, hsame⟩ := step_one hst
    by_cases hready : (s.rank r).stage = .ready
    · have hstage : ∀ x, (s'.rank x).stage = (s.rank x).stage := fun x => by
        by_cases hx : x = r
        · subst hx
          rw [hready, (step_ready hready hk).1]
        · rw [hsame x hx]
      exact ⟨by rw [hstage]; exact hR.root, fun x hx => by rw [hstage]; exact hR.other x hx⟩
    · by_cases h0 : r = 0
      · subst h0
        exact ⟨(root_sends hn hR.root hready hk).1, fun x hx => by rw [hsame x hx]; exact hR.other x hx⟩
      · refine ⟨by rw [hsame 0 (Ne.symm h0)]; exact hR.root, fun x hx => ?_⟩
        by_cases hxr : x = r
        · subst hxr
          exact (other_step hn h0 (hR.other x hx) hready hk).1
        · rw [hsame x hxr]
          exact hR.other x hx
  | deliver i =>
    have hstage := deliver_stage hst
    exact ⟨by rw [hstage]; exact hR.root, fun x hx => by rw [hstage]; exact hR.other x hx⟩

theorem held_step (h : step w s l = some s') {x : Nat} {m : Msg} (hm : m ∈ s'.held x) :
    m ∈ s.held x ∨ (⟨x, m⟩ : Packet) ∈ news w s l := by
  have := (step_held h x).symm.subset (List.mem_append_left _ hm)
  simpa [mem_msgsTo] using this

theorem gos_step (h : step w s l = some s') (b : Nat) :
    gos (s'.held b) + gos (s.lost b l) = gos (s.held b) + gos (msgsTo b (news w s l)) := by
  have := (step_held h b).countP_eq (·.origin = .go)
  simp only [List.countP_append] at this
  exact this.symm

theorem start_settling (w : World) : Settling w start := by
  refine ⟨fun i h => (by cases h), fun x m hm => ?_, fun b => ?_, fun b _ h => ?_⟩
  · simp [start, Sys.held, msgsTo, Rank.mail, Rank.taken] at hm
  · simp [start, Sys.held, msgsTo, Rank.mail, Rank.taken, gos]
  · rcases h with h | h <;> cases h

/-- A step that sends nothing and changes no stage. -/
theorem Settling.still (hi : Settling w s) (h : step w s l = some s') (hnews : news w s l = [])
    (hstage : ∀ x, (s'.rank x).stage = (s.rank x).stage) : Settling w s' := by
  have hgos : ∀ b, gos (s'.held b) ≤ gos (s.held b) := fun b => by
    have := gos_step h b
    rw [hnews, show gos (msgsTo b []) = 0 from rfl] at this
    omega
  refine ⟨fun i => ?_, fun x m hm hh => ?_, fun b => ?_, fun b hb hst => ?_⟩
  · rw [hstage]
    exact hi.first i
  · rcases held_step h hm with h1 | h1
    · rw [hstage]
      exact hi.hello x m h1 hh
    · rw [hnews] at h1
      cases h1
  · rw [hstage]
    exact (hgos b).trans (hi.go b)
  · rw [hstage] at hst ⊢
    obtain ⟨h1, h2⟩ := hi.acked b hb hst
    have := hgos b
    exact ⟨by omega, h2⟩

/-- What a rank holds that has not been started is in its socket. -/
def Unstarted (s : Sys) : Prop :=
  ∀ x, (s.rank x).stage ≠ .ready → (s.rank x).pool.queue = [] ∧ (s.rank x).got = []

theorem run_unstarted {ok : Sys → Label → Sys → Prop} (h : Run (step w) ok start s) : Unstarted s := by
  refine h.inv Unstarted (fun x _ => ?_) fun s l s' hi _ hst => ?_
  · simp [start]
  · intro x
    refine step_each (P := fun k => k.stage ≠ .ready → k.pool.queue = [] ∧ k.got = []) (fun _ _ hk => hk) hst x
      (fun a k out _ hk hx => ?_) (hi x)
    have hnr : (s.rank x).stage ≠ .ready := fun hr => hx (step_ready hr hk).1
    rcases step_early hnr hk with ⟨-, -, rfl, -⟩ | ⟨-, st, q, rfl, -⟩ | ⟨e, -, -, st, rfl, -⟩ <;> exact hi x hnr

/-- A message of the handshake that ends the loop of a rank is a `GO`. -/
theorem go_of_tag (hl : Labelled w s) {x : Nat} {m : Msg} (hm : m ∈ s.held x) (happ : m.origin.app = false)
    (htag : m.frame.hdr.tag = TAG_GO) : m.origin = .go := by
  have hok := hl.held x m hm
  cases ho : m.origin with
  | go => rfl
  | hello y =>
    simp only [MsgOk, ho] at hok
    simp [hok, token] at htag
  | user => simp [ho, Origin.app] at happ
  | coll => simp [ho, Origin.app] at happ

/-- A step of a rank other than rank 0 in `MPI_Init`. -/
theorem Settling.other_init (hn : 2 ≤ w.n) (hi : Settling w s) (hR : Roles s) (hl : Labelled w s)
    (happ : ∀ x, ∀ m ∈ s.held x, m.origin.app = false) {r : Nat} {a : Do} (h : step w s (.rank r a) = some s')
    (hr : r ≠ 0) (hnr : (s.rank r).stage ≠ .ready) (ht : tidy s (.rank r a) = true) : Settling w s' := by
  obtain ⟨hk, hsame⟩ := step_one h
  have hroot := hsame 0 (Ne.symm hr)
  obtain ⟨-, h2, h3⟩ := other_step hn hr (hR.other r hr) hnr hk
  have hnogo : ∀ b, gos (msgsTo b (news w s (.rank r a))) = 0 := fun b => by
    refine List.countP_eq_zero.2 fun m hm => ?_
    have hp := (h2 ⟨b, m⟩ (mem_msgsTo.1 hm)).1
    simp only [Packet.mk.injEq] at hp
    simp [hp.2]
  have hle : ∀ b, gos (s'.held b) ≤ gos (s.held b) := fun b => by
    have := gos_step h b
    rw [hnogo b] at this
    omega
  refine ⟨by rw [hroot]; exact hi.first, fun x m hm hh => ?_, fun b => ?_, fun b hb hst => ?_⟩
  · rw [hroot]
    rcases held_step h hm with hm | hm
    · exact hi.hello x m hm hh
    · -- a `HELLO` is sent to rank 0, which has not decided
      obtain ⟨hp, rfl, hst⟩ := h2 _ hm
      simp only [Packet.mk.injEq] at hp
      simp only [tidy, hst, Bool.not_eq_true'] at ht
      exact ⟨hp.1, ht⟩
  · rw [hroot]
    exact (hle b).trans (hi.go b)
  · rw [hroot]
    by_cases hbr : b = r
    · subst hbr
      rcases h3 hst with hst | ⟨c, m, q, rfl, hst, hq, htag⟩
      · obtain ⟨h4, h5⟩ := hi.acked b hb (.inl hst)
        exact ⟨Nat.eq_zero_of_le_zero (h4 ▸ hle b), h5⟩
      · -- what the rank reads is its `GO`, and there is one at most
        have hmem : m ∈ s.held b := by simp [Sys.held, Rank.mail, hq]
        have hgo := go_of_tag hl hmem (happ b m hmem) htag
        have hlost : gos (s.lost b (.rank b .init)) = 1 := by simp [Sys.lost, Rank.lost, hst, hq, gos, hgo]
        have hpos : 0 < gos (s.held b) := List.countP_pos_iff.2 ⟨m, hmem, by simp [hgo]⟩
        have hbound := hi.go b
        have hcount := gos_step h b
        rw [hnogo b, hlost] at hcount
        split at hbound
        · rename_i hc
          exact ⟨by omega, hc.2.2⟩
        · omega
    · rw [hsame b hbr] at hst
      obtain ⟨h4, h5⟩ := hi.acked b hb hst
      exact ⟨Nat.eq_zero_of_le_zero (h4 ▸ hle b), h5⟩

/-- A step of rank 0 in `MPI_Init`. -/
theorem Settling.root_init (hn : 2 ≤ w.n) (hi : Settling w s) (hR : Roles s) (hu : Unstarted s) {a : Do}
    (h : step w s (.rank 0 a) = some s') (hnr : (s.rank 0).stage ≠ .ready) (ht : tidy s (.rank 0 a) = true) :
    Settling w s' := by
  obtain ⟨hk, hsame⟩ := step_one h
  obtain ⟨-, h2, h3, h4, h5⟩ := root_sends hn hR.root hnr hk
  have hcount : ∀ b, gos (s'.held b) ≤ gos (s.held b) ∨ (gos (s'.held b) ≤ gos (s.held b) + 1 ∧ b < w.n ∧
      (s.rank 0).stage = .go b ∧ (s'.rank 0).stage = .go (b + 1)) := by
    intro b
    have hc := gos_step h b
    rcases h5 with hnil | ⟨i, hin, hst, hst', hout⟩
    · rw [hnil, show gos (msgsTo b []) = 0 from rfl] at hc
      exact .inl (by omega)
    · rw [hout] at hc
      by_cases hb : i = b
      · subst hb
        rw [show gos (msgsTo i [⟨i, token 0 TAG_GO, .go⟩]) = 1 by simp [msgsTo, gos]] at hc
        exact .inr ⟨by omega, hin, hst, hst'⟩
      · rw [show gos (msgsTo b [⟨i, token 0 TAG_GO, .go⟩]) = 0 by simp [msgsTo, gos, hb]] at hc
        exact .inl (by omega)
  refine ⟨fun i hst => ?_, fun x m hm hh => ?_, fun b => ?_, fun b hb hst => ?_⟩
  · rcases h4 i hst with rfl | ⟨j, hj, rfl⟩
    · exact Nat.le_refl _
    · exact Nat.le_succ_of_le (hi.first j hj)
  · have hm' : m ∈ s.held x := by
      rcases held_step h hm with hm | hm
      · exact hm
      · rcases h5 with hnil | ⟨i, -, -, -, hout⟩
        · rw [hnil] at hm
          cases hm
        · rw [hout, List.mem_singleton, Packet.mk.injEq] at hm
          rw [hm.2] at hh
          cases hh
    obtain ⟨rfl, hpast⟩ := hi.hello x m hm' hh
    refine ⟨rfl, ?_⟩
    by_contra hnot
    rcases h2 (by simpa using hnot) with h6 | ⟨seen, rfl, hst⟩
    · rw [h6] at hpast
      cases hpast
    · -- rank 0 stops reading only when no `HELLO` is under way
      obtain ⟨hq, hg⟩ := hu 0 hnr
      simp only [tidy, hst] at ht
      have hin : m ∈ msgsTo 0 s.net ++ (s.rank 0).sock := by
        simpa [Sys.held, Rank.mail, Rank.taken, hq, hg] using hm'
      have := List.all_eq_true.1 ht m hin
      rw [hh] at this
      cases this
  · have hbound := hi.go b
    rcases hcount b with hc | ⟨hc, hbn, hst, hst'⟩
    · refine hc.trans (hbound.trans ?_)
      by_cases hs : 0 < b ∧ b < w.n ∧ (s.rank 0).stage.goSent b = true
      · rw [if_pos hs, if_pos ⟨hs.1, hs.2.1, h3 b hs.2.2⟩]
      · rw [if_neg hs]
        exact Nat.zero_le _
    · -- the one `GO` of rank `b`
      rw [if_neg (by simp [hst, Stage.goSent])] at hbound
      rw [if_pos ⟨hi.first b hst, hbn, by simp [hst', Stage.goSent]⟩]
      omega
  · rw [hsame b hb] at hst
    obtain ⟨h6, h7⟩ := hi.acked b hb hst
    refine ⟨?_, h3 b h7⟩
    rcases hcount b with hc | ⟨-, -, hst', -⟩
    · omega
    · simp [hst', Stage.goSent] at h7

/-- A step after which still no call has sent anything. -/
theorem settling_step (hn : 2 ≤ w.n) (hR : Roles s) (hl : Labelled w s) (hu : Unstarted s)
    (happ : ∀ x, ∀ m ∈ s.held x, m.origin.app = false) (hi : Settling w s) (h : step w s l = some s')
    (ht : tidy s l = true) (hsent : s'.sent = []) : Settling w s' := by
  cases l with
  | rank r a =>
    by_cases hr : (s.rank r).stage = .ready
    · obtain ⟨hk, hsame⟩ := step_one h
      have hnews : news w s (.rank r a) = [] := by
        have hall := ready_out hr hk
        have hs := step_sent h
        rw [hsent, eq_comm, List.append_eq_nil_iff] at hs
        rw [← List.filter_eq_self.2 hall]
        exact hs.2
      refine hi.still h hnews fun x => ?_
      by_cases hx : x = r
      · subst hx
        rw [hr, (step_ready hr hk).1]
      · rw [hsame x hx]
    · by_cases h0 : r = 0
      · subst h0
        exact hi.root_init hn hR hu h hr ht
      · exact hi.other_init hn hR hl happ h h0 hr ht
  | deliver i => exact hi.still h rfl (deliver_stage h)

/-! ## When all ranks are started -/

/-- While no call has sent anything, all messages are the handshake's. -/
theorem handshake_only {ok : Sys → Label → Sys → Prop} (h : Run (step w) ok start s) (hsent : s.sent = []) (x : Nat) :
    ∀ m ∈ s.held x, m.origin.app = false := by
  have hsub := held_subperm h x
  rw [hsent, show msgsTo x [] = [] from rfl, List.subperm_nil, apps, List.filter_eq_nil_iff] at hsub
  simpa using hsub

theorem run_settling (hn : 2 ≤ w.n) (h : Run (step w) (fun s l _ => tidy s l = true) start s) (hsent : s.sent = []) :
    Settling w s := by
  refine h.inv_reach (fun s => s.sent = [] → Settling w s) (fun _ => start_settling w) ?_ hsent
  intro s l s' hr hi ht hst hsent'
  have hbefore : s.sent = [] := by
    have hs := step_sent hst
    rw [hsent', eq_comm, List.append_eq_nil_iff] at hs
    exact hs.1
  exact settling_step hn (run_roles hn hr) (run_labelled hr) (run_unstarted hr) (handshake_only hr hbefore)
    (hi hbefore) hst ht hsent'

/-- Once all ranks are started, only calls send messages. -/
theorem started_step (hall : ∀ r < w.n, (s.rank r).stage = .ready) (hi : ∀ x, ∀ m ∈ s.held x, m.origin.app = true)
    (h : step w s l = some s') :
    (∀ r < w.n, (s'.rank r).stage = .ready) ∧ ∀ x, ∀ m ∈ s'.held x, m.origin.app = true := by
  refine ⟨ready_step hall h, fun x m hm => ?_⟩
  rcases held_step h hm with hm | hm
  · exact hi x m hm
  · exact ready_news hall h _ hm

theorem residue_eq_nil {x : Nat} (h : ∀ m ∈ s.held x, m.origin.app = true) : s.residue x = [] := by
  refine List.filter_eq_nil_iff.2 fun m hm => ?_
  simp [h m (by simp only [Sys.held]; exact List.mem_append_left _ hm)]

/-- Once all ranks are started, only messages of calls are under way. -/
theorem Settling.only_calls (hi : Settling w s) (hn : 2 ≤ w.n) (hready : ∀ r < w.n, (s.rank r).stage = .ready) :
    ∀ x, ∀ m ∈ s.held x, m.origin.app = true := by
  have hroot := hready 0 (by omega)
  intro x m hm
  cases ho : m.origin with
  | hello y =>
    have hpast := (hi.hello x m hm (by rw [ho]; rfl)).2
    rw [hroot] at hpast
    cases hpast
  | go =>
    -- the rank it was for has read it
    have hpos : 0 < gos (s.held x) := List.countP_pos_iff.2 ⟨m, hm, by simp [ho]⟩
    have hbound := hi.go x
    split at hbound
    · rename_i hc
      have := (hi.acked x (by omega) (.inr (hready x hc.2.1))).1
      omega
    · omega
  | user => rfl
  | coll => rfl

theorem Settling.run_residue (hi : Settling w s) (hn : 2 ≤ w.n) (hready : ∀ r < w.n, (s.rank r).stage = .ready)
    {s' : Sys} (h : Run (step w) (fun _ _ _ => True) s s') (x : Nat) : s'.residue x = [] := by
  refine residue_eq_nil ?_
  exact (h.inv (fun s => (∀ r < w.n, (s.rank r).stage = .ready) ∧ ∀ x, ∀ m ∈ s.held x, m.origin.app = true)
    ⟨hready, hi.only_calls hn hready⟩ fun s l s' hi _ hst => started_step hi.1 hi.2 hst).2 x

/-- When all ranks have returned `MPI_SUCCESS` from `MPI_Init`, and no `HELLO`
was under way when rank 0 had heard from all or sent later, then neither a
`HELLO` nor a `GO` is in flight or in a socket, and none is ever put on an
unexpected queue. -/
theorem handshake_leaves_no_residue (hn : 2 ≤ w.n) (h : Run (step w) (fun s l _ => tidy s l = true) start s)
    (hready : ∀ r < w.n, (s.rank r).stage = .ready) (hsent : s.sent = []) {s' : Sys}
    (hlater : Run (step w) (fun _ _ _ => True) s s') (x : Nat) : s'.residue x = [] :=
  (run_settling hn h hsent).run_residue hn hready hlater x

/-- Two ranks that meet once. -/
def duoMeet : World := duo [.barrier MPI_COMM_WORLD] [.barrier MPI_COMM_WORLD]

theorem handshake_leaves_no_residue_duo :
    ∃ s, Run (step duoMeet) (fun s l _ => tidy s l = true) start s ∧ (∀ r < duoMeet.n, (s.rank r).stage = .ready) ∧
      s.sent = [] ∧ ∀ s', Run (step duoMeet) (fun _ _ _ => True) s s' → ∀ x, s'.residue x = [] := by
  have h : (exec (step duoMeet) tidy start duoInit).map (fun s =>
      decide ((∀ r < duoMeet.n, (s.rank r).stage = .ready) ∧ s.sent = [])) = some true := by decide +kernel
  obtain ⟨s, hrun, hready, hsent⟩ := exec_reaches h fun _ _ _ hb => hb
  exact ⟨s, hrun, hready, hsent, fun s' hl x => handshake_leaves_no_residue (by decide) hrun hready hsent hl x⟩

/-- Rank 1 says `HELLO` twice before rank 0 reads the first; then both get
through `MPI_Init`. -/
def duoTwice : List Label :=
  [.rank 0 .bind, .rank 1 .bind, .rank 1 .init] ++ List.replicate 129 (.rank 1 .init) ++ [.deliver 0, .deliver 0] ++
    List.replicate 6 (.rank 0 .init) ++ [.deliver 0, .rank 1 .init, .rank 1 .init]

/-- Rank 0 reads two messages in its barrier, the first of them not a token. -/
def duoBarrier : List Label :=
  [.rank 1 .call, .rank 1 .exec, .rank 1 .exec, .deliver 0, .rank 0 .call, .rank 0 .exec, .rank 0 .exec, .rank 0 .recv,
    .rank 0 .recv, .rank 0 .exec, .rank 0 .exec, .deliver 0, .rank 1 .exec, .rank 1 .recv, .rank 1 .exec]

/-- The second `HELLO` is still in rank 0's socket when both ranks are started.
It is put on the unexpected queue and is there when both are through a barrier. -/
theorem second_hello_stays :
    ∃ s, Run (step duoMeet) (fun _ _ _ => True) start s ∧ (∀ r < duoMeet.n, (s.rank r).stage = .ready) ∧ s.sent = [] ∧
      s.residue 0 = [⟨token 1 TAG_HELLO, .hello 1⟩] ∧
      ∃ s', Run (step duoMeet) (fun _ _ _ => True) s s' ∧ (s'.rank 0).pool.queue = [⟨token 1 TAG_HELLO, .hello 1⟩] ∧
        ∀ r < duoMeet.n, (s'.rank r).rets = [⟨MPI_SUCCESS, [], none⟩] := by
  have h : (exec (step duoMeet) (fun _ _ => true) start duoTwice).map (fun s =>
      decide ((∀ r < duoMeet.n, (s.rank r).stage = .ready) ∧ s.sent = [] ∧
        s.residue 0 = [⟨token 1 TAG_HELLO, .hello 1⟩] ∧
        (exec (step duoMeet) (fun _ _ => true) s duoBarrier).map (fun s' =>
          decide ((s'.rank 0).pool.queue = [⟨token 1 TAG_HELLO, .hello 1⟩] ∧
            ∀ r < duoMeet.n, (s'.rank r).rets = [⟨MPI_SUCCESS, [], none⟩])) = some true)) = some true := by
    decide +kernel
  obtain ⟨s, hrun, hready, hsent, hres, h'⟩ := exec_reaches h fun _ _ _ _ => trivial
  obtain ⟨s', hrun', hq, hrets⟩ := exec_reaches h' fun _ _ _ _ => trivial
  exact ⟨s, hrun, hready, hsent, hres, s', hrun', hq, hrets⟩

end

end LibNeoos.Mpi
