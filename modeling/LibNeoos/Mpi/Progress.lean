import LibNeoos.Mpi.Collectives
import LibNeoos.Mpi.Delivery
/-!
# Programs of collectives do not get stuck

When every message sent reaches its receiver, a program that consists of
collectives always goes on until all ranks are through
(`collectives_never_stuck`): in the plan some rank can always do its next act
(`Phased.progress`), and what the plan has sent and a rank has not taken is
still in flight to it, in its socket or on its queue. All ranks then return the
same codes and have counted `coll_seq` alike (`collectives_in_lockstep`). Both
need that start-up loses nothing and that the ranks judge a call's arguments
alike; neither holds of the code without that.
-/

namespace LibNeoos.Mpi

open LibNeoos.Lib LibNeoos.Lib.Phased

/-! ## Ranks that can go on -/

/-- Rank 0 has yet to send the `GO` of rank `r`. -/
def Stage.goDue (r : Nat) : Stage → Bool
  | .go i => i ≤ r
  | _ => false

/-- The rank is in `MPI_Init`, whose loops never wait. If rank 0 has decided
that all are there, the rank's `GO` has arrived, is in flight or is still to be
sent. -/
def starting (s : Sys) (r : Nat) : Bool :=
  (s.rank r).stage ≠ .ready ∧ (s.rank r).stage ≠ .failed ∧
    (r ≠ 0 → (s.rank 0).stage.past = true →
      (s.rank r).goArrived = true ∨ (∃ p ∈ s.net, p.dst = r ∧ p.msg.origin = .go) ∨ (s.rank 0).stage.goDue r = true)

/-- The rank can take a step: it is in `MPI_Init`, has a call to make, is about
to send, to count or to return, or a message that its current receive accepts
is in flight to it, in its socket or, if it has yet to be searched, on its
queue. -/
def canStep (w : World) (s : Sys) (r : Nat) : Bool :=
  if (s.rank r).stage = .ready then
    match (s.rank r).ctl with
    | .idle => (s.rank r).rets.length < (w.prog r).length
    | .run (.recv_match source tag _) => (msgsTo r s.net ++ (s.rank r).mail).any (accepts source tag)
    | .run .fault => false
    | .run _ => true
    | .recvLoop source tag _ => (msgsTo r s.net ++ (s.rank r).sock).any (accepts source tag)
  else starting s r

/-- The rank has returned from all its calls. -/
def completed (w : World) (s : Sys) (r : Nat) : Bool :=
  (s.rank r).stage = .ready ∧ (s.rank r).prog?.isNone ∧ (w.prog r).length ≤ (s.rank r).rets.length

/-! ## The queue has been searched -/

/-- In the loop of `recv_match` no message on the queue is one it looks for. -/
def Rank.Searched (k : Rank) : Prop :=
  ∀ source tag f, k.ctl = .recvLoop source tag f → ∀ m ∈ k.pool.queue, accepts source tag m = false

section
variable {w : World} {r : Nat} {k k' : Rank} {out : List Packet}

theorem exec_searched (h : k.exec w r = some (k', out)) : k'.Searched := by
  unfold Rank.exec at h
  split at h
  · cases h; intro _ _ _ hc; cases hc
  · cases h; intro _ _ _ hc; cases hc
  · cases h; intro _ _ _ hc; cases hc
  · rename_i source tag f _
    obtain ⟨htake, hleft⟩ := k.pool.take_spec (accepts source tag)
    split at h <;> rename_i hq <;> cases h
    · intro _ _ _ hc; cases hc
    · rw [hq] at htake hleft
      have hno := List.find?_eq_none.1 htake.symm
      rw [List.eraseP_of_forall_not (by simpa using hno)] at hleft
      intro _ _ _ hc m hm
      cases hc
      replace hm : m ∈ k.pool.queue := hleft ▸ hm
      simpa using hno m hm
  · cases h

theorem recvfrom_searched {x : Recvd Msg} (hk : k.Searched) (h : k.recvfrom w r x = some (k', out)) : k'.Searched := by
  unfold Rank.recvfrom at h
  split at h
  · rename_i source tag f hctl
    have hold := hk source tag f hctl
    split at h <;> rename_i hbody <;> cases h
    · rename_i pool
      intro source' tag' f' hc m hm
      obtain ⟨rfl, rfl, -⟩ : source = source' ∧ tag = tag' ∧ f = f' := by
        rw [show k.ctl = _ from hc] at hctl
        simpa [eq_comm] using hctl
      have hq : pool.queue = k.pool.queue ∨ ∃ m, accepts source tag m = false ∧ pool.queue = k.pool.queue ++ [m] := by
        cases x with
        | err n =>
          simp only [recv_match_body, recv_match_pass] at hbody
          split at hbody <;> cases hbody
          exact .inl rfl
        | runt n => cases hbody; exact .inl rfl
        | frame m =>
          have hput := k.pool.put_spec m
          simp only [recv_match_body, recv_match_pass] at hbody
          split at hbody
          · cases hbody
          · rename_i hacc
            split at hbody <;> rename_i hp <;> cases hbody
            · refine .inr ⟨m, by simpa using hacc, ?_⟩
              split at hput
              · rw [hput] at hp; cases hp
              · obtain ⟨p', h1, h2⟩ := hput
                rw [h1] at hp; cases hp
                exact h2
            · exact .inl rfl
      rcases hq with hq | ⟨m', hacc, hq⟩ <;> replace hm : m ∈ pool.queue := hm <;> rw [hq] at hm
      · exact hold m hm
      · rcases List.mem_append.1 hm with hm | hm
        · exact hold m hm
        · simp only [List.mem_singleton] at hm
          exact hm ▸ hacc
    · intro _ _ _ hc; cases hc
    · intro _ _ _ hc; cases hc
  · cases h

theorem step_searched {a : Do} (hk : k.Searched) (h : k.step w r a = some (k', out)) : k'.Searched := by
  by_cases hready : k.stage = .ready
  · cases a with
    | bind => simp [Rank.step, hready] at h
    | init => simp [Rank.step, rendezvous, hready] at h
    | call =>
      simp only [Rank.step, if_pos hready] at h
      split at h <;> cases h
      intro _ _ _ hc; cases hc
    | exec => exact exec_searched (by simpa [Rank.step, hready] using h)
    | recv =>
      simp only [Rank.step, if_pos hready] at h
      split at h
      · rename_i m sock _
        exact recvfrom_searched (k := { k with sock := sock }) hk h
      · cases h
    | err e =>
      simp only [Rank.step, if_pos hready] at h
      split_ifs at h
      split at h
      · cases h; intro _ _ _ hc; cases hc
      · exact recvfrom_searched hk h
  · -- `MPI_Init` touches neither the queue nor the call in progress
    rcases step_early hready h with ⟨-, -, rfl, -⟩ | ⟨-, st, q, rfl, -⟩ | ⟨e, rfl, -, st, rfl, -⟩ <;> exact hk

end

section
variable {w : World} {s : Sys} {ok : Sys → Label → Sys → Prop}

theorem run_searched (h : Run (step w) ok start s) (x : Nat) : (s.rank x).Searched := by
  refine h.inv (fun s => ∀ x, (s.rank x).Searched) (fun x _ _ _ hc => by cases hc) (fun s l s' hi _ hst x => ?_) x
  exact step_each (fun _ _ hk => hk) hst x (fun _ _ _ _ hk => step_searched (hi x) hk) (hi x)

/-- A rank that is not through `MPI_Init` goes on. -/
theorem Orderly.starting (hi : Orderly w s) {r : Nat} (hr : r < w.n) (h : (s.rank r).stage ≠ .ready) :
    starting s r = true := by
  simp only [Mpi.starting, decide_eq_true_eq]
  refine ⟨h, (hi.sound r).1, fun h0 hpast => ?_⟩
  rcases hi.going with hw | hg
  · have hearly := hw.stage 0
    cases hst : (s.rank 0).stage <;> simp [hst, Stage.early, Stage.past] at hearly hpast
  · by_cases hdue : (s.rank 0).stage.goDue r = true
    · exact .inr (.inr hdue)
    · refine (hg.sent r (by omega) hr fun i hst => ?_).imp_right .inl
      simpa [hst, Stage.goDue] using hdue

end

/-! ## The next act of a rank -/

/-- Only collectives are called. -/
def World.collective (w : World) : Prop := ∀ r < w.n, ∀ op ∈ w.prog r, op.call.isSome = true

instance (w : World) : Decidable w.collective :=
  inferInstanceAs (Decidable (∀ r < w.n, ∀ op ∈ w.prog r, op.call.isSome = true))

section
variable {w : World} {r : Nat} {c : Core} {op : Op} {p : Prog Ret} {σ : Pos}

theorem Tracks.shape_done (ht : Tracks w r c op p σ) (h : σ.acts = []) : (∃ a, p = .ret a) ∨ ∃ f, p = .coll_seq f := by
  have hs := ht.sat
  cases p with
  | ret a => exact .inl ⟨a, rfl⟩
  | coll_seq f => exact .inr ⟨f, rfl⟩
  | fault => exact hs.elim
  | sendto d m f => obtain ⟨as, h1, -⟩ := hs; rw [h] at h1; cases h1
  | recv_match source tag f => obtain ⟨src, as, h1, -⟩ := hs; rw [h] at h1; cases h1

theorem Tracks.shape_send (ht : Tracks w r c op p σ) {d : Nat} {as : List (Act Nat)} (h : σ.acts = .send d :: as) :
    ∃ m f, p = .sendto d m f := by
  have hs := ht.sat
  cases p with
  | ret a => have h1 := hs.1; rw [h] at h1; cases h1
  | coll_seq f => have h1 := hs.1; rw [h] at h1; cases h1
  | fault => exact hs.elim
  | sendto d m f => obtain ⟨as, h1, -⟩ := hs; rw [h] at h1; cases h1; exact ⟨m, f, rfl⟩
  | recv_match source tag f => obtain ⟨src, as, h1, -⟩ := hs; rw [h] at h1; cases h1

theorem Tracks.shape_recv (ht : Tracks w r c op p σ) {src : Option Nat} {as : List (Act Nat)}
    (h : σ.acts = .recv src :: as) : ∃ f, p = .recv_match (selector src) (w.plan.tag c.ticks r) f := by
  have hs := ht.sat
  cases p with
  | ret a => have h1 := hs.1; rw [h] at h1; cases h1
  | coll_seq f => have h1 := hs.1; rw [h] at h1; cases h1
  | fault => exact hs.elim
  | sendto d m f => obtain ⟨as, h1, -⟩ := hs; rw [h] at h1; cases h1
  | recv_match source tag f =>
    obtain ⟨src, as, h1, rfl, rfl, -⟩ := hs
    rw [h] at h1
    cases h1
    exact ⟨f, by rw [ht.elem, ht.phase]; rfl⟩

end

section
variable {w : World} {s : Sys} {r : Nat}

theorem prog_of_ctl {k : Rank} {p : Prog Ret} (h : k.prog? = some p) :
    k.ctl = .run p ∨ ∃ source tag f, k.ctl = .recvLoop source tag f ∧ p = .recv_match source tag f := by
  unfold Rank.prog? at h
  split at h
  · cases h
  · rename_i hc
    cases h
    exact .inl hc
  · rename_i source tag f hc
    cases h
    exact .inr ⟨source, tag, f, hc, rfl⟩

section
variable (hall : w.collective) (hr : r < w.n) (hl : Labelled w s) (hi : RankSim w (fun _ => True) r (s.core r))
include hall hr hl hi

/-- The call in progress is a collective and follows the plan. -/
theorem in_progress {p : Prog Ret} (hp : (s.rank r).prog? = some p) : ∃ op σ, Tracks w r (s.core r) op p σ := by
  obtain ⟨op, hop, -⟩ := hl.prog r p hp
  rcases hi.coll p op hp hop (hall r hr op (List.mem_of_getElem? hop)) with hd | ⟨σ, ht⟩
  · exact absurd trivial hd.1
  · exact ⟨op, σ, ht⟩

/-- What is left of the call in progress begins with the next act. -/
theorem tracks_next {a : Act Nat} (hnext : next w.plan (absOf w s.core) r = some a) :
    ∃ p op σ as, (s.rank r).prog? = some p ∧ Tracks w r (s.core r) op p σ ∧ σ.acts = a :: as := by
  obtain ⟨-, hsome, -⟩ := hi.in_call (next_lt hnext)
  obtain ⟨p, hp⟩ := Option.isSome_iff_exists.1 hsome
  obtain ⟨op, σ, ht⟩ := in_progress hall hr hl hi hp
  obtain ⟨hlt, he⟩ := List.getElem?_eq_some_iff.1 hnext
  refine ⟨p, op, σ, (w.plan.acts (s.core r).ticks r).drop ((s.core r).done + 1), hp, ht, ?_⟩
  rw [ht.acts]
  exact (List.drop_eq_getElem_cons hlt).trans (by rw [he]; rfl)

/-- A rank that is done with its phase goes on, or is through. -/
theorem canStep_done (hready : (s.rank r).stage = .ready) (hnext : next w.plan (absOf w s.core) r = none) :
    completed w s r = true ∨ canStep w s r = true := by
  cases hp : (s.rank r).prog? with
  | none =>
    have hidle : (s.rank r).ctl = .idle := by
      unfold Rank.prog? at hp
      split at hp
      · rename_i hc
        exact hc
      · cases hp
      · cases hp
    by_cases hlen : (w.prog r).length ≤ (s.rank r).rets.length
    · exact .inl (by simp [completed, hready, hp, hlen])
    · exact .inr (by simpa [canStep, hready, hidle] using hlen)
  | some p =>
    obtain ⟨op, σ, ht⟩ := in_progress hall hr hl hi hp
    have hacts : σ.acts = [] := by
      rw [ht.acts]
      exact List.drop_eq_nil_iff.2 (List.getElem?_eq_none_iff.1 hnext)
    right
    rcases ht.shape_done hacts with ⟨a, rfl⟩ | ⟨f, rfl⟩ <;>
      rcases prog_of_ctl hp with hc | ⟨_, _, _, _, h⟩ <;> first | simp [canStep, hready, hc] | cases h

theorem canStep_send (hready : (s.rank r).stage = .ready) {d : Nat}
    (hnext : next w.plan (absOf w s.core) r = some (.send d)) : canStep w s r = true := by
  obtain ⟨p, op, σ, as, hp, ht, hacts⟩ := tracks_next hall hr hl hi hnext
  obtain ⟨m, f, rfl⟩ := ht.shape_send hacts
  rcases prog_of_ctl hp with hc | ⟨_, _, _, _, h⟩
  · simp [canStep, hready, hc]
  · cases h

/-- A waiting rank with a message it accepts at hand goes on. -/
theorem canStep_recv (hready : (s.rank r).stage = .ready) (hq : (s.rank r).Searched) {src : Option Nat}
    (hnext : next w.plan (absOf w s.core) r = some (.recv src)) {m : Msg}
    (hm : m ∈ msgsTo r s.net ++ (s.rank r).mail)
    (hacc : accepts (selector src) (w.plan.tag (s.core r).ticks r) m = true) : canStep w s r = true := by
  obtain ⟨p, op, σ, as, hp, ht, hacts⟩ := tracks_next hall hr hl hi hnext
  obtain ⟨f, rfl⟩ := ht.shape_recv hacts
  rcases prog_of_ctl hp with hc | ⟨_, _, _, hc, h⟩
  · simp only [canStep, hready, if_true, hc]
    exact List.any_eq_true.2 ⟨m, hm, hacc⟩
  · cases h
    simp only [canStep, hready, if_true, hc]
    refine List.any_eq_true.2 ⟨m, ?_, hacc⟩
    -- it is not on the queue, which has been searched
    simp only [Rank.mail, List.mem_append] at hm ⊢
    rcases hm with hm | hm | hm
    · exact .inl hm
    · rw [hq _ _ _ hc m hm] at hacc
      cases hacc
    · exact .inr hm

end

/-- A message of the plan that its receiver has not taken is at hand. -/
theorem at_hand (hall : w.collective) (hl : Labelled w s) (hi : SysSim w (fun _ => True) s.core s.sent)
    (hperm : ∀ x, (apps (s.held x)).Perm (msgsTo x s.sent)) (hr : r < w.n) {src : Option Nat} {x : Nat}
    (hnext : next w.plan (absOf w s.core) r = some (.recv src)) (hf : FromOk src x)
    (hsent : Sent w.plan (absOf w s.core) x (s.core r).ticks r) (hnot : ¬ Took (absOf w s.core) r x (s.core r).ticks) :
    ∃ m ∈ msgsTo r s.net ++ (s.rank r).mail, accepts (selector src) (w.plan.tag (s.core r).ticks r) m = true := by
  obtain ⟨m, i, hm, ho⟩ := hi.there x _ r hsent
  have hheld : m ∈ s.held r := List.mem_of_mem_filter ((hperm r).symm.subset (mem_msgsTo.2 hm))
  have hok := hl.held r m hheld
  simp only [MsgOk, ho] at hok
  obtain ⟨hx, op, hop, -, hframe⟩ := hok
  refine ⟨m, ?_, accepts_iff.2 ⟨?_, .inr (hi.sent _ hm x i _ ho).tag⟩⟩
  · simp only [Sys.held, List.mem_append] at hheld ⊢
    rcases hheld with h | h
    · exact h
    · -- it has not been taken, as only collectives take messages
      exfalso
      obtain ⟨g, hg, rfl⟩ := List.mem_map.1 h
      obtain ⟨hcoll, hsome, -⟩ := (hi.rank r hr).in_call (next_lt hnext)
      obtain ⟨op', hop', -⟩ := isColl_iff.1 hcoll
      have hlen := (List.getElem?_eq_some_iff.1 hop').1
      have hcall : g.call < (w.prog r).length := by
        rcases (hi.rank r hr).call g hg with h | ⟨h, -⟩ <;> omega
      have hgc : w.isColl r g.call = true :=
        isColl_iff.2 ⟨_, List.getElem?_eq_getElem hcall, hall r hr _ (List.getElem_mem hcall)⟩
      obtain ⟨h1, h2, y, j, q, ho'⟩ := (hi.rank r hr).got g hg hgc
      rw [ho] at ho'
      cases ho'
      exact hnot ⟨⟨g.during, x, (s.core r).ticks⟩, List.mem_filterMap.2 ⟨g, hg, by simp [hgc, ho]⟩, rfl, rfl⟩
  · rcases hf with rfl | rfl
    · exact .inl rfl
    · exact .inr hframe.2.1

theorem phases_all (hw : Lawful w) (hr : r < w.n) {i : Nat} (h : (w.prog r).length ≤ i) :
    w.phases r i = w.elems.length := by
  rw [World.phases, List.take_of_length_le h, hw.elems_eq hr]

theorem phases_le (hw : Lawful w) (hr : r < w.n) (i : Nat) : w.phases r i ≤ w.elems.length :=
  (phases_mono (Nat.le_max_left i (w.prog r).length)).trans (phases_all hw hr (Nat.le_max_right _ _)).le

/-- All are through, or some rank can take a step. -/
theorem never_stuck (hw : Lawful w) (hall : w.collective) (ho : Orderly w s)
    (hi : SysSim w (fun _ => True) s.core s.sent) (hperm : ∀ x, (apps (s.held x)).Perm (msgsTo x s.sent))
    (hq : ∀ x, (s.rank x).Searched) :
    (∀ r < w.n, completed w s r = true) ∨ ∃ r < w.n, canStep w s r = true := by
  by_cases hready : ∀ r < w.n, (s.rank r).stage = .ready
  · have hrank := hi.rank
    rcases progress (plan_balanced (elems_rooted w)) plan_leveled (N := w.elems.length) hi.inv hi.exact
      (fun r hr => by
        have hr : r < w.n := by simpa [plan] using hr
        exact (hrank r hr).high.trans (phases_le hw hr _)) with hfin | ⟨r, hr, hen⟩
    · by_contra hno
      push Not at hno
      obtain ⟨⟨r, hr, hc⟩, hno⟩ := hno
      rcases canStep_done hall hr ho.labelled (hrank r hr) (hready r hr) (hfin r (by simpa [plan] using hr)).2
        with h | h
      · exact hc h
      · exact hno r hr h
    · have hr : r < w.n := by simpa [plan] using hr
      rcases hen with ⟨hnone, hlt⟩ | ⟨d, hsend⟩ | ⟨src, x, hrecv, hf, hsent, hnot⟩
      · rcases canStep_done hall hr ho.labelled (hrank r hr) (hready r hr) hnone with h | h
        · -- a rank that is through is past all phases
          simp only [completed, decide_eq_true_eq] at h
          have h1 := phases_all hw hr h.2.2
          have h2 := (hrank r hr).low
          exact absurd (h1.symm.le.trans h2) (not_le.2 hlt)
        · exact .inr ⟨r, hr, h⟩
      · exact .inr ⟨r, hr, canStep_send hall hr ho.labelled (hrank r hr) (hready r hr) hsend⟩
      · obtain ⟨m, hm, hacc⟩ := at_hand hall ho.labelled hi hperm hr hrecv hf hsent hnot
        exact .inr ⟨r, hr, canStep_recv hall hr ho.labelled (hrank r hr) (hready r hr) (hq r) hrecv hm hacc⟩
  · push Not at hready
    obtain ⟨r, hr, hn⟩ := hready
    exact .inr ⟨r, hr, by rw [canStep, if_neg hn]; exact ho.starting hr hn⟩

end

/-! ## Deadlock freedom -/

/-- Every message gets to its receiver, and no rank is too far ahead. -/
def Reliable (w : World) (s : Sys) (l : Label) : Prop := Delivers s l ∧ Close w s

instance (w : World) (s : Sys) (l : Label) : Decidable (Reliable w s l) :=
  inferInstanceAs (Decidable ((_ ∧ _ ∧ _ ∧ _) ∧ Close w s))

section
variable {w : World} {s : Sys}

theorem Reliable.regular {l : Label} (h : Reliable w s l) : Regular w s l := by
  obtain ⟨⟨hp, -⟩, hclose⟩ := h
  refine ⟨?_, hclose⟩
  cases l with
  | deliver i => rfl
  | rank r a =>
    cases a with
    | err e =>
      by_cases hr : (s.rank r).stage = .ready <;> simp [patient, hr] at hp
      · simpa [calm, Rank.calm, hr] using hp
      · simp [calm, Rank.calm, hr]
    | _ => rfl

/-- In every run of a program of collectives in which messages get to their
receivers, all ranks are through with their calls or some rank can take a
step. -/
theorem collectives_never_stuck (hw : Lawful w) (hall : w.collective)
    (hrun : Run (step w) (fun s l _ => Reliable w s l) start s) :
    (∀ r < w.n, completed w s r = true) ∨ ∃ r < w.n, canStep w s r = true :=
  never_stuck hw hall (run_orderly (fun _ _ _ hl => hl.1) hrun) (run_exact hw (fun _ _ _ hl => hl.regular) hrun)
    (run_held_perm (fun _ _ _ hl => hl.1) hrun) (run_searched hrun)

/-- Rank 1 has broadcast and waits in the `MPI_Allreduce`; rank 0 has started nothing. -/
theorem collectives_never_stuck_shares :
    ∃ s, Run (step shares) (fun s l _ => Reliable shares s l) start s ∧ (s.rank 1).waiting = true ∧
      ((∀ r < 2, completed shares s r = true) ∨ ∃ r < 2, canStep shares s r = true) := by
  have h : ((exec (step shares) (fun s l => decide (Reliable shares s l)) start
      (duoInit ++ ([.rank 1 .call, .rank 1 .exec, .rank 1 .exec, .rank 1 .exec, .rank 1 .call, .rank 1 .exec,
        .rank 1 .exec, .rank 1 .exec, .rank 1 .exec] : List Label))).map fun s => decide ((s.rank 1).waiting = true)) =
      some true := by
    decide +kernel
  obtain ⟨s, hrun, hwait⟩ := exec_reaches h fun _ _ _ hb => of_decide_eq_true hb
  exact ⟨s, hrun, hwait, collectives_never_stuck (show Lawful shares by decide) (by decide) hrun⟩

/-- A broadcast from rank 1 to two others. -/
def gossip : World :=
  ⟨3, fun r => [.bcast [if r = 1 then 9 else 0] 1 MPI_BYTE 1 MPI_COMM_WORLD], trio.pos, trio.le⟩

/-- Rank 2 is still in `MPI_Init` when rank 1's message arrives, and throws it
away. No system call fails, messages of one sender arrive in order and no queue
is full; the other ranks are through, rank 2 waits for ever. -/
theorem broadcast_waits_for_ever :
    Lawful gossip ∧ gossip.collective ∧
      ∃ s, Run (step gossip) (fun s l _ => patient s l = true ∧ inOrder s l = true ∧ roomy s l = true) start s ∧
        (∀ r < gossip.n, canStep gossip s r = false) ∧ completed gossip s 2 = false ∧ (s.rank 2).waiting = true ∧
        s.net = [] := by
  have h : ((exec (step gossip) (fun s l => patient s l && inOrder s l && roomy s l) start
      (trioInit ++ ([.rank 1 .exec, .rank 1 .exec, .rank 1 .exec, .deliver 2, .rank 2 .init, .deliver 0, .rank 2 .init,
        .rank 2 .init, .rank 2 .init, .rank 0 .init, .rank 0 .init, .deliver 0, .rank 0 .call, .rank 0 .exec,
        .rank 0 .exec, .rank 0 .recv, .rank 0 .exec, .rank 2 .call, .rank 2 .exec, .rank 2 .exec] : List Label))).map
        fun s =>
      decide ((∀ r < gossip.n, canStep gossip s r = false) ∧ completed gossip s 2 = false ∧ (s.rank 2).waiting = true ∧
        s.net = [])) = some true := by
    decide +kernel
  exact ⟨by decide, by decide, exec_reaches h fun s l s' hb => by simpa [and_assoc] using hb⟩

/-! ## Lockstep -/

theorem run_rets_le {ok : Sys → Label → Sys → Prop} (h : Run (step w) ok start s) (x : Nat) :
    (s.core x).rets.length ≤ (w.prog x).length := by
  refine h.inv_reach (fun s => ∀ x, (s.core x).rets.length ≤ (w.prog x).length) (fun x => Nat.zero_le _)
    (fun s l s' hrun hi _ hst x => ?_) x
  rcases sys_move hst with ⟨r, a, c', rfl, hr, hm, hc⟩ | ⟨hc, -⟩ <;> rw [hc]
  · by_cases hx : x = r
    · subst hx
      have hprog := (run_labelled hrun).prog x
      have hold := hi x
      rw [Function.update_self]
      generalize s.core x = c, news w s (.rank x a) = out at hm hprog hold
      cases hm with
      | ret h1 =>
        obtain ⟨op, hop, -⟩ := hprog _ h1
        have hlt := (List.getElem?_eq_some_iff.1 hop).1
        simpa using Nat.succ_le_of_lt hlt
      | _ => exact hold
    · rw [Function.update_of_ne hx]
      exact hi x
  · exact hi x

variable {r i : Nat}

/-- In a program of collectives the number of a call is its number among them. -/
theorem colls_self (hall : w.collective) (hr : r < w.n) (hi : i ≤ (w.prog r).length) : w.colls r i = i := by
  rw [World.colls, List.length_filterMap_eq_countP, List.countP_eq_length.2, List.length_take, Nat.min_eq_left hi]
  exact fun op hop => by simpa using hall r hr op (List.mem_of_mem_take hop)

theorem phases_self (hw : Lawful w) (hall : w.collective) (hr : r < w.n) (i : Nat) : w.phases r i = w.startOf i := by
  rcases Nat.le_total i (w.prog r).length with h | h
  · rw [phases_eq hw hr, colls_self hall hr h]
  · have hlen : w.calls.length = (w.prog r).length := by
      rw [← hw.same r hr, ← colls_self hall hr (Nat.le_refl _), World.colls, List.take_length]
    rw [phases_all hw hr h, World.startOf, List.take_of_length_le (hlen ▸ h)]
    rfl

section
variable (hw : Lawful w) (hall : w.collective) (hl : Labelled w s) (hi : SysSim w (fun _ => True) s.core s.sent)
include hw hall hi

include hl in
/-- A rank in a receive waits for a message that is at hand, or that some rank
which has not returned from the same call sends in it and has not sent yet. -/
theorem waits_for (hperm : ∀ x, (apps (s.held x)).Perm (msgsTo x s.sent)) (hr : r < w.n) {source tag : Int}
    {f : Except Int Datagram → Prog Ret} (hp : (s.rank r).prog? = some (.recv_match source tag f)) :
    ∃ x < w.n, x ≠ r ∧ ((∃ m ∈ msgsTo r s.net ++ (s.rank r).mail, accepts source tag m = true) ∨
      ((s.rank x).rets.length ≤ (s.rank r).rets.length ∧ .send r ∈ w.plan.acts (s.rank r).ticks x ∧
        ∀ m ∈ msgsTo r s.sent, ∀ i, m.origin ≠ .coll x i (s.rank r).ticks)) := by
  obtain ⟨op, σ, ht⟩ := in_progress hall hr hl (hi.rank r hr) hp
  obtain ⟨src, as, hacts, rfl, rfl, -⟩ := ht.sat
  rw [ht.acts] at hacts
  have hnext : next w.plan (absOf w s.core) r = some (.recv src) := (drop_eq_cons hacts).1
  obtain ⟨x, hx, hsend, hnot⟩ := missing (plan_balanced (elems_rooted w)) hi.inv hi.exact
    (by simpa [plan] using hr) hnext
  have hx : x < w.n := by simpa [plan] using hx
  refine ⟨x, hx, (mem_plan_send.1 hsend).2.ne, ?_⟩
  by_cases hs : Sent w.plan (absOf w s.core) x (s.core r).ticks r
  · have hf : FromOk src x := by
      cases src with
      | none => exact .inl rfl
      | some y => exact .inr (by rw [plan_leveled.src _ x r y (List.mem_of_getElem? hnext) hsend])
    obtain ⟨m, hm, hacc⟩ := at_hand hall hl hi hperm hr hnext hf hs hnot
    exact .inl ⟨m, hm, by rw [ht.elem, ht.phase]; exact hacc⟩
  · refine .inr ⟨?_, hsend, fun m hm i ho => hs (hi.sent _ (mem_msgsTo.1 hm) x i _ ho).sent⟩
    by_contra hlt
    replace hlt : (s.core r).rets.length < (s.core x).rets.length := not_le.1 hlt
    -- a rank that has returned has made all its sends
    have hhigh := (hi.rank r hr).high
    rw [phases_self hw hall hr, ← phases_self hw hall hx] at hhigh
    refine hs ?_
    rw [Sent, (hi.rank x hx).doneActs_past hlt hhigh]
    exact hsend

/-- What a rank returns from its `i`-th call is the code of that collective. -/
theorem ret_code (hlen : (s.core r).rets.length ≤ (w.prog r).length) (hr : r < w.n) {a : Ret}
    (ha : (s.rank r).rets[i]? = some a) : w.calls[i]?.map (Call.code w.n) = some a.rc := by
  have hlt : i < (w.prog r).length := Nat.lt_of_lt_of_le (List.getElem?_eq_some_iff.1 ha).1 hlen
  have hop := List.getElem?_eq_getElem hlt
  obtain ⟨c, hc⟩ := Option.isSome_iff_exists.1 (hall r hr _ (List.getElem_mem hlt))
  have hcall := calls_colls hw hr hop hc
  rw [colls_self hall hr hlt.le] at hcall
  rw [hcall, Option.map_some, ((hi.rank r hr).past i _ a hop ha c hc).1]

theorem seq_eq (hr : r < w.n) (hp : (s.rank r).prog? = none) :
    (s.rank r).coll_seq = w.startOf (s.rank r).rets.length % 2 ^ 32 := by
  have h := (hi.rank r hr).rest fun p h => by
    rw [show (s.core r).prog? = none from hp] at h
    cases h
  rw [show (s.rank r).coll_seq = (s.core r).ticks % 2 ^ 32 from (hi.rank r hr).seq, h.1, phases_self hw hall hr]
  rfl

end

/-- In every run of a program of collectives which the ranks judge alike and
whose messages get to their receivers: two ranks that have returned from a call
have returned the same code; all are through or some rank can take a step, and
a rank that waits does so for a message that is at hand or that a rank still in
that call sends in it and has not sent yet; and between calls `coll_seq` is a function of the number
of calls a rank has returned from. -/
theorem collectives_in_lockstep (hw : Lawful w) (hall : w.collective)
    (hrun : Run (step w) (fun s l _ => Reliable w s l) start s) :
    (∀ (r x i : Nat) (a b : Ret), r < w.n → x < w.n → (s.rank r).rets[i]? = some a → (s.rank x).rets[i]? = some b →
      a.rc = b.rc) ∧
    ((∀ r < w.n, completed w s r = true) ∨ ∃ r < w.n, canStep w s r = true) ∧
    (∀ r source tag f, r < w.n → (s.rank r).prog? = some (.recv_match source tag f) →
      ∃ x < w.n, x ≠ r ∧ ((∃ m ∈ msgsTo r s.net ++ (s.rank r).mail, accepts source tag m = true) ∨
        ((s.rank x).rets.length ≤ (s.rank r).rets.length ∧ .send r ∈ w.plan.acts (s.rank r).ticks x ∧
          ∀ m ∈ msgsTo r s.sent, ∀ i, m.origin ≠ .coll x i (s.rank r).ticks))) ∧
    (∀ r < w.n, (s.rank r).prog? = none → (s.rank r).coll_seq = w.startOf (s.rank r).rets.length % 2 ^ 32) ∧
    (∀ r x, r < w.n → x < w.n → (s.rank r).prog? = none → (s.rank x).prog? = none →
      (s.rank r).rets.length = (s.rank x).rets.length → (s.rank r).coll_seq = (s.rank x).coll_seq) := by
  have ho := run_orderly (fun _ _ _ hl => hl.1) hrun
  have hi := run_exact hw (fun _ _ _ hl => hl.regular) hrun
  have hperm := run_held_perm (fun _ _ _ hl => hl.1) hrun
  refine ⟨fun r x i a b hr hx ha hb => ?_, never_stuck hw hall ho hi hperm (run_searched hrun),
    fun r source tag f hr hp => waits_for hw hall ho.labelled hi hperm hr hp, fun r hr hp => seq_eq hw hall hi hr hp,
    fun r x hr hx hp hp' hlen => ?_⟩
  · have h1 := ret_code hw hall hi (run_rets_le hrun r) hr ha
    rw [ret_code hw hall hi (run_rets_le hrun x) hx hb] at h1
    exact (Option.some.inj h1).symm
  · rw [seq_eq hw hall hi hr hp, seq_eq hw hall hi hx hp', hlen]

/-- A broadcast of a negative number of elements, then a barrier. -/
def refused : World :=
  duo [.bcast [0] (-1) MPI_BYTE 1 MPI_COMM_WORLD, .barrier MPI_COMM_WORLD]
    [.bcast [0] (-1) MPI_BYTE 1 MPI_COMM_WORLD, .barrier MPI_COMM_WORLD]

/-- Both ranks have returned from the broadcast. -/
theorem collectives_in_lockstep_refused :
    ∃ s, Run (step refused) (fun s l _ => Reliable refused s l) start s ∧
      (s.rank 0).rets = [⟨MPI_ERR_COUNT, [0], none⟩] ∧ (s.rank 1).rets = [⟨MPI_ERR_COUNT, [0], none⟩] ∧
      (s.rank 0).coll_seq = 1 ∧ (s.rank 0).coll_seq = (s.rank 1).coll_seq := by
  have h : ((exec (step refused) (fun s l => decide (Reliable refused s l)) start
      (duoInit ++ ([.rank 1 .call, .rank 1 .exec, .rank 1 .exec, .rank 0 .call, .rank 0 .exec, .rank 0 .exec] :
        List Label))).map fun s => decide ((s.rank 0).rets = [⟨MPI_ERR_COUNT, [0], none⟩] ∧
          (s.rank 1).rets = [⟨MPI_ERR_COUNT, [0], none⟩] ∧ (s.rank 0).coll_seq = 1 ∧
          (s.rank 0).prog?.isNone = true ∧ (s.rank 1).prog?.isNone = true)) = some true := by
    decide +kernel
  obtain ⟨s, hrun, h0, h1, hseq, hp0, hp1⟩ := exec_reaches h fun _ _ _ hb => of_decide_eq_true hb
  exact ⟨s, hrun, h0, h1, hseq, (collectives_in_lockstep (show Lawful refused by decide) (by decide) hrun).2.2.2.2 0 1
    (by decide) (by decide) (Option.isNone_iff_eq_none.1 hp0) (Option.isNone_iff_eq_none.1 hp1) (by rw [h0, h1])⟩

/-- A reduction of bytes, which the root finds it cannot do when the first
contribution has arrived. -/
def byteSum : World :=
  duo [.reduce [1] [0] 1 MPI_BYTE MPI_SUM 0 MPI_COMM_WORLD] [.reduce [2] [] 1 MPI_BYTE MPI_SUM 0 MPI_COMM_WORLD]

/-- All ranks make the same call; rank 1 returns `MPI_SUCCESS` and rank 0 an error. -/
theorem reduce_codes_differ :
    (∀ r < byteSum.n, (byteSum.prog r).filterMap Op.call = byteSum.calls) ∧ byteSum.collective ∧
      ∃ s, Run (step byteSum) (fun s l _ => Reliable byteSum s l) start s ∧
        (s.rank 0).rets.map (·.rc) = [MPI_ERR_TYPE] ∧ (s.rank 1).rets.map (·.rc) = [MPI_SUCCESS] := by
  have h : ((exec (step byteSum) (fun s l => decide (Reliable byteSum s l)) start
      (duoInit ++ ([.rank 1 .call, .rank 1 .exec, .rank 1 .exec, .rank 1 .exec, .deliver 0, .rank 0 .call,
        .rank 0 .exec, .rank 0 .exec, .rank 0 .recv, .rank 0 .exec] : List Label))).map fun s =>
      decide ((s.rank 0).rets.map (·.rc) = [MPI_ERR_TYPE] ∧ (s.rank 1).rets.map (·.rc) = [MPI_SUCCESS])) =
        some true := by
    decide +kernel
  exact ⟨by decide, by decide, exec_reaches h fun _ _ _ hb => of_decide_eq_true hb⟩

end

end LibNeoos.Mpi
