import LibNeoos.Mpi.Transport
/-!
# Start-up

No rank's `MPI_Init` returns before all ranks have bound their sockets: rank 0
counts the ranks it has heard from, a `HELLO` comes from a rank that is bound,
and a `GO` is sent only after rank 0 has heard from all.

A rank that has its `GO` may send at once, while another is still in the loop
that throws away everything but a `GO`. So a message can be lost between two
ranks other than rank 0; if none overtakes the receiver's `GO`, all are kept.
-/

namespace LibNeoos.Mpi

open LibNeoos.Lib

/-! ## Stages -/

section
variable {w : World} {r : Nat} {k k' : Rank} {out : List Packet} {a : Do}

theorem exec_stage (h : k.exec w r = some (k', out)) : k'.stage = k.stage ∧ k'.didBind = k.didBind := by
  unfold Rank.exec at h
  split at h
  all_goals first | (split at h <;> cases h <;> exact ⟨rfl, rfl⟩) | (cases h; exact ⟨rfl, rfl⟩) | cases h

theorem recvfrom_stage {x : Recvd Msg} (h : k.recvfrom w r x = some (k', out)) :
    k'.stage = k.stage ∧ k'.didBind = k.didBind := by
  unfold Rank.recvfrom at h
  split at h
  · split at h <;> cases h <;> exact ⟨rfl, rfl⟩
  · cases h

/-- A started rank stays so. -/
theorem step_ready (hr : k.stage = .ready) (h : k.step w r a = some (k', out)) :
    k'.stage = .ready ∧ k'.didBind = k.didBind := by
  cases a with simp only [Rank.step, hr, if_true] at h
  | bind => cases h
  | init => simp only [rendezvous, hr] at h; cases h
  | call => split at h <;> cases h; exact ⟨rfl, rfl⟩
  | exec => rw [← hr]; exact exec_stage h
  | recv =>
    split at h
    · exact recvfrom_stage h
    · cases h
  | err e =>
    split_ifs at h
    split at h
    · cases h; exact ⟨rfl, rfl⟩
    · rw [← hr]; exact recvfrom_stage h

/-- The steps of a rank that is not started. -/
theorem step_early (hr : k.stage ≠ .ready) (h : k.step w r a = some (k', out)) :
    (a = .bind ∧ k.stage = .unbound ∧ k' = { k with stage := .bound, didBind := true } ∧ out = []) ∨
    (a = .init ∧ ∃ st q, k' = { k with stage := st, sock := q } ∧ Join w.n r k.stage k.sock st q out) ∨
    ∃ e, a = .err e ∧ out = [] ∧ ∃ st, k' = { k with stage := st } ∧ Fails k.stage e st := by
  cases a with
  | bind =>
    simp only [Rank.step] at h
    split at h <;> cases h
    rename_i hu
    exact .inl ⟨rfl, hu, rfl, rfl⟩
  | init => exact .inr (.inl ⟨rfl, rendezvous_join h⟩)
  | err e =>
    simp only [Rank.step, hr, if_false] at h
    split_ifs at h
    exact .inr (.inr ⟨e, rfl, rendezvous_err_fails h⟩)
  | call => simp [Rank.step, hr] at h
  | exec => simp [Rank.step, hr] at h
  | recv => simp [Rank.step, hr] at h

theorem recvfrom_out {x : Recvd Msg} (h : k.recvfrom w r x = some (k', out)) : out = [] := by
  unfold Rank.recvfrom at h
  split at h
  · split at h <;> cases h <;> rfl
  · cases h

/-- A started rank sends messages of calls only. -/
theorem ready_out (hr : k.stage = .ready) (h : k.step w r a = some (k', out)) : ∀ p ∈ out, p.msg.origin.app = true := by
  have horigin : (k.origin w r).app = true := by
    unfold Rank.origin
    split <;> rfl
  cases a with simp only [Rank.step, hr, if_true] at h
  | bind => cases h
  | init => simp only [rendezvous, hr] at h; cases h
  | call => split at h <;> cases h; simp
  | exec =>
    unfold Rank.exec at h
    split at h
    · cases h; simp
    · cases h; simp
    · cases h; simpa using horigin
    · split at h <;> cases h <;> simp
    · cases h
  | recv =>
    split at h
    · simp [recvfrom_out h]
    · cases h
  | err e =>
    split_ifs at h
    split at h
    · cases h; simp
    · simp [recvfrom_out h]

theorem step_didBind (h : k.step w r a = some (k', out)) (hb : k.didBind = true) : k'.didBind = true := by
  by_cases hr : k.stage = .ready
  · rw [(step_ready hr h).2]; exact hb
  · rcases step_early hr h with ⟨-, -, rfl, -⟩ | ⟨-, st, q, rfl, -⟩ | ⟨e, -, -, st, rfl, -⟩
    · rfl
    · exact hb
    · exact hb

end

section
variable {w : World} {s s' : Sys} {l : Label}

/-- A step of one rank changes no other. -/
theorem step_one {r : Nat} {a : Do} (h : step w s (.rank r a) = some s') :
    (s.rank r).step w r a = some (s'.rank r, news w s (.rank r a)) ∧ ∀ x, x ≠ r → s'.rank x = s.rank x := by
  obtain ⟨-, k, out, hk, rfl⟩ := step_rank h
  refine ⟨by simp [news, hk], fun x hx => ?_⟩
  simp [hx]

theorem deliver_stage {i : Nat} (h : step w s (.deliver i) = some s') (x : Nat) :
    (s'.rank x).stage = (s.rank x).stage := by
  obtain ⟨q, hq⟩ := deliver_keeps h x
  rw [hq]

/-- Started ranks stay so. -/
theorem ready_step (hall : ∀ r < w.n, (s.rank r).stage = .ready) (h : step w s l = some s') :
    ∀ r < w.n, (s'.rank r).stage = .ready := fun x hx =>
  step_each (P := fun k => k.stage = .ready) (fun _ _ hk => hk) h x (fun _ _ _ _ hk => (step_ready (hall x hx) hk).1)
    (hall x hx)

theorem ready_news (hall : ∀ r < w.n, (s.rank r).stage = .ready) (h : step w s l = some s') :
    ∀ p ∈ news w s l, p.msg.origin.app = true := by
  cases l with
  | rank r a => exact ready_out (hall r (step_rank h).1) (step_one h).1
  | deliver i => simp [news]

end

/-! ## Every rank is bound before one is started -/

def AllBound (w : World) (s : Sys) : Prop := ∀ r < w.n, (s.rank r).didBind = true

/-- The stages up to rank 0's decision that all ranks are there. -/
def Stage.early : Stage → Bool
  | .go _ => false
  | .restore => false
  | .ready => false
  | _ => true

/-- A `HELLO` of a rank that is bound. -/
def Greeting (w : World) (s : Sys) (m : Msg) : Prop :=
  ∃ x < w.n, m = ⟨token x TAG_HELLO, .hello x⟩ ∧ (s.rank x).didBind = true

/-- Before rank 0's decision: only `HELLO`s are about, and rank 0 has ticked
off ranks that are bound. -/
structure Waiting (w : World) (s : Sys) : Prop where
  stage : ∀ r, (s.rank r).stage.early = true
  bound : ∀ r, (s.rank r).open? = true → (s.rank r).didBind = true
  net : ∀ p ∈ s.net, Greeting w s p.msg
  sock : ∀ r, ∀ m ∈ (s.rank r).sock, Greeting w s m
  seen : ∀ r seen i, (s.rank r).stage = .collect seen i → r = 0 ∧ seen.Nodup ∧ seen.length + i = w.n ∧
    ∀ x ∈ seen, x < w.n ∧ (s.rank x).didBind = true

section
variable {w : World} {s s' : Sys} {l : Label}

theorem didBind_mono (h : step w s l = some s') (x : Nat) (hb : (s.rank x).didBind = true) :
    (s'.rank x).didBind = true :=
  step_each (P := fun k => k.didBind = true) (fun _ _ hk => hk) h x (fun _ _ _ _ hk => step_didBind hk hb) hb

/-- Rank 0 has ticked off all ranks when none remains. -/
theorem seen_all (hw : Waiting w s) {r : Nat} {seen : List Nat} (h : (s.rank r).stage = .collect seen 0) {x : Nat}
    (hx : x < w.n) : x ∈ seen := by
  obtain ⟨-, hn, hlen, hin⟩ := hw.seen r seen 0 h
  -- `n` different ranks below `n` are all of them
  have hsub : seen.toFinset ⊆ Finset.range w.n := fun x hx => by
    simpa using (hin x (List.mem_toFinset.1 hx)).1
  have heq : seen.toFinset = Finset.range w.n :=
    Finset.eq_of_subset_of_card_le hsub (by simp [List.toFinset_card_of_nodup hn]; omega)
  exact List.mem_toFinset.1 (by rw [heq]; simpa using hx)

theorem allBound_of_seen (hw : Waiting w s) {r : Nat} {seen : List Nat}
    (h : (s.rank r).stage = .collect seen 0) : AllBound w s := by
  intro x hx
  obtain ⟨-, -, -, hin⟩ := hw.seen r seen 0 h
  exact (hin x (seen_all hw h hx)).2

theorem Greeting.mono (h : step w s l = some s') {m : Msg} (hm : Greeting w s m) : Greeting w s' m := by
  obtain ⟨x, hx, hf, hb⟩ := hm
  exact ⟨x, hx, hf, didBind_mono h x hb⟩

/-- A step of one rank keeps `Waiting` if it does for that rank. -/
theorem Waiting.update (hw : Waiting w s) {r : Nat} {a : Do} {k : Rank} {out : List Packet}
    (h : step w s (.rank r a) = some s') (hk : (s.rank r).step w r a = some (k, out)) (h1 : k.stage.early = true)
    (h2 : k.open? = true → k.didBind = true) (h3 : ∀ p ∈ out, Greeting w s' p.msg) (h4 : k.sock ⊆ (s.rank r).sock)
    (h5 : ∀ seen i, k.stage = .collect seen i → r = 0 ∧ seen.Nodup ∧ seen.length + i = w.n ∧
      ∀ x ∈ seen, x < w.n ∧ (s.rank x).didBind = true) : Waiting w s' := by
  have hmono := fun x => didBind_mono h x
  have hgreet := fun m => Greeting.mono (m := m) h
  obtain ⟨-, k', out', hk', rfl⟩ := step_rank h
  obtain ⟨rfl, rfl⟩ : k' = k ∧ out' = out := by simpa [hk] using hk'.symm
  refine ⟨fun x => ?_, fun x => ?_, fun p hp => ?_, fun x m hm => ?_, fun x seen i hs => ?_⟩
  · by_cases hx : x = r
    · subst hx; simpa using h1
    · simpa [hx] using hw.stage x
  · by_cases hx : x = r
    · subst hx; simpa using h2
    · simpa [hx] using hw.bound x
  · rcases List.mem_append.1 hp with hp | hp
    · exact hgreet _ (hw.net p hp)
    · exact h3 p hp
  · by_cases hx : x = r
    · subst hx; exact hgreet m (hw.sock x m (h4 (by simpa using hm)))
    · exact hgreet m (hw.sock x m (by simpa [hx] using hm))
  · have hseen : x = 0 ∧ seen.Nodup ∧ seen.length + i = w.n ∧ ∀ y ∈ seen, y < w.n ∧ (s.rank y).didBind = true := by
      by_cases hx : x = r
      · subst hx; exact h5 seen i (by simpa using hs)
      · exact hw.seen x seen i (by simpa [hx] using hs)
    obtain ⟨h0, hn, hlen, hin⟩ := hseen
    exact ⟨h0, hn, hlen, fun y hy => ⟨(hin y hy).1, hmono y (hin y hy).2⟩⟩

/-- Rank 0 decides that all ranks are there. -/
def Decides (w : World) (s s' : Sys) : Prop :=
  AllBound w s ∧ ∃ st, (st = .go 1 ∨ (w.n = 1 ∧ st = .ready)) ∧
    s' = { s with rank := Function.update s.rank 0 { s.rank 0 with stage := st } }

/-- A step of `MPI_Init` before rank 0's decision: it is that decision, or all
go on waiting. -/
theorem Waiting.join (hw : Waiting w s) {r : Nat} {st : Stage} {q : List Msg} {out : List Packet}
    (h : step w s (.rank r .init) = some s')
    (hk : (s.rank r).step w r .init = some ({ s.rank r with stage := st, sock := q }, out))
    (hj : Join w.n r (s.rank r).stage (s.rank r).sock st q out) : Decides w s s' ∨ Waiting w s' := by
  have hr := (step_rank h).1
  have hs' : s' = { rank := Function.update s.rank r { s.rank r with stage := st, sock := q }, net := s.net ++ out,
                    sent := s.sent ++ out.filter (·.msg.origin.app) } := by
    obtain ⟨-, k', out', hk', hs'⟩ := step_rank h
    rw [hk] at hk'
    cases hk'
    exact hs'
  have hearly := hw.stage r
  have hbound := hw.bound r
  have hsock := hw.sock r
  have hseen := hw.seen r
  have hupd := hw.update h hk
  have hmono := fun x => didBind_mono h x
  generalize hst : (s.rank r).stage = st0, hsq : (s.rank r).sock = q0 at hj hearly hbound hsock hseen hupd
  have hopen : st0 ≠ .unbound → st0 ≠ .failed → (s.rank r).didBind = true := fun h1 h2 =>
    hbound (by simp [Rank.open?, hst, h1, h2])
  cases hj with
  | alone h1 =>
    obtain rfl : r = 0 := by omega
    refine .inl ⟨fun x hx => ?_, .ready, .inr ⟨h1, rfl⟩, ?_⟩
    · obtain rfl : x = 0 := by omega
      exact hopen (by simp) (by simp)
    · rw [hs', ← hsq]; simp
  | root h1 h2 =>
    refine .inr (hupd rfl (fun _ => hopen (by simp) (by simp)) (by simp) (by simp) ?_)
    rintro seen i ⟨rfl, rfl⟩
    have := w.pos
    refine ⟨h2, by simp, by simp; omega, fun x hx => ?_⟩
    obtain rfl : x = r := by simp at hx; omega
    exact ⟨hr, hopen (by simp) (by simp)⟩
  | other h1 h2 => exact .inr (hupd rfl (fun _ => hopen (by simp) (by simp)) (by simp) (by simp) (by simp))
  | @all seen =>
    obtain ⟨rfl, -⟩ := hseen seen 0 rfl
    exact .inl ⟨allBound_of_seen hw hst, .go 1, .inl rfl, by rw [hs', ← hsq]; simp⟩
  | yield h1 => exact .inr (hupd rfl (fun _ => hopen (by simp) (by simp)) (by simp) (by simp) hseen)
  | @hears seen i m q h1 h2 h3 h4 h5 =>
    refine .inr (hupd rfl (fun _ => hopen (by simp) (by simp)) (by simp) (by simp) ?_)
    rintro _ _ ⟨rfl, rfl⟩
    obtain ⟨h0, hn, hlen, hin⟩ := hseen seen i rfl
    refine ⟨h0, List.nodup_cons.2 ⟨h5, hn⟩, by simp; omega, fun x hx => ?_⟩
    rcases List.mem_cons.1 hx with rfl | hx
    · -- the `HELLO` is from the rank it names
      obtain ⟨y, hy, hf, hb⟩ := hsock m (by simp)
      simpa [hf, token] using ⟨hy, hb⟩
    · exact hin x hx
  | skips h1 => exact .inr (hupd rfl (fun _ => hopen (by simp) (by simp)) (by simp) (by simp) hseen)
  | go h1 => cases hearly
  | went h1 => cases hearly
  | @hello c =>
    refine .inr (hupd rfl (fun _ => hopen (by simp) (by simp)) ?_ (by simp) (by simp))
    intro p hp
    split at hp <;> simp at hp
    subst hp
    exact ⟨r, hr, rfl, hmono r (hopen (by simp) (by simp))⟩
  | empty => exact .inr (hupd rfl (fun _ => hopen (by simp) (by simp)) (by simp) (by simp) (by simp))
  | @acked c m q h1 =>
    obtain ⟨y, -, hf, -⟩ := hsock m (by simp)
    simp [hf, token] at h1
  | ignores h1 => exact .inr (hupd rfl (fun _ => hopen (by simp) (by simp)) (by simp) (by simp) (by simp))
  | restored => cases hearly

theorem waiting_step (hw : Waiting w s) (h : step w s l = some s') : Decides w s s' ∨ Waiting w s' := by
  cases l with
  | rank r a =>
    obtain ⟨hr, k, out, hk, -⟩ := step_rank h
    have hearly := hw.stage r
    have hnr : (s.rank r).stage ≠ .ready := fun e => by rw [e] at hearly; cases hearly
    rcases step_early hnr hk with ⟨rfl, hu, rfl, rfl⟩ | ⟨rfl, st, q, rfl, hj⟩ | ⟨e, rfl, rfl, st, rfl, hf⟩
    · exact .inr (hw.update h hk rfl (fun _ => rfl) (by simp) (by simp) (by simp))
    · exact hw.join h hk hj
    · have hupd := hw.update h hk
      have hbound := hw.bound r
      have hseen := hw.seen r
      generalize hst : (s.rank r).stage = st0 at *
      have hopen : st0 ≠ .unbound → st0 ≠ .failed → (s.rank r).didBind = true := fun h1 h2 =>
        hbound (by simp [Rank.open?, hst, h1, h2])
      cases hf with
      | fatal => exact .inr (hupd rfl (by simp [Rank.open?]) (by simp) (by simp) (by simp))
      | go => cases hearly
      | hello => exact .inr (hupd rfl (fun _ => hopen (by simp) (by simp)) (by simp) (by simp) (by simp))
      | collect => exact .inr (hupd rfl (fun _ => hopen (by simp) (by simp)) (by simp) (by simp) hseen)
      | poll => exact .inr (hupd rfl (fun _ => hopen (by simp) (by simp)) (by simp) (by simp) (by simp))
  | deliver i =>
    have hstage := deliver_stage h
    obtain ⟨p, hp, hnet, hrank⟩ := deliver_spec h
    refine .inr ⟨fun x => ?_, fun x hx => didBind_mono h x (hw.bound x ?_), fun p' hp' => ?_, fun x m hm => ?_,
      fun x seen i hs => ?_⟩
    · rw [hstage]
      exact hw.stage x
    · simpa only [Rank.open?, hstage] using hx
    · rw [hnet] at hp'
      exact (hw.net p' (List.mem_of_mem_eraseIdx hp')).mono h
    · refine Greeting.mono h ?_
      rcases hrank x with ⟨hx, -⟩ | ⟨-, hx⟩ <;> rw [hx] at hm
      · exact hw.sock x m hm
      · rcases List.mem_append.1 hm with hm | hm
        · exact hw.sock x m hm
        · rw [List.mem_singleton.1 hm]
          exact hw.net p (List.mem_of_getElem? hp)
    · obtain ⟨h0, h1, h2, h3⟩ := hw.seen x seen i (by rwa [hstage] at hs)
      exact ⟨h0, h1, h2, fun y hy => ⟨(h3 y hy).1, didBind_mono h y (h3 y hy).2⟩⟩

theorem start_waiting (w : World) : Waiting w start := by
  refine ⟨fun r => rfl, fun r h => ?_, ?_, ?_, ?_⟩
  · simp [start, Rank.open?] at h
  · intro p hp; cases hp
  · intro r m hm; cases hm
  · intro r seen i h; cases h

theorem waiting_or_bound {ok : Sys → Label → Sys → Prop} (h : Run (step w) ok start s) :
    AllBound w s ∨ Waiting w s := by
  refine h.inv (fun s => AllBound w s ∨ Waiting w s) (.inr (start_waiting w)) ?_
  rintro s l s' (hb | hw) - hst
  · exact .inl fun r hr => didBind_mono hst r (hb r hr)
  · rcases waiting_step hw hst with ⟨hb, -⟩ | hw'
    · exact .inl fun r hr => didBind_mono hst r (hb r hr)
    · exact .inr hw'

/-- Whatever order the ranks and the network take their steps in, whichever
datagrams are dropped and whichever system calls fail: when some rank's
`MPI_Init` has returned `MPI_SUCCESS`, every rank has bound its socket. -/
theorem init_returns_after_all_bound (w : World) {s : Sys} (h : Run (step w) (fun _ _ _ => True) start s) {r : Nat}
    (hr : (s.rank r).stage = .ready) : ∀ x < w.n, (s.rank x).didBind = true := by
  rcases waiting_or_bound h with hb | hw
  · exact hb
  · have := hw.stage r
    rw [hr] at this
    cases this

/-- Two ranks and what they call. -/
def duo (p q : List Op) : World := ⟨2, fun r => if r = 0 then p else q, by decide, by decide⟩

/-- Both ranks get through `MPI_Init`. -/
def duoInit : List Label :=
  [.rank 0 .bind, .rank 1 .bind, .rank 1 .init, .rank 1 .init, .deliver 0, .rank 0 .init, .rank 0 .init, .rank 0 .init,
    .rank 0 .init, .rank 0 .init, .rank 0 .init, .deliver 0, .rank 1 .init, .rank 1 .init]

/-- Rank 1's first `HELLO` is dropped, because rank 0 has not bound its port;
the one it sends 64 rounds later gets there, and rank 0 goes through. -/
def duoRetry : List Label :=
  [.rank 1 .bind, .rank 1 .init, .rank 1 .init, .deliver 0, .rank 0 .bind] ++ List.replicate 128 (.rank 1 .init) ++
    [.deliver 0] ++ List.replicate 6 (.rank 0 .init)

theorem init_returns_after_all_bound_duo :
    ∃ s, Run (step (duo [] [])) (fun _ _ _ => True) start s ∧ (s.rank 0).stage = .ready ∧
      ∀ x < 2, (s.rank x).didBind = true := by
  have h : (exec (step (duo [] [])) (fun _ _ => true) start duoRetry).map
    (fun s => decide ((s.rank 0).stage = .ready)) =
      some true := by decide +kernel
  obtain ⟨s, hrun, hr⟩ := exec_reaches h fun _ _ _ _ => trivial
  exact ⟨s, hrun, hr, init_returns_after_all_bound (duo [] []) hrun hr⟩

end

end LibNeoos.Mpi
