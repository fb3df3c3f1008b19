import LibNeoos.Mpi.Progress
/-!
# Start-up that is still possible

A `GO` is sent once, and what `send_raw` returns for it is not looked at. A run can
therefore reach a state in which a rank waits for a `GO` that is nowhere (`goLost`).
Steps of `MPI_Init` in which no system call fails, and deliveries, do not lead into
such a state, nor into one where an `MPI_Init` has failed (`Alive.step`); and no step
leads out of one (`stalled_step`), since here a rank calls `MPI_Init` only once.
-/

namespace LibNeoos.Mpi

open LibNeoos.Lib

/-- A step of `MPI_Init` in which no system call fails, or of a network that delivers
the packets in the order they were sent. -/
def Label.plain : Label → Bool
  | .rank _ .bind => true
  | .rank _ .init => true
  | .deliver i => i = 0
  | _ => false

/-- Every rank's `MPI_Init` has returned `MPI_SUCCESS`. -/
def Started (w : World) (s : Sys) : Prop := ∀ r < w.n, (s.rank r).stage = .ready

instance (w : World) (s : Sys) : Decidable (Started w s) :=
  inferInstanceAs (Decidable (∀ r < w.n, (s.rank r).stage = .ready))

/-- Rank 0 is past the `GO` of rank `b`, which has not arrived and is not in flight. -/
def goLost (s : Sys) (b : Nat) : Bool :=
  (s.rank 0).stage.past = true ∧ (s.rank 0).stage.goDue b = false ∧ (s.rank b).goArrived = false ∧
    ∀ p ∈ s.net, ¬ (p.dst = b ∧ p.msg.origin = .go)

/-- Some `MPI_Init` has failed, or a `GO` is lost. -/
def Stalled (w : World) (s : Sys) : Prop :=
  ∃ r < w.n, (s.rank r).stage = .failed ∨ 0 < r ∧ goLost s r = true

instance (w : World) (s : Sys) : Decidable (Stalled w s) :=
  inferInstanceAs (Decidable (∃ r < w.n, (s.rank r).stage = .failed ∨ 0 < r ∧ goLost s r = true))

theorem goLost_iff {s : Sys} {b : Nat} : goLost s b = true ↔
    (s.rank 0).stage.past = true ∧ (s.rank 0).stage.goDue b = false ∧ (s.rank b).goArrived = false ∧
      ∀ p ∈ s.net, ¬ GoTo b p := by
  simp [goLost, GoTo, IsGo]

/-! ## Stages in any run -/

/-- The stages of rank 0; it has ticked itself off. -/
def Rank.asRoot (k : Rank) : Prop :=
  match k.stage with
  | .hello _ | .poll _ => False
  | .collect seen _ => 0 ∈ seen
  | _ => True

/-- Rank 0 has decided that all are there, unless it has failed. -/
structure After (w : World) (s : Sys) : Prop where
  root : (s.rank 0).stage.past = true ∨ (s.rank 0).stage = .failed
  spoke : ∀ b, 0 < b → b < w.n → (s.rank b).stage.spoke = true ∨ (s.rank b).stage = .failed

section
variable {w : World} {r : Nat} {k k' : Rank} {out : List Packet} {a : Do}

theorem step_asRoot (hk : k.asRoot) (h : k.step w 0 a = some (k', out)) : k'.asRoot := by
  by_cases hready : k.stage = .ready
  · simp [Rank.asRoot, (step_ready hready h).1]
  · unfold Rank.asRoot at hk
    rcases step_early hready h with ⟨-, -, rfl, -⟩ | ⟨-, st, q, rfl, hj⟩ | ⟨e, -, -, st, rfl, hf⟩
    · trivial
    · generalize k.stage = st0, k.sock = q0 at hj hk
      cases hj with
      | other h1 h2 => exact absurd rfl h2
      | root => simp [Rank.asRoot]
      | hears => exact List.mem_cons_of_mem _ hk
      | yield | skips => exact hk
      | hello | empty | acked | ignores => exact hk.elim
      | _ => trivial
    · generalize k.stage = st0 at hf hk
      cases hf with
      | fatal | go => trivial
      | collect => exact hk
      | hello | poll => exact hk.elim

theorem step_past (hk : k.stage.past = true ∨ k.stage = .failed) (h : k.step w 0 a = some (k', out)) :
    k'.stage.past = true ∨ k'.stage = .failed := by
  by_cases hready : k.stage = .ready
  · simp [(step_ready hready h).1, Stage.past]
  · rcases step_early hready h with ⟨-, hu, -⟩ | ⟨-, st, q, rfl, hj⟩ | ⟨e, -, -, st, rfl, hf⟩
    · simp [hu, Stage.past] at hk
    · generalize k.stage = st0, k.sock = q0 at hj hk
      cases hj with
      | go | went | restored => exact .inl rfl
      | _ => simp [Stage.past] at hk
    · generalize k.stage = st0 at hf hk
      cases hf with
      | fatal => exact .inr rfl
      | go => exact .inl rfl
      | _ => simp [Stage.past] at hk

theorem step_spoke (hr : 0 < r) (hn : r < w.n) (hk : k.stage.spoke = true ∨ k.stage = .failed)
    (h : k.step w r a = some (k', out)) : k'.stage.spoke = true ∨ k'.stage = .failed := by
  by_cases hready : k.stage = .ready
  · simp [(step_ready hready h).1, Stage.spoke]
  · rcases step_early hready h with ⟨-, hu, -⟩ | ⟨-, st, q, rfl, hj⟩ | ⟨e, -, -, st, rfl, hf⟩
    · simp [hu, Stage.spoke] at hk
    · generalize k.stage = st0, k.sock = q0 at hj hk
      cases hj with
      | alone h1 => omega
      | root h1 h2 => omega
      | other | hello | empty | acked | ignores | restored => exact .inl rfl
      | _ => simp [Stage.spoke] at hk
    · generalize k.stage = st0 at hf hk
      cases hf with
      | fatal => exact .inr rfl
      | hello | poll => exact .inl rfl
      | _ => simp [Stage.spoke] at hk

/-- No step leads back to where the socket is not bound. -/
theorem step_unbound (h : k.step w r a = some (k', out)) : k'.stage ≠ .unbound := by
  by_cases hready : k.stage = .ready
  · simp [(step_ready hready h).1]
  · rcases step_early hready h with ⟨-, -, rfl, -⟩ | ⟨-, st, q, rfl, hj⟩ | ⟨e, -, -, st, rfl, hf⟩
    · simp
    · generalize k.stage = st0, k.sock = q0 at hj
      cases hj <;> simp
    · generalize k.stage = st0 at hf
      cases hf <;> simp

end

section
variable {w : World} {s s' : Sys} {l : Label} {ok : Sys → Label → Sys → Prop}

theorem run_asRoot (h : Run (step w) ok start s) : (s.rank 0).asRoot := by
  refine h.inv (fun s => (s.rank 0).asRoot) trivial fun s l s' hi _ hst => ?_
  exact step_each (fun _ _ hk => hk) hst 0 (fun _ _ _ _ hk => step_asRoot hi hk) hi

theorem run_unbound (h : Run (step w) ok start s) (x : Nat) :
    (s.rank x).didBind = true → (s.rank x).stage ≠ .unbound := by
  refine h.inv (fun s => ∀ x, (s.rank x).didBind = true → (s.rank x).stage ≠ .unbound) ?_ ?_ x
  · intro x hb
    simp [start] at hb
  · intro s l s' hi _ hst x
    exact step_each (P := fun k => k.didBind = true → k.stage ≠ .unbound) (fun _ _ hk => hk) hst x
      (fun _ _ _ _ hk _ => step_unbound hk) (hi x)

theorem after_step (ha : After w s) (h : step w s l = some s') : After w s' := by
  refine ⟨?_, fun b h0 hb => ?_⟩
  · exact step_each (P := fun k => k.stage.past = true ∨ k.stage = .failed) (fun _ _ hk => hk) h 0
      (fun _ _ _ _ hk => step_past ha.root hk) ha.root
  · exact step_each (P := fun k => k.stage.spoke = true ∨ k.stage = .failed) (fun _ _ hk => hk) h b
      (fun _ _ _ _ hk => step_spoke h0 hb (ha.spoke b h0 hb) hk) (ha.spoke b h0 hb)

theorem after_of_decides (hw : Waiting w s) (hu : ∀ x, (s.rank x).didBind = true → (s.rank x).stage ≠ .unbound)
    (hd : Decides w s s') : After w s' := by
  obtain ⟨hb, st, hst, rfl⟩ := hd
  refine ⟨?_, fun b h0 hbn => ?_⟩
  · rcases hst with rfl | ⟨-, rfl⟩ <;> simp [Stage.past]
  · have hne : b ≠ 0 := by omega
    simp only [Function.update_of_ne hne]
    have hearly := hw.stage b
    have hseen := hw.seen b
    have hbound := hu b (hb b hbn)
    cases hk : (s.rank b).stage with
    | collect seen i => exact absurd (hseen seen i hk).1 hne
    | _ => simp_all [Stage.spoke, Stage.early]

theorem run_after (h : Run (step w) ok start s) : Waiting w s ∨ After w s := by
  refine h.inv_reach (fun s => Waiting w s ∨ After w s) (.inl (start_waiting w)) ?_
  rintro s l s' hr (hw | ha) - hst
  · rcases waiting_step hw hst with hd | hw'
    · exact .inr (after_of_decides hw (run_unbound hr) hd)
    · exact .inl hw'
  · exact .inr (after_step ha hst)

theorem after_of_past (h : Run (step w) ok start s) (hp : (s.rank 0).stage.past = true) : After w s := by
  refine (run_after h).resolve_left fun hw => ?_
  have hearly := hw.stage 0
  cases hst : (s.rank 0).stage <;> simp [hst, Stage.past, Stage.early] at hp hearly

end

/-! ## Plain steps keep start-up possible -/

/-- A state of some run from which start-up can complete. -/
structure Alive (w : World) (s : Sys) : Prop where
  reach : Run (step w) (fun _ _ _ => True) start s
  hope : ¬ Stalled w s

/-- A `GO` that is due, has arrived or is in flight. -/
def GoSafe (s : Sys) (b : Nat) : Prop :=
  (s.rank 0).stage.past = true →
    (s.rank 0).stage.goDue b = true ∨ (s.rank b).goArrived = true ∨ ∃ p ∈ s.net, GoTo b p

theorem goSafe_iff {s : Sys} {b : Nat} : GoSafe s b ↔ ¬ goLost s b = true := by
  rw [goLost_iff, GoSafe]
  constructor
  · rintro h ⟨hp, hdue, harr, hnet⟩
    rcases h hp with h | h | ⟨p, hp, hgo⟩
    · rw [hdue] at h; cases h
    · rw [harr] at h; cases h
    · exact hnet p hp hgo
  · intro h hp
    by_contra hno
    simp only [not_or, Bool.not_eq_true, not_exists, not_and] at hno
    exact h ⟨hp, hno.1, hno.2.1, hno.2.2⟩

section
variable {w : World} {r : Nat} {k : Rank} {st : Stage} {q : List Msg} {out : List Packet}

/-- A rank in its loop does not throw its `GO` away. -/
theorem join_goArrived (h0 : 0 < r) (hn : r < w.n) (hk : k.stage.spoke = true)
    (hgo : ∀ m ∈ k.sock, IsGo m → m.frame.hdr.tag = TAG_GO) (hj : Join w.n r k.stage k.sock st q out)
    (ha : k.goArrived = true) : ({ k with stage := st, sock := q } : Rank).goArrived = true := by
  rw [goArrived_iff] at ha ⊢
  generalize k.stage = st0, k.sock = q0 at hj hk hgo ha
  cases hj with
  | alone h1 => omega
  | root h1 h2 => omega
  | other | hello => simpa using ha
  | empty => simp at ha
  | acked => exact .inl rfl
  | @ignores c m q h1 =>
    have hm : ¬ IsGo m := fun hg => h1 (hgo m (by simp) hg)
    simpa [hm] using ha
  | restored => exact .inr (.inl rfl)
  | _ => cases hk

end

section
variable {w : World} {s s' : Sys} {l : Label} {b : Nat}

theorem Alive.sane (h : Alive w s) {r : Nat} (hr : r < w.n) : (s.rank r).stage ≠ .failed :=
  fun hf => h.hope ⟨r, hr, .inl hf⟩

theorem Alive.goSafe (h : Alive w s) (h0 : 0 < b) (hb : b < w.n) : GoSafe s b :=
  goSafe_iff.2 fun hl => h.hope ⟨b, hb, .inr ⟨h0, hl⟩⟩

theorem Alive.spoke (h : Alive w s) (hp : (s.rank 0).stage.past = true) (h0 : 0 < b) (hb : b < w.n) :
    (s.rank b).stage.spoke = true :=
  ((after_of_past h.reach hp).spoke b h0 hb).resolve_right (h.sane hb)

theorem spoke_open {k : Rank} (h : k.stage.spoke = true) : k.open? = true := by
  cases hst : k.stage <;> simp_all [Rank.open?, Stage.spoke]

/-- Rank `r` has gone on to the stage `st`, has `q` left to read and has sent `out`. -/
def Sys.join (s : Sys) (r : Nat) (st : Stage) (q : List Msg) (out : List Packet) : Sys :=
  { rank := Function.update s.rank r { s.rank r with stage := st, sock := q }, net := s.net ++ out,
    sent := s.sent ++ out.filter (·.msg.origin.app) }

section
variable {r : Nat} {st : Stage} {q : List Msg} {out : List Packet}

@[simp] theorem Sys.join_self : (s.join r st q out).rank r = { s.rank r with stage := st, sock := q } := by
  simp [Sys.join]

theorem Sys.join_of_ne {x : Nat} (h : x ≠ r) : (s.join r st q out).rank x = s.rank x := by
  simp [Sys.join, h]

@[simp] theorem Sys.join_net : (s.join r st q out).net = s.net ++ out := rfl

/-- In its loops `MPI_Init` never waits. -/
theorem init_step (hr : r < w.n) (hu : (s.rank r).stage ≠ .unbound) (hnr : (s.rank r).stage ≠ .ready)
    (hf : (s.rank r).stage ≠ .failed) :
    ∃ st q out, Join w.n r (s.rank r).stage (s.rank r).sock st q out ∧
      step w s (.rank r .init) = some (s.join r st q out) := by
  have hsome : (rendezvous w.n r (s.rank r)).isSome = true := by
    unfold rendezvous
    cases hst : (s.rank r).stage with
    | unbound => exact absurd hst hu
    | ready => exact absurd hst hnr
    | failed => exact absurd hst hf
    | bound => dsimp only; split_ifs <;> rfl
    | collect seen i =>
      dsimp only
      split_ifs
      · rfl
      · split
        · rfl
        · split_ifs <;> rfl
    | go i => dsimp only; split_ifs <;> rfl
    | hello c => rfl
    | poll c =>
      dsimp only
      split
      · rfl
      · split_ifs <;> rfl
    | restore => rfl
  obtain ⟨⟨k, out⟩, hk⟩ := Option.isSome_iff_exists.1 hsome
  obtain ⟨st, q, rfl, hj⟩ := rendezvous_join hk
  exact ⟨st, q, out, hj, by simp [step, hr, Rank.step, hk, Sys.join]⟩

/-- What a plain step of a rank is. -/
theorem plain_rank {a : Do} (hl : (Label.rank r a).plain = true) (h : step w s (.rank r a) = some s') :
    (∃ st q out, Join w.n r (s.rank r).stage (s.rank r).sock st q out ∧ s' = s.join r st q out) ∨
      ((s.rank r).stage = .unbound ∧ (s'.rank r).stage = .bound ∧ s'.net = s.net ∧ ∀ x, x ≠ r →
        s'.rank x = s.rank x) := by
  obtain ⟨-, k, out, hk, rfl⟩ := step_rank h
  cases a with
  | bind =>
    simp only [Rank.step] at hk
    split at hk <;> cases hk
    rename_i hu
    exact .inr ⟨hu, by simp, by simp, fun x hx => by simp [hx]⟩
  | init =>
    obtain ⟨st, q, rfl, hj⟩ := rendezvous_join hk
    exact .inl ⟨st, q, out, hj, rfl⟩
  | _ => cases hl

end

theorem plain_failed (hl : l.plain = true) (h : step w s l = some s') {x : Nat} (hf : (s'.rank x).stage = .failed) :
    (s.rank x).stage = .failed := by
  cases l with
  | deliver i => rwa [deliver_stage h] at hf
  | rank r a =>
    by_cases hx : x = r
    · subst hx
      rcases plain_rank hl h with ⟨st, q, out, hj, rfl⟩ | ⟨-, hb, -⟩
      · rw [Sys.join_self] at hf
        replace hf : st = .failed := hf
        subst hf
        generalize (s.rank x).stage = st0, (s.rank x).sock = q0 at hj
        cases hj
      · rw [hb] at hf
        cases hf
    · rwa [(step_one h).2 x hx] at hf

/-- The `GO`s rank 0 sends are not lost, and nor are those sent before. -/
theorem Alive.goSafe_root (h : Alive w s) (h0 : 0 < b) (hb : b < w.n) {st : Stage} {q : List Msg} {out : List Packet}
    (hj : Join w.n 0 (s.rank 0).stage (s.rank 0).sock st q out) : GoSafe (s.join 0 st q out) b := by
  have hne : b ≠ 0 := by omega
  have hsafe := h.goSafe h0 hb
  unfold GoSafe at hsafe ⊢
  simp only [Sys.join_self, Sys.join_of_ne hne, Sys.join_net]
  intro hp
  have before : (s.rank 0).stage.past = true → (s.rank 0).stage.goDue b = false →
      (s.rank b).goArrived = true ∨ ∃ p ∈ s.net ++ out, GoTo b p := by
    intro hp hdue
    rcases hsafe hp with hd | ha | ⟨p, hp, hgo⟩
    · rw [hdue] at hd; cases hd
    · exact .inl ha
    · exact .inr ⟨p, List.mem_append_left _ hp, hgo⟩
  have hroot := run_asRoot h.reach
  unfold Rank.asRoot at hroot
  generalize (s.rank 0).stage = st0, (s.rank 0).sock = q0 at hj before hroot
  cases hj with
  | alone h1 => omega
  | acked => exact hroot.elim
  | all =>
    left
    simp only [Stage.goDue, decide_eq_true_eq]
    omega
  | @go i q hi =>
    rcases Nat.lt_trichotomy b i with hlt | rfl | hgt
    · exact .inr (before rfl (by simpa [Stage.goDue] using hlt))
    · exact .inr (.inr ⟨_, List.mem_append_right _ (List.mem_singleton_self _), rfl, rfl⟩)
    · left
      simp only [Stage.goDue, decide_eq_true_eq]
      omega
  | @went i q hi =>
    have hlt : b < i := by omega
    exact .inr (before rfl (by simpa [Stage.goDue] using hlt))
  | restored => exact .inr (before rfl rfl)
  | _ => simp [Stage.past] at hp

theorem Alive.goSafe_step (h : Alive w s) (hl : l.plain = true) (hst : step w s l = some s') (h0 : 0 < b)
    (hb : b < w.n) :
    GoSafe s' b := by
  cases l with
  | deliver i =>
    intro hp
    have hstage := deliver_stage hst
    rw [hstage] at hp ⊢
    obtain ⟨p, hpi, hnet, hrank⟩ := deliver_spec hst
    rcases h.goSafe h0 hb hp with hd | ha | ⟨g, hg, hgo⟩
    · exact .inl hd
    · rcases hrank b with ⟨hx, -⟩ | ⟨-, hx⟩ <;> rw [hx]
      · exact .inr (.inl ha)
      · exact .inr (.inl (goArrived_append (.inl ha)))
    · by_cases hgp : GoTo b p
      · rcases hrank b with ⟨-, hopen⟩ | ⟨-, hx⟩
        · have hclosed := hopen hgp.1.symm
          rw [spoke_open (h.spoke hp h0 hb)] at hclosed
          cases hclosed
        · rw [hx]
          exact .inr (.inl (goArrived_append (.inr ⟨_, List.mem_singleton_self _, hgp.2⟩)))
      · refine .inr (.inr ⟨g, ?_, hgo⟩)
        rw [hnet]
        obtain ⟨j, hj⟩ := List.getElem?_of_mem hg
        refine List.mem_eraseIdx_iff_getElem?.2 ⟨j, ?_, hj⟩
        rintro rfl
        rw [hpi] at hj
        cases hj
        exact hgp hgo
  | rank r a =>
    by_cases hr : r = 0
    · subst hr
      rcases plain_rank hl hst with ⟨st, q, out, hj, rfl⟩ | ⟨-, hbound, -⟩
      · exact h.goSafe_root h0 hb hj
      · intro hp
        simp [hbound, Stage.past] at hp
    · intro hp
      have hroot : s'.rank 0 = s.rank 0 := (step_one hst).2 0 (Ne.symm hr)
      rw [hroot] at hp ⊢
      have hnet : ∀ g ∈ s.net, g ∈ s'.net := by
        obtain ⟨-, k, out, -, rfl⟩ := step_rank hst
        exact fun g hg => List.mem_append_left _ hg
      rcases h.goSafe h0 hb hp with hd | ha | ⟨g, hg, hgo⟩
      · exact .inl hd
      · refine .inr (.inl ?_)
        by_cases hbr : b = r
        · subst hbr
          have hspoke := h.spoke hp h0 hb
          rcases plain_rank hl hst with ⟨st, q, out, hj, rfl⟩ | ⟨hu, -⟩
          · rw [Sys.join_self]
            exact join_goArrived h0 hb hspoke (fun m hm => held_go (run_labelled h.reach) hm) hj ha
          · rw [hu] at hspoke
            cases hspoke
        · rwa [(step_one hst).2 b hbr]
      · exact .inr (.inr ⟨g, hnet g hg, hgo⟩)

theorem Alive.step (h : Alive w s) (hl : l.plain = true) (hst : step w s l = some s') : Alive w s' := by
  refine ⟨.snoc h.reach trivial hst, ?_⟩
  rintro ⟨r, hr, hf | ⟨h0, hlost⟩⟩
  · exact h.sane hr (plain_failed hl hst hf)
  · exact goSafe_iff.1 (h.goSafe_step hl hst h0 hr) hlost

end

/-! ## A lost `GO` stays lost -/

section
variable {w : World} {r : Nat} {k k' : Rank} {out : List Packet} {a : Do}

theorem step_failed (hk : k.stage = .failed) (h : k.step w r a = some (k', out)) : k'.stage = .failed := by
  rcases step_early (by simp [hk]) h with ⟨-, hu, -⟩ | ⟨-, st, q, rfl, hj⟩ | ⟨e, -, -, st, rfl, hf⟩
  · simp [hk] at hu
  · rw [hk] at hj
    cases hj
  · rw [hk] at hf
    cases hf
    rfl

/-- A `GO` is sent by a rank whose turn is that of the receiver. -/
theorem out_go (h : k.step w r a = some (k', out)) : ∀ p ∈ out, IsGo p.msg → k.stage = .go p.dst := by
  intro p hp hgo
  by_cases hready : k.stage = .ready
  · have happ := ready_out hready h p hp
    rw [show p.msg.origin = .go from hgo] at happ
    cases happ
  · rcases step_early hready h with ⟨-, -, -, rfl⟩ | ⟨-, st, q, rfl, hj⟩ | ⟨e, -, rfl, -⟩
    · cases hp
    · generalize k.stage = st0, k.sock = q0 at hj ⊢
      cases hj with
      | go =>
        simp only [List.mem_singleton] at hp
        rw [hp]
      | hello =>
        split at hp <;> simp only [List.mem_singleton, List.not_mem_nil] at hp
        rw [hp] at hgo
        cases hgo
      | _ => cases hp
    · cases hp

theorem step_goDue {b : Nat} (hk : k.stage.past = true) (hdue : k.stage.goDue b = false)
    (h : k.step w 0 a = some (k', out)) : k'.stage.goDue b = false := by
  by_cases hready : k.stage = .ready
  · simp [(step_ready hready h).1, Stage.goDue]
  · rcases step_early hready h with ⟨-, hu, -⟩ | ⟨-, st, q, rfl, hj⟩ | ⟨e, -, -, st, rfl, hf⟩
    · simp [hu, Stage.past] at hk
    · generalize k.stage = st0, k.sock = q0 at hj hk hdue
      cases hj with
      | go =>
        simp only [Stage.goDue, decide_eq_false_iff_not] at hdue ⊢
        omega
      | went | restored => rfl
      | _ => cases hk
    · generalize k.stage = st0 at hf hk hdue
      cases hf with
      | fatal => rfl
      | go =>
        simp only [Stage.goDue, decide_eq_false_iff_not] at hdue ⊢
        omega
      | _ => cases hk

/-- A rank gets no `GO` out of a socket that holds none. -/
theorem step_noGo (h0 : 0 < r) (hn : r < w.n) (hk : k.stage.spoke = true ∨ k.stage = .failed)
    (htag : ∀ m ∈ k.sock, m.frame.hdr.tag = TAG_GO → IsGo m) (hno : k.goArrived = false)
    (h : k.step w r a = some (k', out)) : k'.goArrived = false := by
  simp only [← Bool.not_eq_true, goArrived_iff, not_or, not_exists, not_and] at hno ⊢
  obtain ⟨hnr, hready, hsock⟩ := hno
  rcases step_early hready h with ⟨-, hu, -⟩ | ⟨-, st, q, rfl, hj⟩ | ⟨e, -, -, st, rfl, hf⟩
  · simp [hu, Stage.spoke] at hk
  · generalize k.stage = st0, k.sock = q0 at hj hk htag hnr hready hsock
    cases hj with
    | alone h1 => omega
    | root h1 h2 => omega
    | other | hello | empty => exact ⟨by simp, by simp, hsock⟩
    | @acked c m q hm => exact absurd (htag m (by simp) hm) (hsock m (by simp))
    | ignores => exact ⟨by simp, by simp, fun m hm => hsock m (List.mem_cons_of_mem _ hm)⟩
    | restored => exact absurd rfl hnr
    | _ => simp [Stage.spoke] at hk
  · generalize k.stage = st0 at hf hk hnr hready
    cases hf with
    | fatal | hello | poll => exact ⟨by simp, by simp, hsock⟩
    | _ => simp [Stage.spoke] at hk

end

section
variable {w : World} {s s' : Sys} {l : Label}

/-- With the tags applications may use, only a `GO` has its tag. -/
theorem isGo_of_tag (htags : ∀ r < w.n, ∀ op ∈ w.prog r, op.tagOk) {d : Nat} {m : Msg} (hm : MsgOk w d m)
    (ht : m.frame.hdr.tag = TAG_GO) : IsGo m := by
  unfold MsgOk at hm
  split at hm
  · obtain ⟨hs, op, hop, hcall, hf⟩ := hm
    have hok := htags _ hs op (List.mem_of_getElem? hop)
    cases op with
    | send buf count type dest tag comm =>
      have htag : m.frame.hdr.tag = tag := hf.2.2
      have hle : tag ≤ MPI_TAG_UB := hok
      rw [← htag, ht] at hle
      exact absurd hle (by decide)
    | recv => exact hf.2.2.elim
    | _ => cases hcall
  · obtain ⟨hs, op, hop, hcall, hf⟩ := hm
    have hcoll : CollTag m.frame.hdr.tag := by
      cases op with
      | send => cases hcall
      | recv => cases hcall
      | _ => exact hf.2.2
    have hlt := hcoll.range.2
    rw [ht] at hlt
    exact absurd hlt (by decide)
  · simp [hm, token] at ht
  · assumption

theorem goLost_step (htags : ∀ r < w.n, ∀ op ∈ w.prog r, op.tagOk) (hrun : Run (step w) (fun _ _ _ => True) start s)
    {b : Nat} (h0 : 0 < b) (hb : b < w.n) (hl : goLost s b = true) (hst : step w s l = some s') :
    (s'.rank 0).stage = .failed ∨ goLost s' b = true := by
  obtain ⟨hpast, hdue, harr, hnet⟩ := goLost_iff.1 hl
  have hafter := after_of_past hrun hpast
  rw [goLost_iff]
  cases l with
  | deliver i =>
    right
    obtain ⟨p, hp, hn, hrank⟩ := deliver_spec hst
    have hstage := deliver_stage hst
    refine ⟨by rw [hstage]; exact hpast, by rw [hstage]; exact hdue, ?_, fun g hg => ?_⟩
    · rcases hrank b with ⟨hx, -⟩ | ⟨hx, hx'⟩
      · rwa [hx]
      · rw [hx']
        simp only [← Bool.not_eq_true, goArrived_iff, not_or, not_exists, not_and] at harr ⊢
        refine ⟨harr.1, harr.2.1, fun g hg => ?_⟩
        rcases List.mem_append.1 hg with hg | hg
        · exact harr.2.2 g hg
        · rw [List.mem_singleton.1 hg]
          exact fun hgo => hnet p (List.mem_of_getElem? hp) ⟨hx.symm, hgo⟩
    · rw [hn] at hg
      exact hnet g (List.mem_of_mem_eraseIdx hg)
  | rank x a =>
    obtain ⟨hx, k, out, hk, rfl⟩ := step_rank hst
    -- no `GO` for `b` is sent any more
    have hout : ∀ p ∈ s.net ++ out, ¬ GoTo b p := by
      intro p hp hgo
      rcases List.mem_append.1 hp with hp | hp
      · exact hnet p hp hgo
      · have hturn := out_go hk p hp hgo.2
        rw [hgo.1] at hturn
        by_cases hx0 : x = 0
        · subst hx0
          simp [hturn, Stage.goDue] at hdue
        · have hspoke := hafter.spoke x (Nat.pos_of_ne_zero hx0) hx
          simp [hturn, Stage.spoke] at hspoke
    by_cases hx0 : x = 0
    · subst hx0
      have hne : b ≠ 0 := by omega
      simp only [Function.update_self, Function.update_of_ne hne]
      rcases step_past (.inl hpast) hk with hp | hf
      · exact .inr ⟨hp, step_goDue hpast hdue hk, harr, hout⟩
      · exact .inl hf
    · right
      simp only [Function.update_of_ne (Ne.symm hx0)]
      refine ⟨hpast, hdue, ?_, hout⟩
      by_cases hxb : b = x
      · subst hxb
        rw [Function.update_self]
        refine step_noGo h0 hb (hafter.spoke b h0 hb) (fun m hm => isGo_of_tag htags (d := b) ?_) harr hk
        exact (run_labelled hrun).held b m (by simp [Sys.held, Rank.mail, hm])
      · rwa [Function.update_of_ne hxb]

theorem stalled_step (htags : ∀ r < w.n, ∀ op ∈ w.prog r, op.tagOk) (hrun : Run (step w) (fun _ _ _ => True) start s)
    (h : Stalled w s) (hst : step w s l = some s') : Stalled w s' := by
  obtain ⟨r, hr, hf | ⟨h0, hl⟩⟩ := h
  · refine ⟨r, hr, .inl ?_⟩
    exact step_each (P := fun k => k.stage = .failed) (fun _ _ hk => hk) hst r (fun _ _ _ _ hk => step_failed hf hk) hf
  · rcases goLost_step htags hrun h0 hr hl hst with hf | hl'
    · exact ⟨0, w.pos, .inl hf⟩
    · exact ⟨r, hr, .inr ⟨h0, hl'⟩⟩

end

end LibNeoos.Mpi
