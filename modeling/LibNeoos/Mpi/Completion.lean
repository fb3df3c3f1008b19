import LibNeoos.Mpi.Handshake
import Mathlib.Algebra.BigOperators.Group.Finset.Basic
import Mathlib.Algebra.Order.BigOperators.Group.Finset
/-!
# When start-up can complete

A `HELLO` may be dropped, because rank 0 has not bound its port; it is sent again. So
start-up can complete from every state that any run reaches, whatever was dropped,
overtaken or interrupted on the way, unless some rank's `MPI_Init` has failed or the
send of a `GO` has; in these two cases it cannot any more, as long as no rank calls
`MPI_Init` again or `MPI_Finalize` (`startup_completes_iff`).

The completing run is built in stages, each with a measure: all ranks enter their
loops, rank 0 hears from one rank after the other, it sends the `GO`s, and every other
rank reads its own.
-/

namespace LibNeoos.Mpi

open LibNeoos.Lib

/-! ## All ranks bind and enter their loops -/

/-- Some run of plain steps leads there. -/
abbrev Leads (w : World) (P : Sys → Prop) (s : Sys) : Prop := Can (step w) (fun _ l _ => l.plain = true) P s

theorem leads_of_measure {w : World} {I G : Sys → Prop} {s : Sys} (μ : Sys → Nat)
    (h : ∀ s, I s → ¬ G s → Leads w (fun s' => I s' ∧ (G s' ∨ μ s' < μ s)) s) (hs : I s) :
    Leads w (fun s' => I s' ∧ G s') s :=
  Can.of_measure μ h hs

/-- How many steps a rank is away from its loop. -/
def Stage.boot : Stage → Nat
  | .unbound => 2
  | .bound => 1
  | _ => 0

def Booted (w : World) (s : Sys) : Prop := ∀ r < w.n, (s.rank r).stage.boot = 0

section
variable {w : World} {s s' : Sys} {l : Label} {r b i : Nat} {seen : List Nat}

/-- A step of one rank that lowers that rank's share lowers the sum. -/
theorem sum_ranks_lt {f : Rank → Nat} {k k' : Nat → Rank} (hr : r < w.n) (hlt : f (k' r) < f (k r))
    (hsame : ∀ x, x ≠ r → k' x = k x) : ∑ x ∈ Finset.range w.n, f (k' x) < ∑ x ∈ Finset.range w.n, f (k x) := by
  refine Finset.sum_lt_sum (fun x _ => ?_) ⟨r, Finset.mem_range.2 hr, hlt⟩
  by_cases hx : x = r
  · rw [hx]
    exact Nat.le_of_lt hlt
  · rw [hsame x hx]

theorem step_boot {k k' : Rank} {a : Do} {out : List Packet} (hk : k.stage.boot = 0)
    (h : k.step w r a = some (k', out)) :
    k'.stage.boot = 0 := by
  by_cases hready : k.stage = .ready
  · rw [(step_ready hready h).1]
    rfl
  · rcases step_early hready h with ⟨-, hu, -⟩ | ⟨-, st, q, rfl, hj⟩ | ⟨e, -, -, st, rfl, hf⟩
    · simp [hu, Stage.boot] at hk
    · generalize k.stage = st0, k.sock = q0 at hj hk
      cases hj <;> rfl
    · generalize k.stage = st0 at hf
      cases hf <;> rfl

theorem Booted.step (hb : Booted w s) (h : step w s l = some s') : Booted w s' := fun x hx =>
  step_each (P := fun k => k.stage.boot = 0) (fun _ _ hk => hk) h x (fun _ _ _ _ hk => step_boot (hb x hx) hk) (hb x hx)

theorem Alive.boots (h : Alive w s) : Leads w (fun s' => Alive w s' ∧ Booted w s') s := by
  refine leads_of_measure (fun s => ∑ r ∈ Finset.range w.n, (s.rank r).stage.boot) (fun s hs hno => ?_) h
  simp only [Booted, not_forall] at hno
  obtain ⟨r, hr, hboot⟩ := hno
  cases hstage : (s.rank r).stage with
  | unbound =>
    have hst : Mpi.step w s (.rank r .bind) = some
        { s with rank := Function.update s.rank r { s.rank r with stage := .bound, didBind := true } } := by
      simp [Mpi.step, hr, Rank.step, hstage]
    refine .one rfl hst ⟨hs.step rfl hst, .inr (sum_ranks_lt (f := fun k => k.stage.boot) hr ?_
      fun x hx => by simp [hx])⟩
    simp [hstage, Stage.boot]
  | bound =>
    obtain ⟨st, q, out, hj, hst⟩ := init_step (s := s) hr (by simp [hstage]) (by simp [hstage]) (by simp [hstage])
    refine .one rfl hst ⟨hs.step rfl hst, .inr (sum_ranks_lt (f := fun k => k.stage.boot) hr ?_
      fun x hx => Sys.join_of_ne hx)⟩
    rw [hstage] at hj
    rw [Sys.join_self, hstage]
    cases hj <;> simp [Stage.boot]
  | _ => simp [hstage, Stage.boot] at hboot

/-! ## Rank 0 hears from all -/

/-- All are in their loops, and rank 0 has ticked off the ranks in `seen`. -/
structure Collecting (w : World) (s : Sys) (seen : List Nat) (i : Nat) : Prop where
  alive : Alive w s
  booted : Booted w s
  waiting : Waiting w s
  stage : (s.rank 0).stage = .collect seen i

theorem Collecting.keep {seen' : List Nat} {j : Nat} (h : Collecting w s seen i) (hl : l.plain = true)
    (hst : step w s l = some s') (hs : (s'.rank 0).stage = .collect seen' j) : Collecting w s' seen' j := by
  refine ⟨h.alive.step hl hst, h.booted.step hst, ?_, hs⟩
  rcases waiting_step h.waiting hst with ⟨-, st, hdec, rfl⟩ | hw
  · rcases hdec with rfl | ⟨-, rfl⟩ <;> simp at hs
  · exact hw

/-- The other ranks are in the loop that says `HELLO` and waits for the `GO`. -/
theorem Collecting.other (h : Collecting w s seen i) (h0 : b ≠ 0) (hb : b < w.n) :
    ∃ c, (s.rank b).stage = .hello c ∨ (s.rank b).stage = .poll c := by
  have hearly := h.waiting.stage b
  have hboot := h.booted b hb
  have hsane := h.alive.sane hb
  have hseen := h.waiting.seen b
  cases hst : (s.rank b).stage with
  | hello c => exact ⟨c, .inl rfl⟩
  | poll c => exact ⟨c, .inr rfl⟩
  | collect seen' j => exact absurd (hseen seen' j hst).1 h0
  | _ => simp_all [Stage.early, Stage.boot]

/-- The number of steps to the next `HELLO`. -/
def Stage.toHello : Stage → Nat
  | .hello c => if c = 0 then 0 else if c < 64 then 2 * (64 - c) else 200
  | .poll c => if c = 0 then 1 else if c < 64 then 2 * (64 - c) + 1 else 201
  | _ => 0

/-- A rank that keeps on polling says `HELLO` again. -/
theorem Collecting.greet (h : Collecting w s seen i) (h0 : b ≠ 0) (hb : b < w.n) :
    Leads w (fun s' => Collecting w s' seen i ∧ ⟨0, token b TAG_HELLO, .hello b⟩ ∈ s'.net) s := by
  refine leads_of_measure (fun s => (s.rank b).stage.toHello) (fun s hs _ => ?_) h
  obtain ⟨c, hc⟩ := hs.other h0 hb
  have hne : (s.rank b).stage ≠ .unbound ∧ (s.rank b).stage ≠ .ready ∧ (s.rank b).stage ≠ .failed := by
    rcases hc with hc | hc <;> simp [hc]
  obtain ⟨st, q, out, hj, hst⟩ := init_step hb hne.1 hne.2.1 hne.2.2
  have hkeep : Collecting w (s.join b st q out) seen i :=
    hs.keep rfl hst (by rw [Sys.join_of_ne (Ne.symm h0)]; exact hs.stage)
  refine .one rfl hst ⟨hkeep, ?_⟩
  have hsock := hs.waiting.sock b
  rw [Sys.join_self, Sys.join_net]
  rcases hc with hc | hc <;> rw [hc] at hj ⊢
  · cases hj with
    | hello =>
      by_cases hc0 : c = 0
      · subst hc0
        exact .inl (by simp)
      · right
        simp only [Stage.toHello, hc0, if_false]
        split_ifs <;> omega
  · generalize (s.rank b).sock = q0 at hj hsock
    cases hj with
    | empty | ignores =>
      right
      simp only [Stage.toHello]
      split_ifs <;> omega
    | @acked _ m q hm =>
      -- only `HELLO`s are about
      obtain ⟨x, -, rfl, -⟩ := hsock m (by simp)
      simp [token] at hm

/-- The first packet in flight is delivered. -/
theorem deliver_first {p : Packet} {rest : List Packet} (hn : s.net = p :: rest) :
    ∃ s', step w s (.deliver 0) = some s' ∧ s'.net = rest ∧ (∀ x, (s'.rank x).stage = (s.rank x).stage) ∧
      (∀ x, (s.rank x).sock ⊆ (s'.rank x).sock) ∧ ((s.rank p.dst).open? = true → p.msg ∈ (s'.rank p.dst).sock) := by
  have hsome : (step w s (.deliver 0)).isSome = true := by
    simp only [step, Sys.deliver, hn, List.getElem?_cons_zero]
    split_ifs <;> rfl
  obtain ⟨s', hst⟩ := Option.isSome_iff_exists.1 hsome
  obtain ⟨p', hp, hnet, hrank⟩ := deliver_spec hst
  obtain rfl : p = p' := by simpa [hn] using hp
  refine ⟨s', hst, by simp [hnet, hn], deliver_stage hst, fun x => ?_, fun hopen => ?_⟩
  · rcases hrank x with ⟨hx, -⟩ | ⟨-, hx⟩ <;> simp [hx]
  · rcases hrank p.dst with ⟨-, hclosed⟩ | ⟨-, hx⟩
    · rw [hclosed rfl] at hopen
      cases hopen
    · simp [hx]

theorem Collecting.arrive {m : Msg} (h : Collecting w s seen i) (hm : ⟨0, m⟩ ∈ s.net) :
    Leads w (fun s' => Collecting w s' seen i ∧ m ∈ (s'.rank 0).sock) s := by
  have hgoal := leads_of_measure (w := w) (I := fun s => Collecting w s seen i ∧ (⟨0, m⟩ ∈ s.net ∨ m ∈ (s.rank 0).sock))
    (G := fun s => m ∈ (s.rank 0).sock) (fun s => s.net.length) ?_ ⟨h, .inl hm⟩
  · exact hgoal.mono fun s hs => ⟨hs.1.1, hs.2⟩
  · rintro s ⟨hs, hin⟩ hno
    replace hin := hin.resolve_right hno
    obtain ⟨p, rest, hn⟩ := List.exists_cons_of_ne_nil (List.ne_nil_of_mem hin)
    obtain ⟨s', hst, hnet, hstage, hsock, hgot⟩ := deliver_first (w := w) hn
    have hkeep : Collecting w s' seen i := hs.keep rfl hst (by rw [hstage]; exact hs.stage)
    have hopen : (s.rank 0).open? = true := by simp [Rank.open?, hs.stage]
    refine .one rfl hst ⟨⟨hkeep, ?_⟩, .inr ?_⟩
    · rw [hn] at hin
      rcases List.mem_cons.1 hin with rfl | hin
      · exact .inr (hgot hopen)
      · exact .inl (hnet ▸ hin)
    · simp [hnet, hn]

/-- Rank 0 reads on until it ticks off one more rank. -/
theorem Collecting.hear (h : Collecting w s seen (i + 1)) (hb : b ∉ seen)
    (hm : ⟨token b TAG_HELLO, .hello b⟩ ∈ (s.rank 0).sock) :
    Leads w (fun s' => ∃ seen', Collecting w s' seen' i) s := by
  have hgoal := leads_of_measure (w := w)
    (I := fun s => (Collecting w s seen (i + 1) ∧ ⟨token b TAG_HELLO, .hello b⟩ ∈ (s.rank 0).sock) ∨
      ∃ seen', Collecting w s seen' i)
    (G := fun s => ∃ seen', Collecting w s seen' i) (fun s => (s.rank 0).sock.length) ?_ (.inl ⟨h, hm⟩)
  · exact hgoal.mono fun s hs => hs.2
  · intro s hI hno
    obtain ⟨hs, hin⟩ := hI.resolve_right hno
    obtain ⟨m, q, hq⟩ := List.exists_cons_of_ne_nil (List.ne_nil_of_mem hin)
    obtain ⟨x, hx, rfl, -⟩ := hs.waiting.sock 0 m (by simp [hq])
    by_cases hsx : x ∈ seen
    · -- a rank that is ticked off already
      have hst : step w s (.rank 0 .init) = some (s.join 0 (.collect seen (i + 1)) q []) := by
        simp [step, w.pos, Rank.step, rendezvous, hs.stage, hq, token, hsx, Sys.join]
      refine .one rfl hst ⟨.inl ⟨hs.keep rfl hst (by simp), ?_⟩, .inr (by simp [hq])⟩
      have hbx : b ≠ x := fun e => hb (e ▸ hsx)
      rw [hq] at hin
      simpa [hbx] using hin
    · have hst : step w s (.rank 0 .init) = some (s.join 0 (.collect (x :: seen) i) q []) := by
        simp [step, w.pos, Rank.step, rendezvous, hs.stage, hq, token, hsx, hx, Sys.join]
      have hkeep : Collecting w _ (x :: seen) i := hs.keep rfl hst (by simp)
      exact .one rfl hst ⟨.inr ⟨_, hkeep⟩, .inl ⟨_, hkeep⟩⟩

theorem Collecting.missing (h : Collecting w s seen (i + 1)) : ∃ b, b ≠ 0 ∧ b < w.n ∧ b ∉ seen := by
  obtain ⟨-, hnd, hlen, -⟩ := h.waiting.seen 0 seen (i + 1) h.stage
  by_contra hno
  have h0 : 0 ∈ seen := by
    have hroot := run_asRoot h.alive.reach
    simpa only [Rank.asRoot, h.stage] using hroot
  have hsub : List.range w.n ⊆ seen := by
    intro b hb
    by_contra hbs
    have hne : b ≠ 0 := fun e => hbs (e ▸ h0)
    exact hno ⟨b, hne, List.mem_range.1 hb, hbs⟩
  have hle := (List.nodup_range.subperm hsub).length_le
  rw [List.length_range] at hle
  omega

theorem Collecting.decides (h : Collecting w s seen i) :
    Leads w (fun s' => Alive w s' ∧ (s'.rank 0).stage.past = true) s := by
  induction i generalizing s seen with
  | zero =>
    have hst : step w s (.rank 0 .init) = some (s.join 0 (.go 1) (s.rank 0).sock []) := by
      simp [step, w.pos, Rank.step, rendezvous, h.stage, Sys.join]
    exact .one rfl hst ⟨h.alive.step rfl hst, by simp [Stage.past]⟩
  | succ i ih =>
    obtain ⟨b, h0, hb, hbs⟩ := h.missing
    refine (h.greet h0 hb).andThen fun s hs => (hs.1.arrive hs.2).andThen fun s hs => (hs.1.hear hbs hs.2).andThen ?_
    rintro s ⟨seen', hs⟩
    exact ih hs

/-! ## All ranks get their `GO` -/

/-- How many steps rank 0 is away from the end of `MPI_Init` when it sends its `GO`s. -/
def Stage.toReady (n : Nat) : Stage → Nat
  | .go i => n - i + 2
  | .restore => 1
  | _ => 0

theorem Alive.root_ready (h : Alive w s) (hp : (s.rank 0).stage.past = true) :
    Leads w (fun s' => Alive w s' ∧ (s'.rank 0).stage = .ready) s := by
  have hgoal := leads_of_measure (w := w) (I := fun s => Alive w s ∧ (s.rank 0).stage.past = true)
    (G := fun s => (s.rank 0).stage = .ready) (fun s => (s.rank 0).stage.toReady w.n) ?_ ⟨h, hp⟩
  · exact hgoal.mono fun s hs => ⟨hs.1.1, hs.2⟩
  · rintro s ⟨hs, hpast⟩ hnr
    have hu : (s.rank 0).stage ≠ .unbound := fun e => by simp [e, Stage.past] at hpast
    obtain ⟨st, q, out, hj, hst⟩ := init_step w.pos hu hnr (hs.sane w.pos)
    refine .one rfl hst ⟨⟨hs.step rfl hst, ?_⟩, ?_⟩ <;> rw [Sys.join_self] <;>
      generalize (s.rank 0).stage = st0, (s.rank 0).sock = q0 at hj hpast
    · cases hj with
      | go | went | restored => rfl
      | _ => cases hpast
    · cases hj with
      | go hi =>
        right
        simp only [Stage.toReady]
        omega
      | went hi =>
        right
        simp only [Stage.toReady]
        omega
      | restored => exact .inl rfl
      | _ => cases hpast

/-- All that is in flight is delivered. -/
theorem Alive.flush (h : Alive w s) (hr : (s.rank 0).stage = .ready) :
    Leads w (fun s' => Alive w s' ∧ (s'.rank 0).stage = .ready ∧ s'.net = []) s := by
  have hgoal := leads_of_measure (w := w) (I := fun s => Alive w s ∧ (s.rank 0).stage = .ready)
    (G := fun s => s.net = [])
    (fun s => s.net.length) ?_ ⟨h, hr⟩
  · exact hgoal.mono fun s hs => ⟨hs.1.1, hs.1.2, hs.2⟩
  · rintro s ⟨hs, hready⟩ hno
    obtain ⟨p, rest, hn⟩ := List.exists_cons_of_ne_nil hno
    obtain ⟨s', hst, hnet, hstage, -⟩ := deliver_first (w := w) hn
    exact .one rfl hst ⟨⟨hs.step rfl hst, by rw [hstage]; exact hready⟩, .inr (by simp [hnet, hn])⟩

/-- What is left to do for a rank whose `GO` has arrived. -/
def Rank.toReady (k : Rank) : Nat :=
  match k.stage with
  | .bound => 2 * k.sock.length + 4
  | .hello _ => 2 * k.sock.length + 3
  | .poll _ => 2 * k.sock.length + 2
  | .restore => 1
  | _ => 0

/-- Rank 0 is through, and every other rank's `GO` is at hand. -/
structure Called (w : World) (s : Sys) : Prop where
  alive : Alive w s
  root : (s.rank 0).stage = .ready
  go : ∀ b, 0 < b → b < w.n → (s.rank b).goArrived = true

theorem Called.join (h : Called w s) (h0 : 0 < b) (hb : b < w.n) (hnr : (s.rank b).stage ≠ .ready) :
    Leads w (fun s' => Called w s' ∧ ∑ x ∈ Finset.range w.n, (s'.rank x).toReady <
      ∑ x ∈ Finset.range w.n, (s.rank x).toReady) s := by
  have hspoke := h.alive.spoke (by simp [h.root, Stage.past]) h0 hb
  have hu : (s.rank b).stage ≠ .unbound := fun e => by simp [e, Stage.spoke] at hspoke
  have hgo := h.go b h0 hb
  obtain ⟨st, q, out, hj, hst⟩ := init_step hb hu hnr (h.alive.sane hb)
  have harr := join_goArrived h0 hb hspoke (fun m hm => held_go (run_labelled h.alive.reach) hm) hj hgo
  have hne : (0 : Nat) ≠ b := by omega
  refine .one rfl hst ⟨⟨h.alive.step rfl hst, by rw [Sys.join_of_ne hne]; exact h.root, fun x hx0 hx => ?_⟩,
    sum_ranks_lt hb ?_ fun x hx => Sys.join_of_ne hx⟩
  · by_cases hxb : x = b
    · subst hxb
      rw [Sys.join_self]
      exact harr
    · rw [Sys.join_of_ne hxb]
      exact h.go x hx0 hx
  · rw [goArrived_iff] at hgo
    rw [Sys.join_self]
    unfold Rank.toReady
    dsimp only
    generalize (s.rank b).stage = st0, (s.rank b).sock = q0 at hj hspoke hgo
    cases hj with
    | alone h1 => omega
    | root h1 h2 => omega
    | other | hello => simp
    | empty => simp at hgo
    | acked | ignores =>
      simp only [List.length_cons]
      omega
    | restored => simp
    | _ => cases hspoke

theorem Called.started (h : Called w s) : Leads w (Started w) s := by
  have hgoal := leads_of_measure (w := w) (I := Called w) (G := Started w)
    (fun s => ∑ x ∈ Finset.range w.n, (s.rank x).toReady) ?_ h
  · exact hgoal.mono fun s hs => hs.2
  · intro s hs hno
    simp only [Started, not_forall] at hno
    obtain ⟨b, hb, hnr⟩ := hno
    have h0 : 0 < b := Nat.pos_of_ne_zero fun e => hnr (e ▸ hs.root)
    exact (hs.join h0 hb hnr).mono fun s' hs' => ⟨hs'.1, .inr hs'.2⟩

theorem Alive.called (h : Alive w s) (hr : (s.rank 0).stage = .ready) (hn : s.net = []) : Called w s := by
  refine ⟨h, hr, fun b h0 hb => ?_⟩
  rcases h.goSafe h0 hb (by simp [hr, Stage.past]) with hd | ha | ⟨p, hp, -⟩
  · simp [hr, Stage.goDue] at hd
  · exact ha
  · simp [hn] at hp

theorem Alive.completes (h : Alive w s) : Leads w (Started w) s := by
  have hpast : Leads w (fun s' => Alive w s' ∧ (s'.rank 0).stage.past = true) s := by
    refine h.boots.andThen fun s hs => ?_
    rcases run_after hs.1.reach with hw | ha
    · -- rank 0 is in its loop
      have hearly := hw.stage 0
      have hboot := hs.2 0 w.pos
      have hsane := hs.1.sane w.pos
      have hroot := run_asRoot hs.1.reach
      cases hst : (s.rank 0).stage with
      | collect seen i => exact Collecting.decides ⟨hs.1, hs.2, hw, hst⟩
      | _ => simp_all [Stage.early, Stage.boot, Rank.asRoot]
    · exact .now ⟨hs.1, ha.root.resolve_right (hs.1.sane w.pos)⟩
  refine hpast.andThen fun s hs => (hs.1.root_ready hs.2).andThen fun s hs => (hs.1.flush hs.2).andThen fun s hs => ?_
  exact (hs.1.called hs.2.1 hs.2.2).started

end

/-! ## When it can -/

section
variable {w : World} {s : Sys}

theorem Stalled.not_started (h : Stalled w s) : ¬ Started w s := by
  intro hall
  obtain ⟨r, hr, hf | ⟨-, hl⟩⟩ := h
  · rw [hall r hr] at hf
    cases hf
  · have harr := (goLost_iff.1 hl).2.2.1
    simp [Rank.goArrived, hall r hr] at harr

/-- In every state of every run, whatever was dropped, overtaken or interrupted on the
way: if no `MPI_Init` has failed and no `GO` is lost, steps of `MPI_Init` and deliveries
in order complete the start-up; otherwise no continuation does in which each rank calls
`MPI_Init` this once and none calls `MPI_Finalize`, which are the runs of `step`. The
programs must keep to the tags MPI gives them, since one that sends with the tag of a
`GO` can release a rank itself. -/
theorem startup_completes_iff (w : World) (htags : ∀ r < w.n, ∀ op ∈ w.prog r, op.tagOk) {s : Sys}
    (h : Run (step w) (fun _ _ _ => True) start s) :
    (¬ Stalled w s → Leads w (Started w) s) ∧
      (Stalled w s → ∀ s', Run (step w) (fun _ _ _ => True) s s' → ¬ Started w s') := by
  refine ⟨fun hs => (Alive.mk h hs).completes, fun hs s' hrun => ?_⟩
  have hboth : Run (step w) (fun _ _ _ => True) start s' ∧ Stalled w s' := by
    refine hrun.inv (fun s => Run (step w) (fun _ _ _ => True) start s ∧ Stalled w s) ⟨h, hs⟩ ?_
    intro s l s' hi _ hst
    exact ⟨.snoc hi.1 trivial hst, stalled_step htags hi.1 hi.2 hst⟩
  exact hboth.2.not_started

end

/-- Two ranks that call nothing after `MPI_Init`. -/
def duoIdle : World := duo [] []

/-- Rank 1's first `HELLO` is dropped: start-up can complete. Rank 0's send of the `GO`
fails: it cannot, although no `MPI_Init` has failed. -/
theorem startup_completes_iff_duo :
    (∃ s, Run (step duoIdle) (fun _ _ _ => True) start s ∧ ((s.rank 1).stage = .poll 1 ∧ s.net = [] ∧
        (s.rank 0).sock = [] ∧ ¬ Stalled duoIdle s) ∧ Leads duoIdle (Started duoIdle) s) ∧
      ∃ s, Run (step duoIdle) (fun _ _ _ => True) start s ∧ ((s.rank 0).stage = .ready ∧ (s.rank 1).stage = .poll 1 ∧
        Stalled duoIdle s) ∧ ∀ s', Run (step duoIdle) (fun _ _ _ => True) s s' → ¬ Started duoIdle s' := by
  have hdrop : ((exec (step duoIdle) (fun _ _ => true) start
      ([.rank 1 .bind, .rank 1 .init, .rank 1 .init, .deliver 0] : List Label)).map fun s =>
        decide ((s.rank 1).stage = .poll 1 ∧ s.net = [] ∧ (s.rank 0).sock = [] ∧ ¬ Stalled duoIdle s)) = some true := by
    decide +kernel
  have hlost : ((exec (step duoIdle) (fun _ _ => true) start
      ([.rank 0 .bind, .rank 1 .bind, .rank 1 .init, .rank 1 .init, .deliver 0, .rank 0 .init, .rank 0 .init,
        .rank 0 .init, .rank 0 (.err (-5)), .rank 0 .init, .rank 0 .init] : List Label)).map fun s =>
        decide ((s.rank 0).stage = .ready ∧ (s.rank 1).stage = .poll 1 ∧ Stalled duoIdle s)) = some true := by
    decide +kernel
  have htags : ∀ r < duoIdle.n, ∀ op ∈ duoIdle.prog r, op.tagOk := by decide
  obtain ⟨s, hs, hp⟩ := exec_reaches hdrop fun _ _ _ _ => trivial
  obtain ⟨t, ht, hq⟩ := exec_reaches hlost fun _ _ _ _ => trivial
  exact ⟨⟨s, hs, hp, (startup_completes_iff duoIdle htags hs).1 hp.2.2.2⟩,
    ⟨t, ht, hq, (startup_completes_iff duoIdle htags ht).2 hq.2.2⟩⟩

/-- Rank 0 sends a byte to rank 1 with the tag of a `GO`, which `MPI_Send` accepts. -/
def duoForger : World := duo [.send [0] 1 MPI_BYTE 1 TAG_GO MPI_COMM_WORLD] []

/-- The condition on the tags is needed: the `GO` of rank 1 is lost, and the message of
the application does in its place. -/
theorem forged_go_releases :
    ∃ s s', Run (step duoForger) (fun _ _ _ => True) start s ∧ Stalled duoForger s ∧
      Run (step duoForger) (fun _ _ _ => True) s s' ∧ Started duoForger s' := by
  have h : ((exec (step duoForger) (fun _ _ => true) start
      ([.rank 0 .bind, .rank 1 .bind, .rank 1 .init, .rank 1 .init, .deliver 0, .rank 0 .init, .rank 0 .init,
        .rank 0 .init, .rank 0 (.err (-5)), .rank 0 .init, .rank 0 .init] : List Label)).map fun s =>
        decide (Stalled duoForger s ∧ ((exec (step duoForger) (fun _ _ => true) s
          ([.rank 0 .call, .rank 0 .exec, .deliver 0, .rank 1 .init, .rank 1 .init] : List Label)).map fun s' =>
            decide (Started duoForger s')) = some true)) = some true := by
    decide +kernel
  obtain ⟨s, hs, hstalled, hgo⟩ := exec_reaches h fun _ _ _ _ => trivial
  obtain ⟨s', hs', hall⟩ := exec_reaches hgo fun _ _ _ _ => trivial
  exact ⟨s, s', hs, hstalled, hs', hall⟩

end LibNeoos.Mpi
