import LibNeoos.Mpi.Residue
/-!
# Repeating a `HELLO` only when it was dropped

A `HELLO` gets lost only while rank 0 has not bound its port, so a rank need not
repeat one that is on its way or that rank 0 has read. If no rank does, rank 0
reads one `HELLO` of each rank, none is left when it has heard from all
(`tidy_of_once`), and the handshake leaves nothing behind
(`once_leaves_no_residue`).
-/

namespace LibNeoos.Mpi

open LibNeoos.Lib

/-- Rank 0 has ticked off rank `r`. -/
def Stage.heard (r : Nat) : Stage → Bool
  | .collect seen _ => r ∈ seen
  | .go _ => true
  | .restore => true
  | .ready => true
  | _ => false

/-- Rank 0 has left the loop over the `HELLO`s. -/
def Stage.late : Stage → Bool
  | .go _ => true
  | .restore => true
  | .ready => true
  | .failed => true
  | _ => false

/-- A rank sends a `HELLO` only if rank 0 has not heard from it and no other
`HELLO` of it is in flight or in rank 0's socket. -/
def once (s : Sys) : Label → Bool
  | .rank r .init => (s.rank r).stage = .hello 0 → (s.rank 0).stage.heard r = false ∧
      ∀ m ∈ msgsTo 0 s.net ++ (s.rank 0).sock, m.origin ≠ .hello r
  | _ => true

/-- The number of `HELLO`s of rank `y` among some messages. -/
def hellos (y : Nat) (l : List Msg) : Nat := l.countP (·.origin = .hello y)

/-- One `HELLO` at most is under way from each rank that rank 0 has yet to hear
from, and none from the others. -/
def Counted (s : Sys) : Prop :=
  ∀ y, hellos y (s.held 0) ≤ if y = 0 ∨ (s.rank 0).stage.heard y = true then 0 else 1

section
variable {w : World} {s s' : Sys} {l : Label}

theorem hellos_step (h : step w s l = some s') (y : Nat) :
    hellos y (s'.held 0) + hellos y (s.lost 0 l) = hellos y (s.held 0) + hellos y (msgsTo 0 (news w s l)) := by
  have := (step_held h 0).countP_eq (·.origin = .hello y)
  simp only [List.countP_append] at this
  exact this.symm

theorem late_step {k k' : Rank} {a : Do} {out : List Packet} (hk : k.stage.late = true)
    (h : k.step w 0 a = some (k', out)) : k'.stage.late = true := by
  by_cases hr : k.stage = .ready
  · rw [(step_ready hr h).1]
    rfl
  · rcases step_early hr h with ⟨-, hu, -⟩ | ⟨-, st, q, rfl, hj⟩ | ⟨e, -, -, st, rfl, hf⟩
    · rw [hu] at hk
      cases hk
    · generalize k.stage = st0, k.sock = q0 at hj hk
      cases hj with
      | go | went | restored => rfl
      | _ => cases hk
    · generalize k.stage = st0 at hf hk
      cases hf with
      | fatal | go => rfl
      | _ => cases hk

/-- What a step of rank 0 in its loop makes of the ranks it has heard from. -/
theorem heard_step (hn : 2 ≤ w.n) {k k' : Rank} {a : Do} {out : List Packet} (hk : k.stage.early = true)
    (hother : k.stage.ofOther = false) (h : k.step w 0 a = some (k', out)) :
    k'.stage.late = true ∨ (out = [] ∧ ∀ y, k'.stage.heard y = true → y = 0 ∨ k.stage.heard y = true ∨
      ∃ m q, k.sock = m :: q ∧ k.lost a = [m] ∧ y = m.frame.hdr.src.toNat) := by
  have hr : k.stage ≠ .ready := fun e => by
    rw [e] at hk
    cases hk
  rcases step_early hr h with ⟨-, hu, rfl, rfl⟩ | ⟨rfl, st, q, rfl, hj⟩ | ⟨e, rfl, rfl, st, rfl, hf⟩
  · exact .inr ⟨rfl, by simp [Stage.heard]⟩
  · unfold Rank.lost
    generalize k.stage = st0, k.sock = q0 at hj hk hother ⊢
    cases hj with
    | alone h1 => omega
    | root => exact .inr ⟨rfl, fun y hy => .inl (by simpa [Stage.heard] using hy)⟩
    | other h1 h2 => exact absurd rfl h2
    | all => exact .inl rfl
    | yield | skips => exact .inr ⟨rfl, fun y hy => .inr (.inl hy)⟩
    | @hears seen i m q h0 =>
      refine .inr ⟨rfl, fun y hy => .inr ?_⟩
      simp only [Stage.heard, List.mem_cons, decide_eq_true_eq] at hy ⊢
      rcases hy with rfl | hy
      · exact .inr ⟨m, q, rfl, by simp [h0], rfl⟩
      · exact .inl hy
    | go | went | restored => cases hk
    | _ => cases hother
  · generalize k.stage = st0 at hf hk hother ⊢
    cases hf with
    | fatal => exact .inl rfl
    | collect => exact .inr ⟨rfl, fun y hy => .inr (.inl hy)⟩
    | go => cases hk
    | _ => cases hother

theorem Counted.root_step (hn : 2 ≤ w.n) (hR : Roles s) (hw : Waiting w s) (hi : Counted s) {a : Do}
    (h : step w s (.rank 0 a) = some s') : (s'.rank 0).stage.late = true ∨ Counted s' := by
  rcases heard_step hn (hw.stage 0) hR.root (step_one h).1 with hlate | ⟨hout, hheard⟩
  · exact .inl hlate
  right
  intro y
  have hmove := hellos_step h y
  rw [hout, show hellos y (msgsTo 0 []) = 0 from rfl] at hmove
  have hbound := hi y
  by_cases hc : y = 0 ∨ (s'.rank 0).stage.heard y = true
  · have hold : (y = 0 ∨ (s.rank 0).stage.heard y = true) ∨ 1 ≤ hellos y (s.lost 0 (.rank 0 a)) := by
      rcases hc with hc | hc
      · exact .inl (.inl hc)
      · rcases hheard y hc with hc | hc | ⟨m, q, hq, hlost, hsrc⟩
        · exact .inl (.inl hc)
        · exact .inl (.inr hc)
        · -- rank 0 has just read a `HELLO` of that rank
          obtain ⟨x, -, hx, -⟩ := hw.sock 0 m (by simp [hq])
          obtain rfl : y = x := by simpa [hx, token] using hsrc
          refine .inr (Nat.le_of_eq ?_)
          simp [Sys.lost, hlost, hellos, hx]
    rw [if_pos hc]
    rcases hold with hold | hold
    · rw [if_pos hold] at hbound
      omega
    · split at hbound <;> omega
  · rw [if_neg hc]
    split at hbound <;> omega

theorem Counted.other_step (hn : 2 ≤ w.n) (hR : Roles s) (hu : Unstarted s) (hw : Waiting w s) (hi : Counted s)
    {r : Nat} {a : Do} (hr : r ≠ 0) (h : step w s (.rank r a) = some s') (ho : once s (.rank r a) = true) :
    Counted s' := by
  have hearly : ∀ x, (s.rank x).stage ≠ .ready := fun x e => by
    have := hw.stage x
    rw [e] at this
    cases this
  obtain ⟨hk, hsame⟩ := step_one h
  obtain ⟨-, hout, -⟩ := Mpi.other_step hn hr (hR.other r hr) (hearly r) hk
  intro y
  rw [hsame 0 (Ne.symm hr)]
  have hmove := hellos_step h y
  have hbound := hi y
  by_cases hnew : hellos y (msgsTo 0 (news w s (.rank r a))) = 0
  · rw [hnew] at hmove
    exact Nat.le_trans (by omega) hbound
  · -- the rank says `HELLO`, and none of its own was under way
    obtain ⟨m, hm, hmy⟩ := List.countP_pos_iff.1 (Nat.pos_of_ne_zero hnew)
    obtain ⟨hp, rfl, hst⟩ := hout _ (mem_msgsTo.1 hm)
    simp only [Packet.mk.injEq, true_and] at hp
    obtain rfl : r = y := by simpa [hp] using hmy
    obtain ⟨hheard, hnone⟩ : (s.rank 0).stage.heard r = false ∧
        ∀ m ∈ msgsTo 0 s.net ++ (s.rank 0).sock, m.origin ≠ .hello r := by
      simpa only [once, hst, true_implies, decide_eq_true_eq] using ho
    obtain ⟨hq, hg⟩ := hu 0 (hearly 0)
    have hzero : hellos r (s.held 0) = 0 := by
      refine List.countP_eq_zero.2 fun m hm => ?_
      simpa using hnone m (by simpa [Sys.held, Rank.mail, Rank.taken, hq, hg] using hm)
    have hone : hellos r (msgsTo 0 (news w s (.rank r .init))) ≤ 1 := by
      simp only [Rank.step, rendezvous, hst, if_true, Option.some.injEq, Prod.mk.injEq] at hk
      simp [← hk.2, msgsTo, hellos]
    rw [if_neg (by simp [hr, hheard])]
    omega

/-- Rank 0 has left its loop, or is waiting and has not missed a `HELLO`. -/
theorem run_counted (hn : 2 ≤ w.n) (h : Run (step w) (fun s l _ => once s l = true) start s) :
    (s.rank 0).stage.late = true ∨ (Waiting w s ∧ Counted s) := by
  refine h.inv_reach (fun s => (s.rank 0).stage.late = true ∨ (Waiting w s ∧ Counted s)) (.inr ⟨start_waiting w, ?_⟩) ?_
  · intro y
    simp [start, Sys.held, msgsTo, Rank.mail, Rank.taken, hellos]
  intro s l s' hrun hi ho hst
  cases l with
  | deliver i =>
    rw [deliver_stage hst]
    rcases hi with hlate | ⟨hw, hc⟩
    · exact .inl hlate
    right
    rcases waiting_step hw hst with ⟨-, st, hst', hs'⟩ | hw'
    · -- rank 0 does not move
      exfalso
      have h0 := hw.stage 0
      rw [← deliver_stage hst 0, hs'] at h0
      rcases hst' with rfl | ⟨-, rfl⟩ <;> simp [Stage.early] at h0
    · refine ⟨hw', fun y => ?_⟩
      have hmove := hellos_step hst y
      rw [show hellos y (msgsTo 0 (news w s (.deliver i))) = 0 from rfl] at hmove
      rw [deliver_stage hst]
      exact Nat.le_trans (by omega) (hc y)
  | rank r a =>
    obtain ⟨hk, hsame⟩ := step_one hst
    rcases hi with hlate | ⟨hw, hc⟩
    · left
      by_cases h0 : r = 0
      · subst h0
        exact late_step hlate hk
      · rw [hsame 0 (Ne.symm h0)]
        exact hlate
    · rcases waiting_step hw hst with ⟨-, st, hst', rfl⟩ | hw'
      · left
        rcases hst' with rfl | ⟨-, rfl⟩ <;> simp [Stage.late]
      · by_cases h0 : r = 0
        · subst h0
          exact (hc.root_step hn (run_roles hn hrun) hw hst).imp id fun hc' => ⟨hw', hc'⟩
        · exact .inr ⟨hw', hc.other_step hn (run_roles hn hrun) (run_unstarted hrun) hw h0 hst ho⟩

/-- If a rank repeats its `HELLO` only when rank 0 has not heard from it and none
of its own is under way, no `HELLO` is left when rank 0 has heard from all. -/
theorem tidy_of_once (hn : 2 ≤ w.n) (h : Run (step w) (fun s l _ => once s l = true) start s) (ho : once s l = true) :
    tidy s l = true := by
  unfold tidy
  split
  · rename_i r
    split
    · rename_i hst
      simp only [once, hst, true_implies, decide_eq_true_eq] at ho
      have hheard := ho.1
      cases h0 : (s.rank 0).stage <;> simp [h0, Stage.heard, Stage.past] at hheard ⊢
    · rename_i seen hst
      have hr : r = 0 := by
        by_contra hr
        have := (run_roles hn h).other r hr
        rw [hst] at this
        cases this
      subst hr
      rcases run_counted hn h with hlate | ⟨hw, hc⟩
      · rw [hst] at hlate
        cases hlate
      · refine List.all_eq_true.2 fun m hm => ?_
        have hheld : m ∈ s.held 0 := by
          simp only [Sys.held, Rank.mail, List.mem_append] at hm ⊢
          tauto
        -- a `HELLO` is from a rank, and rank 0 has heard from all
        obtain ⟨x, hx, rfl, -⟩ : Greeting w s m := by
          rcases List.mem_append.1 hm with hm | hm
          · exact hw.net _ (mem_msgsTo.1 hm)
          · exact hw.sock 0 m hm
        have hzero := hc x
        rw [if_pos (.inr (by simpa [hst, Stage.heard] using seen_all hw hst hx))] at hzero
        have hpos : 0 < hellos x (s.held 0) := List.countP_pos_iff.2 ⟨_, hheld, by simp⟩
        omega
    · rfl
  · rfl

theorem run_tidy_of_once (hn : 2 ≤ w.n) (h : Run (step w) (fun s l _ => once s l = true) start s) :
    Run (step w) (fun s l _ => tidy s l = true) start s := by
  induction h with
  | nil => exact .nil
  | snoc h ho hst ih => exact .snoc ih (tidy_of_once hn h ho) hst

/-- If a rank repeats its `HELLO` only when rank 0 has dropped the one before,
neither a `HELLO` nor a `GO` is under way once all ranks have returned
`MPI_SUCCESS` from `MPI_Init`, and none is ever put on an unexpected queue. -/
theorem once_leaves_no_residue (hn : 2 ≤ w.n) (h : Run (step w) (fun s l _ => once s l = true) start s)
    (hready : ∀ r < w.n, (s.rank r).stage = .ready) (hsent : s.sent = []) {s' : Sys}
    (hlater : Run (step w) (fun _ _ _ => True) s s') (x : Nat) : s'.residue x = [] :=
  (run_settling hn (run_tidy_of_once hn h) hsent).run_residue hn hready hlater x

end

end LibNeoos.Mpi
