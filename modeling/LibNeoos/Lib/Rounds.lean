import LibNeoos.Lib.Phased
/-!
# Exchanges in rounds through a hub

From some phase on all messages go to one rank, the hub, or come from it. A
round is a phase in which every other rank reports to the hub and waits for its
answer (`Hub`), or two phases, one for the reports and one for the answers
(`Relay`). Nobody can begin a round before the hub has answered in the last one,
so a rank that is about to receive has messages of its own phase and no others
(`Rounds.current`). Every receive then takes one of its own phase, however many
phases share a tag (`exact_rounds`).
-/

namespace LibNeoos.Lib.Phased

variable {ι κ : Type}

/-- Every phase with messages after phase `N` is a round of one phase (`Z`), or
the first (`Y`) or second phase of a round of two. -/
structure Rounds (P : Plan ι κ) (h : ι) (N : Nat) (Z Y : Nat → Prop) : Prop where
  hub : Hub P h Z
  relay : ∀ q, Y q → Relay P h q
  into : ∀ q, Y q → ∀ s d, .send d ∈ P.acts q s → d = h
  self : ∀ q s, .send s ∉ P.acts q s
  cover : ∀ q s d, N < q → .send d ∈ P.acts q s → Z q ∨ Y q ∨ ∃ q', q = q' + 1 ∧ Y q'

section
variable {P : Plan ι κ} {st st' : St ι} {h r s : ι} {Z Y : Nat → Prop} {N q : Nat} {src : Option ι}

theorem Exact.weaken (hE : Exact (fun _ => True) st) : Exact Z st := fun r t ht _ => hE r t ht trivial

variable [DecidableEq ι]

/-- The hub sends to the others, and the others to the hub. -/
theorem Rounds.sender (hR : Rounds P h N Z Y) (hq : N < q) (hs : s ∈ P.ranks) (hsend : .send r ∈ P.acts q s)
    (hr : r ≠ h) : s = h := by
  rcases hR.cover q s r hq hsend with hz | hy | ⟨q', rfl, hy⟩
  · by_contra hne
    rw [hR.hub.spoke q hz s hs hne] at hsend
    simp at hsend
    exact hr hsend
  · exact absurd (hR.into q hy s r hsend) hr
  · exact (hR.relay q' hy).only s r hsend

/-- When the hub has sent to a rank, that rank has reported: it is in this phase,
or in the one before, which only gathers. -/
theorem Rounds.answered (hR : Rounds P h N Z Y) (hB : Balanced P) (hi : Inv P st) (hE : Exact (fun _ => True) st)
    (hq : N < q) (hr : r ∈ P.ranks) (hne : r ≠ h) (hsent : Sent P st h q r) :
    q ≤ st.phase r ∨ ∃ q', q = q' + 1 ∧ Y q' ∧ q' ≤ st.phase r := by
  rcases hR.cover q h r hq (phase_of_mem hsent).2 with hz | hy | ⟨q', rfl, hy⟩
  · exact .inl (phase_of_mem (hub_took hB hR.hub hi hE.weaken hz hsent hr hne)).1
  · exact absurd (hR.into q hy h r (phase_of_mem hsent).2) hne
  · have hall := relay_all hB hi hE (hR.relay q' hy) hR.hub.mem (.inr ⟨r, hsent⟩)
    exact .inr ⟨q', rfl, hy, hall.2 r hr⟩

/-- While the hub is receiving, nobody has sent to it in a later phase. -/
theorem Rounds.hub_first (hR : Rounds P h N Z Y) (hB : Balanced P) (hi : Inv P st) (hE : Exact (fun _ => True) st)
    (hN : N < st.phase h) (hnext : next P st h = some (.recv src)) (hsent : Sent P st s q h) : q ≤ st.phase h := by
  by_contra hlt
  obtain ⟨hle, hsend⟩ := phase_of_mem hsent
  have hs : s ∈ P.ranks := hB.mem_ranks hsend
  have hne : s ≠ h := by
    rintro rfl
    exact hR.self q s hsend
  obtain ⟨x, -, hx, -⟩ := missing hB hi hE hR.hub.mem hnext
  rcases hR.cover (st.phase h) x h hN hx with hz | hy | ⟨q', hq', hy⟩
  · -- `s` is past the phase, so the hub has answered it; but it is still receiving
    obtain ⟨t, ht, rfl, hp⟩ := took_past hB hi hE hs trivial (by omega) (hR.hub.release _ hz s hs hne)
    have hanswer := hi.sent s t ht
    rw [hp, Sent, doneActs_cur] at hanswer
    exact hub_silent hR.hub hz hnext s hanswer
  · -- nobody sends to the hub in the phase after this one, and past that the hub is too
    have hq : q ≠ st.phase h + 1 := by
      rintro rfl
      exact hne ((hR.relay _ hy).only s h hsend)
    have hall := relay_all hB hi hE (hR.relay _ hy) hs (.inl (by omega))
    exact absurd hall.1 (Nat.lt_irrefl _)
  · rw [hq'] at hx
    obtain rfl := (hR.relay q' hy).only x h hx
    exact hR.self _ _ hx

/-- A message that a rank about to receive has not taken is of the phase the
rank is in. -/
theorem Rounds.current (hR : Rounds P h N Z Y) (hB : Balanced P) (hi : Inv P st) (hE : Exact (fun _ => True) st)
    (hN : N < st.phase r) (hnext : next P st r = some (.recv src)) (hsent : Sent P st s q r)
    (hnot : ¬ Took st r s q) : q = st.phase r := by
  have hr : r ∈ P.ranks := hB.mem_ranks (List.mem_of_getElem? hnext)
  have hsend := (phase_of_mem hsent).2
  rcases Nat.lt_trichotomy q (st.phase r) with hlt | heq | hgt
  · exact absurd (took_past hB hi hE hr trivial hlt hsend) hnot
  · exact heq
  · exfalso
    by_cases hrh : r = h
    · subst hrh
      have := hR.hub_first hB hi hE hN hnext hsent
      omega
    · obtain rfl := hR.sender (by omega) (hB.mem_ranks hsend) hsend hrh
      rcases hR.answered hB hi hE (by omega) hr hrh hsent with hle | ⟨q', rfl, hy, hle⟩
      · omega
      · -- the rank is in the gathering phase, where only the hub receives
        obtain rfl : st.phase r = q' := by omega
        obtain ⟨x, -, hx, -⟩ := missing hB hi hE hr hnext
        exact hrh (hR.into _ hy x r hx)

theorem exact_rounds (hR : Rounds P h N Z Y) (hB : Balanced P) (hi : Inv P st) (hE : Exact (fun _ => True) st)
    (hN : ∀ r src, next P st r = some (.recv src) → N < st.phase r) (hstep : Step P st st') :
    Exact (fun _ => True) st' := by
  cases hstep with
  | tick r hd => exact hE
  | send r d ha => exact hE
  | recv r src s q ha hf hsent htag hnot => exact exact_recv hE fun _ => hR.current hB hi hE (hN r src ha) ha hsent hnot

end

end LibNeoos.Lib.Phased
