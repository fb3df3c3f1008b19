import LibNeoos.Mpi.Refinement
/-!
# Which collective a phase belongs to

Ranks mix collectives with calls of their own, so the same collective is at
different places of their programs. It is the same one by its number among the
collectives (`World.colls`), and a phase belongs to the same one on all ranks
(`same_call`). From this follows how far a message can be ahead of a receive:
if no rank has started `2^24` collectives more than another, no message is
`2^24` phases ahead (`near_of_close`), although an `MPI_Allreduce` has two
phases: nobody leaves it before all have entered it.
-/

namespace LibNeoos.Mpi

open LibNeoos.Lib LibNeoos.Lib.Phased

/-- The number of collectives among the first `i` calls of a rank. -/
def World.colls (w : World) (r i : Nat) : Nat := (((w.prog r).take i).filterMap Op.call).length

/-- The number of phases of the first `k` collectives. -/
def World.startOf (w : World) (k : Nat) : Nat := ((w.calls.take k).flatMap (Call.elems w.n)).length

section
variable {w : World} {r i k : Nat}

theorem take_filterMap {α β : Type} (f : α → Option β) (l : List α) (i : Nat) :
    (l.take i).filterMap f = (l.filterMap f).take ((l.take i).filterMap f).length := by
  conv_rhs => rw [← List.take_append_drop i l, List.filterMap_append]
  rw [List.take_append_drop, List.take_left]

theorem phases_eq (hw : Lawful w) (hr : r < w.n) (i : Nat) : w.phases r i = w.startOf (w.colls r i) := by
  rw [World.phases, World.startOf, World.colls, flatMap_elems, ← hw.same r hr, ← take_filterMap]

theorem startOf_mono {j : Nat} (h : k ≤ j) : w.startOf k ≤ w.startOf j := by
  obtain ⟨d, rfl⟩ := Nat.exists_eq_add_of_le h
  simp [World.startOf, List.take_add]

theorem startOf_le_total (k : Nat) : w.startOf k ≤ w.startOf w.calls.length := by
  rcases Nat.le_total k w.calls.length with h | h
  · exact startOf_mono h
  · simp [World.startOf, List.take_of_length_le h]

theorem startOf_succ {c : Call} (h : w.calls[k]? = some c) :
    w.startOf (k + 1) = w.startOf k + (c.elems w.n).length := by
  simp [World.startOf, List.take_add_one, h]

theorem elemAt_start {c : Call} {j : Nat} {e : Elem} (h : w.calls[k]? = some c) (he : (c.elems w.n)[j]? = some e) :
    elemAt w.elems (w.startOf k + j + 1) = e := elemAt_flatMap h he

theorem colls_mono {j : Nat} (h : i ≤ j) : w.colls r i ≤ w.colls r j := by
  obtain ⟨d, rfl⟩ := Nat.exists_eq_add_of_le h
  simp [World.colls, List.take_add]

theorem colls_succ (h : w.isColl r i = true) : w.colls r (i + 1) = w.colls r i + 1 := by
  obtain ⟨op, hop, hc⟩ := isColl_iff.1 h
  obtain ⟨c, hc⟩ := Option.isSome_iff_exists.1 hc
  simp [World.colls, List.take_add_one, hop, hc]

theorem colls_succ_le (i : Nat) : w.colls r (i + 1) ≤ w.colls r i + 1 := by
  unfold World.colls
  rw [List.take_add_one, List.filterMap_append, List.length_append]
  refine Nat.add_le_add_left ((List.length_filterMap_le _ _).trans ?_) _
  cases (w.prog r)[i]? <;> simp

theorem colls_inj {j : Nat} (hi : w.isColl r i = true) (hj : w.isColl r j = true) (h : w.colls r i = w.colls r j) :
    i = j := by
  rcases Nat.lt_trichotomy i j with hlt | rfl | hlt
  · have := @colls_mono w r (i + 1) j hlt
    rw [colls_succ hi] at this
    omega
  · rfl
  · have := @colls_mono w r (j + 1) i hlt
    rw [colls_succ hj] at this
    omega

/-- The collective that call `i` of a rank is. -/
theorem calls_colls (hw : Lawful w) (hr : r < w.n) {op : Op} {c : Call} (h : (w.prog r)[i]? = some op)
    (hc : op.call = some c) : w.calls[w.colls r i]? = some c := by
  obtain ⟨hi, he⟩ := List.getElem?_eq_some_iff.1 h
  rw [← hw.same r hr]
  conv_lhs => rw [← List.take_append_drop i (w.prog r), List.filterMap_append]
  rw [World.colls, List.getElem?_append_right (Nat.le_refl _), Nat.sub_self, List.drop_eq_getElem_cons hi, he,
    List.filterMap_cons_some hc]
  rfl

theorem exists_of_filterMap {α β : Type} {f : α → Option β} {l : List α} {k : Nat} {b : β}
    (h : (l.filterMap f)[k]? = some b) :
    ∃ (j : Nat) (a : α), l[j]? = some a ∧ f a = some b ∧ ((l.take j).filterMap f).length = k := by
  induction l generalizing k with
  | nil => cases h
  | cons x l ih =>
    cases hx : f x with
    | none =>
      rw [List.filterMap_cons_none hx] at h
      obtain ⟨j, a, h1, h2, h3⟩ := ih h
      exact ⟨j + 1, a, h1, h2, by rw [List.take_succ_cons, List.filterMap_cons_none hx, h3]⟩
    | some y =>
      rw [List.filterMap_cons_some hx] at h
      cases k with
      | zero =>
        rw [List.getElem?_cons_zero, Option.some.injEq] at h
        exact ⟨0, x, rfl, h ▸ hx, rfl⟩
      | succ k =>
        obtain ⟨j, a, h1, h2, h3⟩ := ih h
        exact ⟨j + 1, a, h1, h2, by rw [List.take_succ_cons, List.filterMap_cons_some hx, List.length_cons, h3]⟩

/-- The call of another rank that is the same collective. -/
theorem exists_call (hw : Lawful w) (hr : r < w.n) {x : Nat} (hx : x < w.n) {op : Op} {c : Call}
    (h : (w.prog r)[i]? = some op) (hc : op.call = some c) :
    ∃ (j : Nat) (op' : Op), (w.prog x)[j]? = some op' ∧ op'.call = some c ∧ w.colls x j = w.colls r i := by
  have hk := calls_colls hw hr h hc
  rw [← hw.same x hx] at hk
  exact exists_of_filterMap hk

/-- A phase belongs to one collective. -/
theorem startOf_unique {j q : Nat} (h1 : w.startOf k < q) (h2 : q ≤ w.startOf (k + 1)) (h3 : w.startOf j < q)
    (h4 : q ≤ w.startOf (j + 1)) : k = j := by
  rcases Nat.lt_trichotomy k j with h | h | h
  · have := @startOf_mono w (k + 1) j (by omega)
    omega
  · exact h
  · have := @startOf_mono w (j + 1) k (by omega)
    omega

/-- The collective of a phase. -/
theorem exists_startOf {q : Nat} (h0 : 0 < q) (h : q ≤ w.startOf w.calls.length) :
    ∃ k c, w.calls[k]? = some c ∧ w.startOf k < q ∧ q ≤ w.startOf (k + 1) := by
  have hex : ∃ k, q ≤ w.startOf k := ⟨_, h⟩
  classical
  obtain ⟨k, hk⟩ : ∃ k, Nat.find hex = k + 1 := by
    refine ⟨Nat.find hex - 1, ?_⟩
    have : Nat.find hex ≠ 0 := fun h => by
      have := Nat.find_spec hex
      rw [h] at this
      simp [World.startOf] at this
      omega
    omega
  have hlt : w.startOf k < q := Nat.lt_of_not_le (Nat.find_min hex (by omega))
  have hle : q ≤ w.startOf (k + 1) := hk ▸ Nat.find_spec hex
  cases hc : w.calls[k]? with
  | none =>
    have hlen : w.calls.length ≤ k := List.getElem?_eq_none_iff.1 hc
    have : w.startOf (k + 1) = w.startOf k := by
      simp [World.startOf, List.take_of_length_le hlen, List.take_of_length_le (Nat.le_succ_of_le hlen)]
    omega
  | some c => exact ⟨k, c, hc, hlt, hle⟩

/-- The same phase is in the same collective on all ranks. -/
theorem same_call (hw : Lawful w) {x : Nat} (hr : r < w.n) (hx : x < w.n) {j q : Nat} (h1 : w.phases r i < q)
    (h2 : q ≤ w.phases r (i + 1)) (h3 : w.phases x j < q) (h4 : q ≤ w.phases x (j + 1)) :
    w.colls r i = w.colls x j := by
  rw [phases_eq hw hr] at h1 h2
  rw [phases_eq hw hx] at h3 h4
  exact startOf_unique h1 (h2.trans (startOf_mono (colls_succ_le i))) h3 (h4.trans (startOf_mono (colls_succ_le j)))

end

/-! ## How far ranks are apart -/

/-- The number of collectives a rank has started. -/
def Core.started (w : World) (r : Nat) (c : Core) : Nat :=
  w.colls r (c.rets.length + if c.prog?.isSome then 1 else 0)

/-- No rank has started `2^24` collectives more than another. -/
def Close (w : World) (s : Sys) : Prop :=
  ∀ a < w.n, ∀ b < w.n, (s.core a).started w a < (s.core b).started w b + 2 ^ 24

instance (w : World) (s : Sys) : Decidable (Close w s) :=
  inferInstanceAs (Decidable (∀ a < w.n, ∀ b < w.n, (s.core a).started w a < (s.core b).started w b + 2 ^ 24))

section
variable {w : World} {Z : Nat → Prop} {C : Nat → Core} {ps : List Packet} {r : Nat} {c : Core}

/-- A rank whose phase has more to do is inside a collective. -/
theorem RankSim.in_call (hi : RankSim w Z r c) (h : c.done < (w.plan.acts c.ticks r).length) :
    w.isColl r c.rets.length = true ∧ c.prog?.isSome = true ∧ w.phases r c.rets.length < c.ticks := by
  have hcall : ∃ p, c.prog? = some p ∧ w.isColl r c.rets.length = true := by
    by_contra hno
    have := (hi.rest fun p hp => by simpa using fun hc => hno ⟨p, hp, hc⟩).2
    omega
  obtain ⟨p, hp, hc⟩ := hcall
  refine ⟨hc, by simp [hp], ?_⟩
  obtain ⟨op, hop, hs⟩ := isColl_iff.1 hc
  rcases hi.coll p op hp hop hs with ⟨-, hlt, -⟩ | ⟨σ, ht⟩
  · exact hlt
  · refine ht.phases_lt hi ?_
    rw [ht.acts]
    simpa [List.drop_eq_nil_iff] using h

/-- The call was made: it has returned or is in progress. -/
def Core.called (c : Core) (i : Nat) : Prop := i < c.rets.length ∨ (i = c.rets.length ∧ c.prog?.isSome = true)

/-- A rank that is in a phase after the first `i` calls has made call `i`. -/
theorem RankSim.called (hi : RankSim w Z r c) {i : Nat} (h : w.phases r i < c.ticks) : c.called i := by
  have hle : i ≤ c.rets.length := by
    by_contra hlt
    have := @phases_mono w r (c.rets.length + 1) i (by omega)
    have := hi.high
    omega
  rcases Nat.lt_or_eq_of_le hle with hlt | rfl
  · exact .inl hlt
  · refine .inr ⟨rfl, ?_⟩
    by_contra hn
    have := (hi.rest fun p hp => by simp [hp] at hn).1
    omega

/-- A rank that has entered a phase of call `i` has started that call. -/
theorem RankSim.started_of_phase (hi : RankSim w Z r c) {i q : Nat} (h1 : w.phases r i < q)
    (h2 : q ≤ w.phases r (i + 1)) (hq : q ≤ c.ticks) : w.colls r i + 1 ≤ c.started w r := by
  have hcoll : w.isColl r i = true := by
    by_contra hc
    have := phases_of_not_coll (by simpa using hc : w.isColl r i = false)
    omega
  rw [← colls_succ hcoll]
  refine colls_mono ?_
  rcases hi.called (show w.phases r i < c.ticks by omega) with hlt | ⟨rfl, hsome⟩
  · omega
  · simp [hsome]

/-- The two phases of an `MPI_Allreduce` gather at rank 0 and spread from it. -/
theorem plan_relay {n : Nat} {es : List Elem} {q len : Nat} (hn : 0 < n) (h1 : elemAt es q = .reduce 0 len)
    (h2 : elemAt es (q + 1) = .bcast 0 len) : Relay (plan n es) 0 q where
  mem := by simpa [plan] using hn
  gather r hr h0 := by
    rw [mem_plan_send, h1]
    exact ⟨by simpa [plan] using hr, h0, rfl⟩
  spread r hr h0 := by
    rw [mem_plan_send, h2]
    exact ⟨hn, rfl, by simpa [plan] using hr, h0⟩
  only s d h := by
    rw [mem_plan_send, h2] at h
    exact h.2.1

/-- The second phase of a call is that of an `MPI_Allreduce`. -/
theorem second_phase {k q : Nat} {c : Call} (hc : w.calls[k]? = some c) (h1 : w.startOf k + 1 < q)
    (h2 : q ≤ w.startOf (k + 1)) :
    ∃ q' len, q = q' + 1 ∧ elemAt w.elems q' = .reduce 0 len ∧ elemAt w.elems (q' + 1) = .bcast 0 len := by
  have hlen := startOf_succ hc
  have helems : ∃ len, c.elems w.n = [.reduce 0 len, .bcast 0 len] := by
    cases c with
    | allreduce count type op comm =>
      simp only [Call.elems] at hlen ⊢
      split_ifs at hlen ⊢
      · simp at hlen; omega
      · exact ⟨_, rfl⟩
    | _ =>
      exfalso
      simp only [Call.elems] at hlen
      split_ifs at hlen <;> simp at hlen <;> omega
  obtain ⟨len, helems⟩ := helems
  have hq : q = w.startOf k + 2 := by simp [helems] at hlen; omega
  refine ⟨w.startOf k + 1, len, hq, ?_, ?_⟩
  · exact @elemAt_start w k c 0 _ hc (by simp [helems])
  · exact @elemAt_start w k c 1 _ hc (by simp [helems])

/-- A rank `r` is about to receive, and `x` has sent it the message of phase `q`.
Between the two no phase is the second one of a call: `x` would be past an
`MPI_Allreduce` that `r` has not left. -/
theorem ahead_first {src : Option Nat} {x q k t : Nat} {c : Call} (hi : SysSim w (fun _ => True) C ps) (hr : r < w.n)
    (hx : x < w.n) (hnext : next w.plan (absOf w C) r = some (.recv src))
    (hsent : Sent w.plan (absOf w C) x q r) (hc : w.calls[k]? = some c) (hlow : w.startOf k < t)
    (hhigh : t ≤ w.startOf (k + 1)) (hlt : (C r).ticks < t) (hle : t ≤ q) : t = w.startOf k + 1 := by
  by_contra hne
  obtain ⟨t, len, rfl, hgather, hspread⟩ := second_phase hc (by omega) hhigh
  have hpast : t + 1 < (C x).ticks ∨ ∃ d, Sent w.plan (absOf w C) x (t + 1) d := by
    rcases Nat.lt_or_eq_of_le hle with h | rfl
    · exact .inl (Nat.lt_of_lt_of_le h (phase_of_mem hsent).1)
    · exact .inr ⟨r, hsent⟩
  have hall := relay_all (plan_balanced (elems_rooted w)) hi.inv hi.exact (plan_relay w.pos hgather hspread)
    (by simpa [World.plan, plan] using hx) hpast
  have hge : t ≤ (C r).ticks := hall.2 r (by simpa [World.plan, plan] using hr)
  obtain rfl : t = (C r).ticks := by omega
  -- only rank 0 receives in the gathering phase, and it is past it
  have hrecv : .recv src ∈ w.plan.acts (C r).ticks r := List.mem_of_getElem? hnext
  rw [World.plan, plan_acts hr, hgather] at hrecv
  by_cases hr0 : r = 0
  · subst hr0
    exact absurd hall.1 (Nat.lt_irrefl _)
  · simp [Elem.acts, hr0] at hrecv

/-- Where every phase from `p` to `q` begins another call, a phase `d` later is of a call
at least `d` later. -/
theorem call_of_later {p q j : Nat}
    (hfirst : ∀ k t c, w.calls[k]? = some c → w.startOf k < t → t ≤ w.startOf (k + 1) → p < t → t ≤ q →
      t = w.startOf k + 1)
    (hlow : w.startOf j < p) (hhigh : p ≤ w.startOf (j + 1)) (hq : q ≤ w.startOf w.calls.length) (d : Nat)
    (hd : p + d ≤ q) : ∃ k, w.startOf k < p + d ∧ p + d ≤ w.startOf (k + 1) ∧ j + d ≤ k := by
  induction d with
  | zero => exact ⟨j, hlow, hhigh, Nat.le_refl _⟩
  | succ d ih =>
    obtain ⟨k, hk, -, hjk⟩ := ih (by omega)
    obtain ⟨k', c, hc, hk', hk''⟩ := exists_startOf (show 0 < p + (d + 1) by omega) (hd.trans hq)
    have hstart := hfirst k' _ c hc hk' hk'' (by omega) hd
    have hlt : k < k' := by
      by_contra hge
      have := @startOf_mono w k' k (by omega)
      omega
    exact ⟨k', hk', hk'', by omega⟩

theorem near_of_close {s : Sys} (hw : Lawful w) (hi : SysSim w (fun _ => True) s.core ps) (hclose : Close w s) :
    Near w.plan (2 ^ 24) (absOf w s.core) := by
  intro r src x q hnext hsent
  by_contra hfar
  replace hfar : (s.core r).ticks + 2 ^ 24 ≤ q := Nat.le_of_not_lt hfar
  have hB : Balanced w.plan := plan_balanced (elems_rooted w)
  have hr : r < w.n := by simpa [World.plan, plan] using hB.mem_ranks (List.mem_of_getElem? hnext)
  have hx : x < w.n := (mem_plan_send.1 (phase_of_mem hsent).2).1
  -- the collective of the receive
  obtain ⟨hcr, hpr, hlow⟩ := (hi.rank r hr).in_call (next_lt hnext)
  have hhigh := (hi.rank r hr).high
  rw [phases_eq hw hr] at hlow
  rw [phases_eq hw hr, colls_succ hcr] at hhigh
  have hrstarted : (s.core r).started w r = w.colls r (s.core r).rets.length + 1 := by
    simp [Core.started, hpr, colls_succ hcr]
  -- the collective of the message
  obtain ⟨m, i, hm, ho⟩ := hi.there x q r hsent
  have hso := hi.sent _ hm x i q ho
  have hxstarted := (hi.rank x hx).started_of_phase hso.low hso.high (phase_of_mem hsent).1
  have hxlow := hso.low
  have hxhigh := hso.high.trans (phases_eq hw hx _).le
  rw [phases_eq hw hx] at hxlow
  replace hxhigh := hxhigh.trans (startOf_mono (colls_succ_le i))
  obtain ⟨k, hk, hk', hfark⟩ := call_of_later (fun _ _ _ => ahead_first hi hr hx hnext hsent) hlow hhigh
    (hxhigh.trans (startOf_le_total _)) (q - (s.core r).ticks) (by omega)
  rw [show (s.core r).ticks + (q - (s.core r).ticks) = q by omega] at hk hk'
  have heq := startOf_unique hk hk' hxlow hxhigh
  have := hclose x hx r hr
  omega

end

end LibNeoos.Mpi
