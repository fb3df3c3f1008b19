import LibNeoos.Mpi.Collectives
/-!
# Barriers

No rank returns from a barrier before all ranks have called it
(`barrier_waits_for_all`), whatever messages are lost and however far ranks are
ahead of each other. Every other rank reports to rank 0 and waits for its
answer, and no other collective uses the tags of a barrier; so a token that is
still under way is always one of the barrier its receiver is in, even when the
sequence number in its tag has wrapped (`exact_hub`).
-/

namespace LibNeoos.Mpi

open LibNeoos.Lib LibNeoos.Lib.Phased

def Op.isBarrier : Op → Bool
  | .barrier _ => true
  | _ => false

def Call.isBarrier : Call → Bool
  | .barrier _ => true
  | _ => false

/-- The number of barriers among the first `i` calls of a rank. -/
def World.barriers (w : World) (r i : Nat) : Nat := ((w.prog r).take i).countP Op.isBarrier

/-- A rank about to return from an `MPI_Bcast`, `MPI_Reduce` or `MPI_Allreduce`
returns `MPI_SUCCESS`. -/
def succeeds (w : World) (s : Sys) : Label → Bool
  | .rank r _ =>
    match (w.prog r)[(s.rank r).rets.length]?, (s.rank r).prog? with
    | some op, some (.ret a) => op.call.isNone || op.isBarrier || a.rc = MPI_SUCCESS
    | _, _ => true
  | .deliver _ => true

section
variable {w : World} {s : Sys} {r i : Nat}

theorem countP_isBarrier (l : List Op) : l.countP Op.isBarrier = (l.filterMap Op.call).countP Call.isBarrier := by
  induction l with
  | nil => rfl
  | cons op l ih => cases op <;> simp [Op.call, Op.isBarrier, Call.isBarrier, List.filterMap_cons, List.countP_cons, ih]

theorem barriers_eq (hw : Lawful w) (hr : r < w.n) :
    w.barriers r i = (w.calls.take (w.colls r i)).countP Call.isBarrier := by
  rw [World.barriers, countP_isBarrier, take_filterMap, hw.same r hr]
  rfl

/-- An error comes from a collective whose tags others may use, never from a barrier. -/
theorem not_doomed (hw : Lawful w) (hr : r < w.n)
    (hi : RankSim w (fun q => elemAt w.elems q = .barrier) r (s.core r)) {a : Do}
    (hs : succeeds w s (.rank r a) = true) :
    ¬ Doomed w (fun q => elemAt w.elems q = .barrier) r (s.core r) := by
  rintro ⟨hz, hlt, hc, b, hp, hb⟩
  obtain ⟨op, hop, hcall⟩ := isColl_iff.1 hc
  have hmem := elemAt_mem hw hr hop hlt hi.high
  have hbar : op.isBarrier = false := by
    cases op with
    | barrier comm =>
      simp only [Op.elems, Op.call, Option.map_some, Option.getD_some, Call.elems] at hmem
      split at hmem
      · simp at hmem
      · exact absurd (by simpa using hmem) hz
    | _ => rfl
  replace hop : (w.prog r)[(s.rank r).rets.length]? = some op := hop
  replace hp : (s.rank r).prog? = some (.ret b) := hp
  simp only [succeeds, hop, hp, hbar, Bool.or_false, Bool.or_eq_true, decide_eq_true_eq] at hs
  rcases hs with hs | hs
  · simp [Option.isNone_iff_eq_none.1 hs] at hcall
  · exact hb hs

/-- What a run keeps of its barriers. -/
theorem run_barriers (hw : Lawful w) (h : Run (step w) (fun s l _ => calm s l = true ∧ succeeds w s l = true) start s) :
    SysSim w (fun q => elemAt w.elems q = .barrier) s.core s.sent :=
  run_sim hw (fun _ _ _ hl => hl.1) (fun _ _ _ hi hl r _ he hr => not_doomed hw hr (hi.rank r hr) (he ▸ hl.2))
    (fun _ _ _ hi _ _ hst => exact_hub (plan_balanced (elems_rooted w)) (plan_hub w.pos) hi.inv hi.exact hst) h

/-- When some rank has returned `MPI_SUCCESS` from a barrier, every rank has
called the barrier of the same number. -/
theorem barrier_waits_for_all (hw : Lawful w)
    (hrun : Run (step w) (fun s l _ => calm s l = true ∧ succeeds w s l = true) start s) {comm : Int} {a : Ret}
    (h : Succeeded w s r i (.barrier comm) a) {x : Nat} (hx : x < w.n) :
    ∃ j, (w.prog x)[j]? = some (.barrier comm) ∧ w.barriers x j = w.barriers r i ∧ (s.core x).called j := by
  have hi := run_barriers hw hrun
  obtain ⟨j, op, hop, hc, hcolls⟩ := exists_call hw h.rank hx h.prog rfl
  obtain rfl : op = .barrier comm := by
    cases op <;> cases hc
    rfl
  have hret : i < (s.core r).rets.length := (List.getElem?_eq_some_iff.1 h.ret).1
  refine ⟨j, hop, by rw [barriers_eq hw hx, barriers_eq hw h.rank, hcolls], ?_⟩
  by_cases hn : w.n = 1
  · -- alone
    obtain ⟨rfl, rfl⟩ : x = 0 ∧ r = 0 := by have := h.rank; omega
    obtain rfl : j = i := colls_inj (isColl_iff.2 ⟨_, hop, rfl⟩) (isColl_iff.2 ⟨_, h.prog, rfl⟩) hcolls
    exact .inl hret
  · have hcode : (Call.barrier comm).code w.n = MPI_SUCCESS :=
      ((hi.rank r h.rank).past i _ a h.prog h.ret _ rfl).1.symm.trans h.rc
    have hcomm : comm = MPI_COMM_WORLD := by
      by_contra hne
      simp [Call.code, hne] at hcode
    have helems : (Op.barrier comm).elems w.n = [.barrier] := by
      simp [Op.elems, Op.call, Call.elems, hcomm, hn]
    have hsucc : w.phases r (i + 1) = w.phases r i + 1 := by rw [phases_succ h.prog, helems]; rfl
    have hz : elemAt w.elems (w.phases r i + 1) = .barrier :=
      elemAt_phases hw h.rank h.prog (k := 0) (by rw [helems]; rfl)
    have hlow := (hi.rank r h.rank).low
    have hmono := @phases_mono w r (i + 1) _ hret
    -- the rank has done its acts of the barrier's phase, so all have entered it
    have hall : w.phases r i + 1 ≤ (s.core x).ticks :=
      hub_all (plan_balanced (elems_rooted w)) (plan_hub w.pos) hi.inv hi.exact hz
        (by simpa [plan] using h.rank) (show _ ≤ (s.core r).ticks by omega)
        ((hi.rank r h.rank).doneActs_past hret (by omega)) (by simpa [plan] using hx)
    refine (hi.rank x hx).called ?_
    rw [phases_eq hw hx, hcolls, ← phases_eq hw h.rank]
    omega

/-- Rank 1 sends a byte nobody receives, then both enter a barrier. -/
def meet : World :=
  duo [.barrier MPI_COMM_WORLD] [.send [7] 1 MPI_BYTE 0 5 MPI_COMM_WORLD, .barrier MPI_COMM_WORLD]

/-- Rank 0 is through the barrier, rank 1 has not got its token yet. -/
theorem barrier_waits_for_all_meet :
    ∃ s, Run (step meet) (fun s l _ => calm s l = true ∧ succeeds meet s l = true) start s ∧
      (s.rank 0).rets = [⟨MPI_SUCCESS, [], none⟩] ∧ (s.rank 1).rets.length = 1 ∧
      ∃ j, (meet.prog 1)[j]? = some (.barrier MPI_COMM_WORLD) ∧ meet.barriers 1 j = meet.barriers 0 0 ∧
        (s.core 1).called j := by
  have h : ((exec (step meet) (fun s l => calm s l && succeeds meet s l) start
      (duoInit ++ ([.rank 1 .call, .rank 1 .exec, .rank 1 .exec, .rank 1 .call, .rank 1 .exec, .rank 1 .exec,
        .deliver 0, .deliver 0, .rank 0 .call, .rank 0 .exec, .rank 0 .exec, .rank 0 .recv, .rank 0 .recv,
        .rank 0 .exec, .rank 0 .exec] : List Label))).map fun s =>
      decide ((s.rank 0).rets = [⟨MPI_SUCCESS, [], none⟩] ∧ (s.rank 1).rets.length = 1)) = some true := by
    decide +kernel
  obtain ⟨s, hrun, h0, h1⟩ := exec_reaches h fun s l s' hb => by simpa using hb
  exact ⟨s, hrun, h0, h1, barrier_waits_for_all (r := 0) (i := 0) (by decide) hrun
    ⟨by decide, rfl, by rw [h0]; rfl, rfl⟩ (by decide)⟩

end

end LibNeoos.Mpi
