import LibNeoos.Semaphore.Units
/-!
# The value of a semaphore as a 32-bit number

`sem_init` stores its unsigned argument in a signed word, and `sem_post` adds to that
word without looking at it. The value is the exact count as long as the argument is at
most `INT_MAX` and every `sem_post` finds less than that (`sem_value_exact`); each of
the two can make it negative (`sem_value_negative`).
-/

namespace LibNeoos.Semaphore

open Lib

structure sem_t where
  value : Int
  pshared : Int
  deriving DecidableEq, Repr

/-- The result, and what is stored in `*sem`. -/
def sem_init (sem : Ptr) (pshared : Int) (value : UInt32) : Int × Option sem_t :=
  match sem with
  | .null => (-EINVAL, none)
  | .obj => (0, some ⟨int32 value.toNat, pshared⟩)

theorem sem_init_spec {ptr : Ptr} {pshared : Int} {value : UInt32} {sem : sem_t}
    (h : sem_init ptr pshared value = (0, some sem)) : sem.value = int32 value.toNat := by
  cases ptr with
  | null => simp [sem_init] at h
  | obj =>
    simp only [sem_init, Prod.mk.injEq, Option.some.injEq, true_and] at h
    rw [← h]

section
variable {T : Type} [DecidableEq T] {s s' : Sys T} {l : T × Act T}

/-- A semaphore with the value `w`, and all threads outside the library. -/
def holding (w : Int) : Sys T := ⟨⟨⟨w, []⟩, []⟩, fun _ => {}⟩

omit [DecidableEq T] in
theorem holding_init {value : UInt32} (h : (value.toNat : Int) ≤ INT_MAX) :
    (holding (int32 value.toNat) : Sys T) = start value.toNat := by
  have hw : int32 value.toNat = value.toNat := by
    simp only [INT_MAX] at h
    exact int32_of_range (by omega) (by omega)
  rw [hw]
  rfl

/-- A step makes the value negative exactly if it is a `sem_post` that adds to `INT_MAX`. -/
theorem step_nonneg_iff {v : Nat} (hi : Ledger v s.mem) (he : (s.thr l.1).eager) (hmax : s.mem.value.word ≤ INT_MAX)
    (hst : step s l = some s') : 0 ≤ s'.mem.value.word ↔ belowMax s l = true := by
  constructor
  · intro h0
    cases Thread.move_moves (Conf.step_self hst) with
    | add hf hm =>
      simp only [belowMax, hf, decide_eq_true_eq]
      by_contra hge
      have hw : s.mem.value.word = INT_MAX := by omega
      have hneg : s'.mem.value.word = -2 ^ 31 := by
        rw [hm]
        simp only [hw]
        decide
      omega
    | take x hf => rcases hf with hf | hf <;> simp [belowMax, hf]
    | _ => simp_all [belowMax]
  · intro hb
    exact (hi.step he hb hst).nonneg

theorem step_le_max (h : s.mem.value.word ≤ INT_MAX) (hst : step s l = some s') : s'.mem.value.word ≤ INT_MAX := by
  cases Thread.move_moves (Conf.step_self hst) with
  | add _ hm =>
    rw [hm]
    exact int32_le_max _
  | take x _ hx hm =>
    have hword : s'.mem.value.word = x - 1 := by rw [hm]
    omega
  | enter c _ hm | exit rc _ hm | tries q _ hm | looks q q' _ _ _ _ hm => rwa [hm]
  | sleep _ _ hm | resume _ hm | timeout _ _ hm | wake ts _ _ hm => rwa [hm]

/-- For every `sem_init` that returns 0: the value is not negative exactly if the
argument is at most `INT_MAX`; and if it is, then in every run in which each `sem_post`
adds to a value below `INT_MAX`, the value is not negative and is the argument plus the
posts less what was taken, and a call that returns 0 has taken or, for a post, added
exactly one. The next step of such a run makes the value negative exactly if it is a
`sem_post` that adds to `INT_MAX`. -/
theorem sem_value_exact {ptr : Ptr} {pshared : Int} {value : UInt32} {sem : sem_t}
    (hinit : sem_init ptr pshared value = (0, some sem)) :
    (0 ≤ sem.value ↔ (value.toNat : Int) ≤ INT_MAX) ∧
    ((value.toNat : Int) ≤ INT_MAX → ∀ s : Sys T, Run step (fun s l _ => belowMax s l = true) (holding sem.value) s →
      0 ≤ s.mem.value.word ∧ s.mem.value.word = value.toNat + s.mem.adds - s.mem.takes ∧
      (∀ t rc, (s.thr t).frame = .ret rc →
        s.mem.changes t (s.thr t).calls = if rc = 0 then [!(s.thr t).call.isPost] else []) ∧
      ∀ l s', step s l = some s' → (0 ≤ s'.mem.value.word ↔ belowMax s l = true)) := by
  rw [sem_init_spec hinit]
  refine ⟨int32_nonneg_iff value.toNat_lt, fun hv s hrun => ?_⟩
  rw [holding_init hv] at hrun
  have hledger := run_ledger (fun _ _ _ _ hb => hb) hrun
  have hmax : s.mem.value.word ≤ INT_MAX :=
    hrun.inv (fun s => s.mem.value.word ≤ INT_MAX) hv fun _ _ _ h _ hst => step_le_max h hst
  refine ⟨hledger.nonneg, hledger.value, fun t rc hf => ?_, fun l s' hst => ?_⟩
  · have hdid := (run_settled hrun t).did
    rwa [hf] at hdid
  · exact step_nonneg_iff hledger (run_eager hrun l.1) hmax hst

end

/-- A semaphore with one unit is posted and taken from. -/
theorem sem_value_exact_post : ∃ s : Sys (Fin 1),
    Run step (fun s l _ => belowMax s l = true) (holding 1) s ∧ (s.thr 0).frame = .ret 0 ∧ s.mem.value.word = 2 ∧
    0 ≤ s.mem.value.word ∧ s.mem.changes 0 (s.thr 0).calls = [false] := by
  have h : ((exec step belowMax (holding 1 : Sys (Fin 1))
      ([(0, .call (.post .obj)), (0, .op .go), (0, .op (.wake []))] : List (Fin 1 × Act (Fin 1)))).map fun s =>
      decide ((s.thr 0).frame = .ret 0 ∧ s.mem.value.word = 2 ∧ (s.thr 0).call = .post .obj)) = some true := by
    decide +kernel
  obtain ⟨s, hrun, hf, hw, hc⟩ := exec_reaches h fun _ _ _ hb => hb
  have hinit : sem_init .obj 0 1 = (0, some ⟨1, 0⟩) := by decide
  obtain ⟨hnonneg, -, hret, -⟩ := (sem_value_exact (T := Fin 1) hinit).2 (by decide) s hrun
  refine ⟨s, hrun, hf, hw, hnonneg, ?_⟩
  rw [hret 0 0 hf, hc]
  rfl

/-- `sem_init` returns 0 for `0x80000000` and stores a negative value; and a `sem_post`
on a semaphore that was initialised with `0x7FFFFFFF` returns 0 and leaves one. -/
theorem sem_value_negative :
    (∃ sem, sem_init .obj 0 0x80000000 = (0, some sem) ∧ sem.value < 0) ∧
    ∃ sem, sem_init .obj 0 0x7FFFFFFF = (0, some sem) ∧ ∃ s : Sys (Fin 1),
      Run step (fun _ _ _ => True) (holding sem.value) s ∧ (s.thr 0).call = .post .obj ∧ (s.thr 0).frame = .ret 0 ∧
      s.mem.value.word < 0 ∧ s.mem.value.word ≠ 0x7FFFFFFF + s.mem.adds - s.mem.takes := by
  refine ⟨⟨⟨-2147483648, 0⟩, by decide, by decide⟩, ⟨2147483647, 0⟩, by decide, ?_⟩
  have h : ((exec step (fun _ _ => true) (holding 2147483647 : Sys (Fin 1))
      ([(0, .call (.post .obj)), (0, .op .go), (0, .op (.wake []))] : List (Fin 1 × Act (Fin 1)))).map fun s =>
      decide ((s.thr 0).call = .post .obj ∧ (s.thr 0).frame = .ret 0 ∧ s.mem.value.word < 0 ∧
        s.mem.value.word ≠ (0x7FFFFFFF : Int) + s.mem.adds - s.mem.takes)) = some true := by
    decide +kernel
  exact exec_reaches h fun _ _ _ _ => trivial

end LibNeoos.Semaphore
