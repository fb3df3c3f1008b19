import LibNeoos.Semaphore.Code
/-!
# No unit of a semaphore is lost or made up

The value is the initial one and what the log says (`Ledger`), and each call has
in the log exactly what it returned for (`Thread.settled`). `sem_trywait` gives up
only in a state in which the value is 0 (`sawZero`).
-/

namespace LibNeoos.Semaphore

open Lib

section
variable {T : Type} [DecidableEq T] {t : T} {m m' : Mem T} {p p' p₁ : Thread}

/-! ## The value and the log -/

/-- The value fits an `int` after the step. -/
def belowMax (s : Sys T) (l : T × Act T) : Bool :=
  match (s.thr l.1).frame with
  | .post .fetch_add => s.mem.value.word < INT_MAX
  | _ => true

/-- The initial value and the posts, with the step, are at most `INT_MAX`. -/
def roomy (v : Nat) (s : Sys T) (l : T × Act T) : Bool :=
  match (s.thr l.1).frame with
  | .post .fetch_add => (v + s.mem.adds + 1 : Int) ≤ INT_MAX
  | _ => true

/-- The value is the initial one and what has been added, less what has been taken. -/
structure Ledger (v : Nat) (m : Mem T) : Prop where
  value : m.value.word = v + m.adds - m.takes
  nonneg : 0 ≤ m.value.word

/-- A compare-exchange is for a positive value. -/
def Thread.eager (p : Thread) : Prop := ∀ v, p.frame = .trywait (.cas v) ∨ p.frame = .wait (.cas v) → 0 < v

variable {v : Nat} {s s' : Sys T} {l : T × Act T} {ok : Sys T → T × Act T → Sys T → Prop}

theorem Call.enter_eager (c : Call) (v : Int) : c.enter ≠ .trywait (.cas v) ∧ c.enter ≠ .wait (.cas v) := by
  cases c <;> simp only [Call.enter] <;> split_ifs <;> simp

theorem Thread.Moves.eager (h : p.Moves t m m' p') : p'.eager := by
  intro v hv
  cases h with
  | enter c _ _ hp =>
    subst hp
    exact absurd hv (not_or.2 (c.enter_eager v))
  | tries q _ _ hp =>
    subst hp
    simp only [sem_trywait_test] at hv
    split at hv <;> simp at hv
    omega
  | looks q q' _ _ _ hq _ hp =>
    subst hp
    simp at hv
    exact hq v hv
  | _ => simp_all

theorem run_eager (h : Run step ok (start v) s) (t : T) : (s.thr t).eager :=
  run_local (fun _ _ p => p.eager) (fun _ v hv => by simp [start] at hv)
    (fun _ _ _ _ _ _ hm => (Thread.move_moves hm).eager)
    (fun _ _ _ _ u hs _ _ _ => hs u) h t

omit [DecidableEq T] in
theorem log_snoc {e : Entry T} (h : m'.log = m.log ++ [e]) :
    m'.adds = m.adds + (if e.takes then 0 else 1) ∧ m'.takes = m.takes + (if e.takes then 1 else 0) := by
  cases he : e.takes <;> simp [Mem.adds, Mem.takes, h, he]

theorem Ledger.step (hi : Ledger v s.mem) (he : (s.thr l.1).eager) (hb : belowMax s l = true)
    (hst : step s l = some s') :
    Ledger v s'.mem := by
  obtain ⟨hvalue, hnonneg⟩ := hi
  cases Thread.move_moves (Conf.step_self hst) with
  | take x hf hx hm =>
    have hpos := he x hf
    obtain ⟨hadds, htakes⟩ := log_snoc (congrArg Mem.log hm)
    have hword : s'.mem.value.word = x - 1 := by rw [hm]
    rw [if_pos rfl] at hadds htakes
    exact ⟨by omega, by omega⟩
  | add hf hm =>
    have hmax : s.mem.value.word < INT_MAX := by simpa [belowMax, hf] using hb
    obtain ⟨hadds, htakes⟩ := log_snoc (congrArg Mem.log hm)
    have hword : s'.mem.value.word = s.mem.value.word + 1 := by
      rw [hm]
      exact int32_of_range (by omega) (by simp at hmax; omega)
    rw [if_neg (by simp)] at hadds htakes
    exact ⟨by omega, by omega⟩
  | enter c _ hm | exit rc _ hm | tries q _ hm | looks q q' _ _ _ _ hm =>
    rw [hm]
    exact ⟨hvalue, hnonneg⟩
  | sleep _ _ hm | resume _ hm | timeout _ _ hm | wake ts _ _ hm =>
    rw [hm]
    exact ⟨hvalue, hnonneg⟩

theorem run_ledger (hok : ∀ s l s', Ledger v s.mem → ok s l s' → belowMax s l = true) (h : Run step ok (start v) s) :
    Ledger v s.mem := by
  refine h.inv_reach (fun s => Ledger v s.mem) ⟨by simp [start, Mem.adds, Mem.takes], by simp [start]⟩ ?_
  intro s l s' hrun hi hl hst
  exact hi.step (run_eager hrun l.1) (hok s l s' hi hl) hst

/-! ## What a call has done -/

/-- The changes of the value that the `k`-th call of `t` has made: whether each
was a compare-exchange. -/
def Mem.changes (m : Mem T) (t : T) (k : Nat) : List Bool :=
  (m.log.filter fun e => e.thread = t ∧ e.call = k).map (·.takes)

/-- What a call in this place has done: a call that returns 0 has taken or added
one, and one that returns an error nothing. -/
def Frame.did (isPost : Bool) : Frame → List Bool → Prop
  | .idle, _ => True
  | .trywait _, c | .wait _, c => isPost = false ∧ c = []
  | .post .fetch_add, c => isPost = true ∧ c = []
  | .post .wake, c => isPost = true ∧ c = [false]
  | .ret rc, c => c = if rc = 0 then [!isPost] else []

/-- The log has what the thread's last call has done, and nothing of calls to come. -/
structure Thread.settled (m : Mem T) (t : T) (p : Thread) : Prop where
  did : p.frame.did p.call.isPost (m.changes t p.calls)
  past : ∀ e ∈ m.log, e.thread = t → e.call ≤ p.calls

theorem changes_snoc {e : Entry T} (h : m'.log = m.log ++ [e]) (t : T) (k : Nat) :
    m'.changes t k = m.changes t k ++ if e.thread = t ∧ e.call = k then [e.takes] else [] := by
  simp only [Mem.changes, h, List.filter_append, List.map_append]
  by_cases he : e.thread = t ∧ e.call = k
  · simp [he]
  · simp [he]

theorem Call.enter_did (c : Call) : c.enter.did c.isPost [] := by
  cases c <;> simp only [Call.enter] <;> split_ifs <;> simp [Frame.did, Call.isPost]

theorem Thread.settled.enter (hs : p.settled m t) (c : Call) : Thread.settled m t ⟨c, c.enter, p.calls + 1⟩ := by
  have hnone : m.changes t (p.calls + 1) = [] := by
    simp only [Mem.changes, List.map_eq_nil_iff, List.filter_eq_nil_iff, decide_eq_true_eq, not_and]
    intro e he ht hk
    have := hs.past e he ht
    omega
  refine ⟨?_, fun e he ht => (hs.past e he ht).trans (Nat.le_succ _)⟩
  rw [hnone]
  exact c.enter_did

/-- A thread that goes on without a change of the value. -/
theorem Thread.settled.go_on (hs : p.settled m t) {f : Frame} (hlog : m'.log = m.log)
    (hf : p.frame.did p.call.isPost (m.changes t p.calls) → f.did p.call.isPost (m.changes t p.calls)) :
    Thread.settled m' t { p with frame := f } := by
  refine ⟨?_, fun e he ht => hs.past e (hlog ▸ he) ht⟩
  simp only [Mem.changes, hlog]
  exact hf hs.did

/-- A thread that changes the value. -/
theorem Thread.settled.change (hs : p.settled m t) {f : Frame} {b : Bool} (hlog : m'.log = m.log ++ [⟨t, p.calls, b⟩])
    (hf : p.frame.did p.call.isPost (m.changes t p.calls) → f.did p.call.isPost (m.changes t p.calls ++ [b])) :
    Thread.settled m' t { p with frame := f } := by
  refine ⟨?_, fun e he ht => ?_⟩
  · rw [changes_snoc hlog, if_pos ⟨rfl, rfl⟩]
    exact hf hs.did
  · rcases List.mem_append.1 (hlog ▸ he) with he | he
    · exact hs.past e he ht
    · rw [List.mem_singleton.1 he]

theorem Thread.Moves.settled (h : p.Moves t m m' p') (hs : p.settled m t) : p'.settled m' t := by
  cases h with
  | enter c _ hm hp =>
    subst hm hp
    exact hs.enter c
  | exit rc _ hm hp =>
    subst hm hp
    exact hs.go_on rfl fun _ => trivial
  | tries q hf hm hp =>
    subst hm hp
    refine hs.go_on rfl fun h => ?_
    rw [hf] at h
    unfold sem_trywait_test
    split
    · exact h
    · simpa [Frame.did] using h.2
  | looks q q' hf _ _ _ hm hp =>
    subst hm hp
    exact hs.go_on rfl fun h => by rw [hf] at h; exact h
  | take x hf _ hm hp =>
    subst hm hp
    refine hs.change rfl fun h => ?_
    have hnone : p.call.isPost = false ∧ m.changes t p.calls = [] := by
      rcases hf with hf | hf <;> rw [hf] at h <;> exact h
    simp [Frame.did, hnone]
  | sleep hf _ hm hp | resume hf hm hp =>
    subst hm hp
    exact hs.go_on rfl fun h => by rw [hf] at h; exact h
  | timeout hf _ hm hp =>
    subst hm hp
    refine hs.go_on rfl fun h => ?_
    rw [hf] at h
    simpa [Frame.did] using h.2
  | add hf hm hp =>
    subst hm hp
    refine hs.change rfl fun h => ?_
    rw [hf] at h
    simp [Frame.did, h.1, h.2]
  | wake ts hf _ hm hp =>
    subst hm hp
    refine hs.go_on rfl fun h => ?_
    rw [hf] at h
    simp [Frame.did, h.1, h.2]

/-- The log of a step has entries of the thread that moves only. -/
theorem Thread.Moves.log (h : p.Moves t m m' p') : m'.log = m.log ∨ ∃ b, m'.log = m.log ++ [⟨t, p.calls, b⟩] := by
  cases h with
  | take x _ _ hm => exact .inr ⟨true, by rw [hm]⟩
  | add _ hm => exact .inr ⟨false, by rw [hm]⟩
  | enter c _ hm | exit rc _ hm | tries q _ hm | looks q q' _ _ _ _ hm => exact .inl (by rw [hm])
  | sleep _ _ hm | resume _ hm | timeout _ _ hm | wake ts _ _ hm => exact .inl (by rw [hm])

theorem Thread.settled.other (hs : p'.settled m t) {u : T} (h : p.Moves u m m' p₁) (hu : t ≠ u) : p'.settled m' t := by
  rcases h.log with hlog | ⟨b, hlog⟩
  · exact hs.go_on hlog id
  · refine ⟨?_, fun e he ht => ?_⟩
    · rw [changes_snoc hlog, if_neg (fun h => hu h.1.symm), List.append_nil]
      exact hs.did
    · rcases List.mem_append.1 (hlog ▸ he) with he | he
      · exact hs.past e he ht
      · rw [List.mem_singleton.1 he] at ht
        exact absurd ht.symm hu

theorem run_settled (h : Run step ok (start v) s) (t : T) : (s.thr t).settled s.mem t :=
  run_local (fun m t p => p.settled m t) (fun _ => ⟨trivial, by simp [start]⟩)
    (fun _ _ _ _ hs _ hm => (Thread.move_moves hm).settled hs)
    (fun _ _ _ _ u hs _ hm hu => (hs u).other (Thread.move_moves hm) hu) h t

/-- In a state of the run that led to `s`, thread `t` was in the `sem_trywait` it
is in now, and the value was 0. -/
def sawZero (ok : Sys T → T × Act T → Sys T → Prop) (v : Nat) (s : Sys T) (t : T) : Prop :=
  ∃ s₁, Run step ok (start v) s₁ ∧ Run step ok s₁ s ∧ (s₁.thr t).calls = (s.thr t).calls ∧
    (∃ q, (s₁.thr t).frame = .trywait q) ∧ s₁.mem.value.word = 0

theorem Call.enter_again (c : Call) : c.enter ≠ .ret (-EAGAIN) := by
  cases c <;> simp only [Call.enter] <;> split_ifs <;> simp

/-- Only `sem_trywait` returns `-EAGAIN`, and when it finds no unit. -/
theorem Thread.Moves.again (h : p.Moves t m m' p') (hf : p'.frame = .ret (-EAGAIN)) :
    (∃ q, p.frame = .trywait q) ∧ m.value.word ≤ 0 ∧ p'.calls = p.calls := by
  cases h with
  | enter c _ _ hp =>
    subst hp
    exact absurd hf c.enter_again
  | tries q hq _ hp =>
    subst hp
    simp only [sem_trywait_test] at hf
    split at hf
    · cases hf
    · exact ⟨⟨q, hq⟩, by omega, rfl⟩
  | _ => simp_all

theorem run_sawZero (hok : ∀ s l s', Ledger v s.mem → ok s l s' → belowMax s l = true) (h : Run step ok (start v) s) :
    ∀ t, (s.thr t).frame = .ret (-EAGAIN) → sawZero ok v s t := by
  refine h.inv_reach (fun s => ∀ t, (s.thr t).frame = .ret (-EAGAIN) → sawZero ok v s t) (fun t ht => ?_) ?_
  · simp [start] at ht
  · intro s l s' hrun hi hl hst t hf
    by_cases htl : t = l.1
    · subst htl
      obtain ⟨hq, hle, hcalls⟩ := (Thread.move_moves (Conf.step_self hst)).again hf
      have hnonneg := (run_ledger hok hrun).nonneg
      exact ⟨s, hrun, .one hl hst, hcalls.symm, hq, by omega⟩
    · rw [Conf.step_other hst htl] at hf
      obtain ⟨s₁, h1, h2, hcalls, hq, h0⟩ := hi t hf
      exact ⟨s₁, h1, h2.snoc hl hst, by rw [hcalls, Conf.step_other hst htl], hq, h0⟩

/-! ## No unit is lost or made up -/

/-- In every run in which the initial value and the posts are at most `INT_MAX`:
the value is the initial one plus the `fetch_add`s less the successful
compare-exchanges, and not negative, so no more are taken than there are; a call
that returns 0 has taken or, for a post, added exactly one, and one that returns
an error has not changed the value; and `sem_trywait` returns `-EAGAIN` only if
the value was 0 during the call. -/
theorem sem_conserves (h : Run step (fun s l _ => roomy v s l = true) (start v) s) :
    s.mem.value.word = v + s.mem.adds - s.mem.takes ∧ 0 ≤ s.mem.value.word ∧ s.mem.takes ≤ v + s.mem.adds ∧
    (∀ t rc, (s.thr t).frame = .ret rc →
      s.mem.changes t (s.thr t).calls = if rc = 0 then [!(s.thr t).call.isPost] else []) ∧
    (∀ t rc, (s.thr t).frame = .ret rc → rc = -EAGAIN ∨ rc = -ETIMEDOUT → s.mem.changes t (s.thr t).calls = []) ∧
    (∀ t, (s.thr t).frame = .ret (-EAGAIN) → sawZero (fun s l _ => roomy v s l = true) v s t) := by
  have hok : ∀ (s : Sys T) l, Ledger v s.mem → roomy v s l = true → belowMax s l = true := by
    intro s l hi hl
    have := hi.value
    unfold roomy at hl
    unfold belowMax
    split <;> simp_all
    omega
  obtain ⟨hvalue, hnonneg⟩ := run_ledger (fun s l _ => hok s l) h
  have hret : ∀ t rc, (s.thr t).frame = .ret rc →
      s.mem.changes t (s.thr t).calls = if rc = 0 then [!(s.thr t).call.isPost] else [] := by
    intro t rc hf
    have := (run_settled h t).did
    rwa [hf] at this
  refine ⟨hvalue, hnonneg, by omega, hret, fun t rc hf hrc => ?_, run_sawZero (fun s l _ => hok s l) h⟩
  rw [hret t rc hf, if_neg]
  rcases hrc with rfl | rfl <;> simp

/-- Of two threads that want the only unit, one gets it and one gives up. -/
theorem sem_conserves_race : ∃ s : Sys (Fin 2), Run step (fun s l _ => roomy 1 s l = true) (start 1) s ∧
    (s.thr 0).frame = .ret 0 ∧ (s.thr 1).frame = .ret (-EAGAIN) ∧ s.mem.value.word = 1 + s.mem.adds - s.mem.takes ∧
    s.mem.changes 1 (s.thr 1).calls = [] ∧ sawZero (fun s l _ => roomy 1 s l = true) 1 s 1 := by
  have h : ((exec step (roomy 1) (start 1 : Sys (Fin 2))
      ([(0, .call (.wait .obj)), (0, .op .go), (1, .call (.trywait .obj)), (1, .op .go), (0, .op .go), (1, .op .go)] :
        List (Fin 2 × Act (Fin 2)))).map fun s =>
      decide ((s.thr 0).frame = .ret 0 ∧ (s.thr 1).frame = .ret (-EAGAIN))) = some true := by
    decide +kernel
  obtain ⟨s, hrun, h0, h1⟩ := exec_reaches h fun _ _ _ hb => hb
  obtain ⟨hvalue, -, -, -, hnone, hzero⟩ := sem_conserves hrun
  exact ⟨s, hrun, h0, h1, hvalue, hnone 1 _ h1 (.inl rfl), hzero 1 h1⟩

end

end LibNeoos.Semaphore
