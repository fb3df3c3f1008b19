import LibNeoos.Semaphore.Units
/-!
# No post of a semaphore is lost

While a thread sleeps, the value is at most the number of posts that have yet to
wake somebody plus the number of threads awake in the loop of a wait (`Heard`): a
`fetch_add` adds one of the former, a `futex_wake` makes of one of these one of
the latter, and who leaves the loop with a unit leaves one less.
-/

namespace LibNeoos.Semaphore

open Lib

section
variable {T : Type} [DecidableEq T] {v : Nat} {s s' : Sys T} {l : T × Act T}

/-! ## No post is lost -/

/-- The thread has posted a unit and has yet to call `futex_wake`. -/
def Thread.posting (p : Thread) : Bool := p.frame = .post .wake

/-- The thread is in the loop of `sem_wait_common`. -/
def Thread.inLoop (p : Thread) : Bool :=
  match p.frame with
  | .wait _ => true
  | _ => false

/-- The thread is in the loop and not asleep. -/
def awake (s : Sys T) (t : T) : Prop := (s.thr t).inLoop = true ∧ t ∉ s.mem.value.queue

instance (s : Sys T) : DecidablePred (awake s) := fun _ => inferInstanceAs (Decidable (_ ∧ _))

/-- The number of posts that have added a unit and not yet woken anybody. -/
def posting [Fintype T] (s : Sys T) : Nat := count fun t => (s.thr t).posting = true

/-- While a thread sleeps, there are at least as many that will wake one or are
awake in the loop as there are units. -/
structure Heard [Fintype T] (s : Sys T) : Prop where
  asleep : ∀ t ∈ s.mem.value.queue, (s.thr t).frame = .wait .asleep
  heard : s.mem.value.queue ≠ [] → s.mem.value.word ≤ posting s + count (awake s)

/-- Nobody else is put to sleep by a step, and nobody else loses the place it is at. -/
theorem step_others (hst : step s l = some s') {u : T} (hu : u ≠ l.1) :
    (u ∈ s'.mem.value.queue → u ∈ s.mem.value.queue) ∧ (awake s u → awake s' u) := by
  have hq : u ∈ s'.mem.value.queue → u ∈ s.mem.value.queue := by
    intro hq
    cases Thread.move_moves (Conf.step_self hst) with
    | sleep _ _ hm =>
      rw [hm] at hq
      rcases List.mem_append.1 hq with h | h
      · exact h
      · exact absurd (List.mem_singleton.1 h) hu
    | resume _ hm | timeout _ _ hm =>
      rw [hm] at hq
      exact Futex.leave_sublist.subset hq
    | wake ts _ _ hm =>
      rw [hm] at hq
      exact Futex.wake_sublist.subset hq
    | enter c _ hm | exit rc _ hm | tries q _ hm | looks q q' _ _ _ _ hm | take x _ _ hm | add _ hm =>
      rw [hm] at hq
      exact hq
  refine ⟨hq, fun h => ?_⟩
  rw [awake, Conf.step_other hst hu]
  exact ⟨h.1, fun h' => h.2 (hq h')⟩

variable [Fintype T]

/-- If the thread that moves is awake in the loop after the step or was not before, no fewer are. -/
theorem awake_mono (hst : step s l = some s') (hl : awake s l.1 → awake s' l.1) :
    count (awake s) ≤ count (awake s') := by
  refine count_mono fun u hu => ?_
  by_cases hul : u = l.1
  · subst hul
    exact hl hu
  · exact (step_others hst hul).2 hu

theorem posting_mono (hst : step s l = some s') (hl : (s.thr l.1).posting = true → (s'.thr l.1).posting = true) :
    posting s ≤ posting s' := by
  refine count_mono fun u hu => ?_
  by_cases hul : u = l.1
  · subst hul
    exact hl hu
  · rwa [Conf.step_other hst hul]

omit [Fintype T] in
/-- The thread that moves is asleep after the step only in its `futex_wait`. -/
theorem step_asleep (hi : ∀ t ∈ s.mem.value.queue, (s.thr t).frame = .wait .asleep) (hst : step s l = some s')
    (hq : l.1 ∈ s'.mem.value.queue) : (s'.thr l.1).frame = .wait .asleep := by
  have hself : ∀ {f : Frame}, (s.thr l.1).frame = f → f ≠ .wait .asleep → l.1 ∉ s.mem.value.queue :=
    fun hf hne hq => hne (hf ▸ hi _ hq)
  cases Thread.move_moves (Conf.step_self hst) with
  | sleep _ _ _ hp => rw [hp]
  | resume _ hm | timeout _ _ hm => simp [hm] at hq
  | wake ts hf _ hm =>
    rw [hm] at hq
    exact absurd (Futex.wake_sublist.subset hq) (hself hf (by simp))
  | looks q q' hf hne _ _ hm =>
    rw [hm] at hq
    exact absurd hq (hself hf (by simpa using hne))
  | take x hf _ hm =>
    rw [hm] at hq
    rcases hf with hf | hf <;> exact absurd hq (hself hf (by simp))
  | enter c hf hm | exit rc hf hm | tries q hf hm | add hf hm =>
    rw [hm] at hq
    exact absurd hq (hself hf (by simp))

omit [Fintype T] [DecidableEq T] in
/-- A thread that is not in the loop is not awake there. -/
theorem not_awake {u : T} {f : Frame} (hf : (s.thr u).frame = f) (hne : ∀ q, f ≠ .wait q) : ¬ awake s u := by
  rintro ⟨hl, -⟩
  unfold Thread.inLoop at hl
  split at hl
  · rename_i q hq
    exact hne q (hf.symm.trans hq)
  · cases hl

omit [Fintype T] [DecidableEq T] in
theorem not_posting {u : T} {f : Frame} (hf : (s.thr u).frame = f) (hne : f ≠ .post .wake) :
    (s.thr u).posting ≠ true := by
  simp [Thread.posting, hf, hne]

/-- The `fetch_add` of a post makes one more thread that has yet to wake somebody. -/
theorem posting_add (hst : step s l = some s') (hf : (s.thr l.1).posting ≠ true) (hp : (s'.thr l.1).posting = true) :
    posting s + 1 ≤ posting s' := by
  refine count_lt (fun u hu => ?_) hp hf
  by_cases hul : u = l.1
  · subst hul
    exact hp
  · rwa [Conf.step_other hst hul]

/-- A step that takes another sleeper off the queue makes one more thread awake. -/
theorem awake_wake (hi : Heard s) (hst : step s l = some s') (hself : ¬ awake s l.1) {u : T} (hul : u ≠ l.1)
    (hu : u ∈ s.mem.value.queue) (hu' : u ∉ s'.mem.value.queue) : count (awake s) + 1 ≤ count (awake s') := by
  have hloop : (s'.thr u).inLoop = true := by rw [Conf.step_other hst hul, Thread.inLoop, hi.asleep u hu]
  refine count_lt (fun x hx => ?_) (show awake s' u from ⟨hloop, hu'⟩) fun h => h.2 hu
  by_cases hxl : x = l.1
  · subst hxl
    exact absurd hx hself
  · exact (step_others hst hxl).2 hx

theorem Heard.step (hi : Heard s) (hn : 0 ≤ s.mem.value.word) (hb : belowMax s l = true) (hst : step s l = some s') :
    Heard s' := by
  refine ⟨fun u hu => ?_, fun hq => ?_⟩
  · by_cases hul : u = l.1
    · subst hul
      exact step_asleep hi.asleep hst hu
    · rw [Conf.step_other hst hul]
      exact hi.asleep u ((step_others hst hul).1 hu)
  -- a thread that is not in the loop, or not posting, is not missed there
  have hloop : ∀ {f : Frame}, (s.thr l.1).frame = f → (∀ q, f ≠ .wait q) → count (awake s) ≤ count (awake s') :=
    fun hf hne => awake_mono hst fun h => absurd h (not_awake hf hne)
  have hpost : ∀ {f : Frame}, (s.thr l.1).frame = f → f ≠ .post .wake → posting s ≤ posting s' :=
    fun hf hne => posting_mono hst fun h => absurd h (not_posting hf hne)
  cases Thread.move_moves (Conf.step_self hst) with
  | enter c hf hm | exit rc hf hm | tries q hf hm =>
    rw [hm] at hq ⊢
    have h1 := hi.heard hq
    have h2 := hloop hf (by simp)
    have h3 := hpost hf (by simp)
    omega
  | looks q q' hf _ _ _ hm hp =>
    have h2 := awake_mono hst fun h => ⟨by simp [Thread.inLoop, hp], by rw [hm]; exact h.2⟩
    have h3 := hpost hf (by simp)
    rw [hm] at hq ⊢
    have h1 := hi.heard hq
    omega
  | take x hf hx hm =>
    have hword : s'.mem.value.word = x - 1 := by rw [hm]
    have h1 := hi.heard (by simpa [hm] using hq)
    have h2 : count (awake s) ≤ count (awake s') + 1 := count_le_succ l.1 fun u hu => (step_others hst hu).2
    have h3 : posting s ≤ posting s' := by rcases hf with hf | hf <;> exact hpost hf (by simp)
    omega
  | sleep _ h0 hm =>
    have hword : s'.mem.value.word = 0 := by rw [hm]; exact h0
    omega
  | resume hf hm hp =>
    have hword : s'.mem.value.word = s.mem.value.word := by rw [hm]; rfl
    have h1 := hi.heard fun h => hq (by simp [hm, Futex.leave, h])
    have h2 := awake_mono hst fun _ => ⟨by simp [Thread.inLoop, hp], by simp [hm]⟩
    have h3 := hpost hf (by simp)
    omega
  | timeout hf htq hm =>
    have hword : s'.mem.value.word = s.mem.value.word := by rw [hm]; rfl
    have h1 := hi.heard fun h => hq (by simp [hm, Futex.leave, h])
    have h2 := awake_mono hst fun h => absurd htq h.2
    have h3 := hpost hf (by simp)
    omega
  | add hf hm hp =>
    have hword : s'.mem.value.word = s.mem.value.word + 1 := by
      have hmax : s.mem.value.word < INT_MAX := by simpa [belowMax, hf] using hb
      rw [hm]
      exact int32_of_range (by omega) (by simp at hmax; omega)
    have h1 := hi.heard (by simpa [hm] using hq)
    have h2 := hloop hf (by simp)
    have h3 := posting_add hst (not_posting hf (by simp)) (by simp [Thread.posting, hp])
    omega
  | wake ts hf hw hm =>
    have hword : s'.mem.value.word = s.mem.value.word := by rw [hm]; rfl
    obtain ⟨y, hy⟩ := List.exists_mem_of_ne_nil _ hq
    have hyq : y ∈ s.mem.value.queue := Futex.wake_sublist.subset (by rw [hm] at hy; exact hy)
    have h1 := hi.heard (List.ne_nil_of_mem hyq)
    -- the thread woken is one more that is awake
    obtain ⟨u, huts, huq⟩ := Futex.exists_woken hw Nat.one_pos hyq
    have hul : u ≠ l.1 := by
      rintro rfl
      have := hi.asleep _ huq
      rw [hf] at this
      cases this
    have h2 := awake_wake hi hst (not_awake hf (by simp)) hul huq (by simp [hm, huts])
    have h3 : posting s ≤ posting s' + 1 := count_le_succ l.1 fun x hx h => by rwa [Conf.step_other hst hx]
    omega

/-- In every run in which the value is never above `INT_MAX`, while a thread
sleeps on the semaphore the value is at most the number of posts that have yet to
call `futex_wake` plus the number of threads awake in the loop of a wait. So no
thread sleeps while there is a unit, no post is going on and no waiter is awake. -/
theorem sem_post_not_lost (h : Run step (fun s l _ => belowMax s l = true) (start v) s) :
    (∀ t ∈ s.mem.value.queue, s.mem.value.word ≤ posting s + count (awake s)) ∧
    (¬ ∃ t ∈ s.mem.value.queue, 0 < s.mem.value.word ∧ (∀ u, (s.thr u).posting = false) ∧ ∀ u, ¬ awake s u) := by
  have hi : Heard s := by
    refine h.inv_reach Heard ⟨by simp [start], by simp [start]⟩ ?_
    intro s l s' hrun hi hl hst
    exact hi.step (run_ledger (fun _ _ _ _ hl => hl) hrun).nonneg hl hst
  have hall : ∀ t ∈ s.mem.value.queue, s.mem.value.word ≤ posting s + count (awake s) :=
    fun t ht => hi.heard (List.ne_nil_of_mem ht)
  refine ⟨hall, ?_⟩
  rintro ⟨t, ht, hpos, hp, ha⟩
  have h0 : posting s = 0 := count_eq_zero.2 fun u => by simp [hp u]
  have h1 : count (awake s) = 0 := count_eq_zero.2 ha
  have := hall t ht
  omega

/-- Two threads sleep, and a post has added its unit. -/
theorem sem_post_not_lost_two : ∃ s : Sys (Fin 3), Run step (fun s l _ => belowMax s l = true) (start 0) s ∧
    s.mem.value = ⟨1, [0, 1]⟩ ∧ s.mem.value.word ≤ posting s + count (awake s) := by
  have h : ((exec step belowMax (start 0 : Sys (Fin 3))
      ([(0, .call (.wait .obj)), (0, .op .go), (0, .op .go), (1, .call (.timedwait_relative .obj .obj)), (1, .op .go),
        (1, .op .go), (2, .call (.post .obj)), (2, .op .go)] : List (Fin 3 × Act (Fin 3)))).map fun s =>
      decide (s.mem.value = ⟨1, [0, 1]⟩)) = some true := by
    decide +kernel
  obtain ⟨s, hrun, hq⟩ := exec_reaches h fun _ _ _ hb => hb
  exact ⟨s, hrun, hq, (sem_post_not_lost hrun).1 0 (by simp [hq])⟩

end

end LibNeoos.Semaphore
