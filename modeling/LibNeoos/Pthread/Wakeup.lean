import LibNeoos.Pthread.Cond
/-!
# No wake-up of the condition variable is lost

`seq` is the number of signals and broadcasts so far, modulo `2^32`. A waiter
falls asleep only if that number is the one it has read, unless it has wrapped
around in the meantime (`timely`). So those asleep are in the order of their
readings (`Stamped`), and a wake-up in the order of the queue first reaches those
that read `seq` before the signal; once one of them has left the queue, or if it
has not slept yet, it cannot sleep in that wait any more (`Past`).
-/

namespace LibNeoos.Pthread

open Lib

/-- The value of `seq` that the wait will compare with. -/
def Frame.saved : Frame → Option Int
  | .wait (.unlocking seq) | .wait (.wait seq) => some seq
  | _ => none

/-- The thread has read `seq`, and its `futex_wait` has not returned. -/
def Thread.parks (p : Thread) : Prop := p.frame.saved.isSome = true ∨ p.frame = .wait .asleep

/-- The thread has read `seq` in a wait, and has not returned from that wait. -/
def Thread.inWait (p : Thread) : Prop := ∃ q, p.frame = .wait q ∧ q ≠ .load

section
variable {T : Type} [DecidableEq T]

/-- How many threads a call wakes. -/
def Call.count (c : Call) : Nat := if c.broadcasts then 0x7FFFFFFF else 1

/-- Fewer than `2^32` signals and broadcasts come between a waiter's reading of
`seq` and its `futex_wait`. -/
def timely (s : Sys T) (l : T × Act T) : Bool :=
  match (s.thr l.1).frame with
  | .wait (.wait _) => s.mem.bumps - (s.thr l.1).readAt < 2 ^ 32
  | _ => true

/-- A signal or broadcast wakes those that have slept longest. -/
def inFifo (s : Sys T) (l : T × Act T) : Bool :=
  match (s.thr l.1).frame, l.2 with
  | .signal .wake, .op (.wake ts) => s.mem.cond.fifo (s.thr l.1).call.count ts
  | _, _ => true

def fair (s : Sys T) (l : T × Act T) : Bool := timely s l && inFifo s l

/-! ## What a step does to the condition variable -/

/-- All that a step can do to the condition variable and to a thread's wait. -/
inductive Thread.Waits (t : T) (m : Mem T) (p : Thread) (a : Act T) (m' : Mem T) (p' : Thread) : Prop
  | quiet : m'.cond = m.cond → m'.bumps = m.bumps → p'.waits = p.waits → p'.readAt = p.readAt →
      (∀ seq, p'.frame.saved = some seq → p.frame.saved = some seq) →
      (p'.frame = .wait .asleep ↔ p.frame = .wait .asleep) → Waits t m p a m' p'
  | load : m'.cond = m.cond → m'.bumps = m.bumps → p'.waits = p.waits + 1 → p'.readAt = m.bumps →
      p.frame = .wait .load → p'.frame = .wait (.unlocking m.cond.word) → Waits t m p a m' p'
  | sleep (seq : Int) : m'.cond = { m.cond with queue := m.cond.queue ++ [t] } → m'.bumps = m.bumps →
      p'.waits = p.waits → p'.readAt = p.readAt → p.frame = .wait (.wait seq) → m.cond.word = seq →
      p'.frame = .wait .asleep → Waits t m p a m' p'
  | leave (rc : Int) : m'.cond = m.cond.leave t → m'.bumps = m.bumps → p'.waits = p.waits → p'.readAt = p.readAt →
      p.frame = .wait .asleep → p'.frame = .wait (.locking rc) → Waits t m p a m' p'
  | bump : m'.cond = { m.cond with word := int32 (m.cond.word + 1) } → m'.bumps = m.bumps + 1 →
      p'.waits = p.waits → p'.readAt = p.readAt → p.frame = .signal .fetch_add → p'.frame = .signal .wake →
      Waits t m p a m' p'
  | wake (ts : List T) : m'.cond = m.cond.wake ts → m'.bumps = m.bumps → p'.waits = p.waits → p'.readAt = p.readAt →
      p.frame = .signal .wake → p'.frame = .ret 0 → a = .op (.wake ts) → m.cond.mayWake p.call.count ts = true →
      Waits t m p a m' p'

variable {t : T} {m m' : Mem T} {p p' : Thread} {a : Act T}

theorem Call.enter_saved (c : Call) : c.enter.1.saved = none ∧ c.enter.1 ≠ .wait .asleep := by
  cases c <;> simp only [Call.enter] <;> split_ifs <;> simp [Frame.saved]

theorem Thread.outer_waits {b : Choice T} (h : p.outer t m b = some (m', p')) : p.Waits t m (.op b) m' p' := by
  unfold Thread.outer at h
  split at h
  · cases h
  · rename_i hf
    split at h <;> cases h
    exact .quiet rfl rfl rfl rfl (by simp [Frame.saved]) (by simp [hf])
  · rename_i q hf
    obtain ⟨⟨c, f, pc⟩, h1, h2⟩ := Option.map_eq_some_iff.1 h
    cases h2
    unfold cond_wait_common at h1
    split at h1
    · cases h1
      exact .load rfl rfl rfl rfl hf rfl
    · cases h1
      exact .quiet rfl rfl rfl rfl (by simp [Frame.saved, hf]) (by simp [hf])
    · split at h1 <;> cases h1
      · obtain ⟨hw, rfl⟩ := Futex.wait_some ‹_›
        exact .sleep _ rfl rfl rfl rfl hf hw rfl
      · exact .quiet rfl rfl rfl rfl (by simp [Frame.saved]) (by simp [hf])
    · split at h1 <;> cases h1
      exact .quiet rfl rfl rfl rfl (by simp [Frame.saved]) (by simp [hf])
    · split at h1 <;> cases h1
      exact .leave _ rfl rfl rfl rfl hf rfl
    · cases h1
      exact .quiet rfl rfl rfl rfl (by simp [Frame.saved]) (by simp [hf])
    · cases h1
  · rename_i q hf
    obtain ⟨⟨c, f⟩, h1, h2⟩ := Option.map_eq_some_iff.1 h
    cases h2
    rcases signal_cases h1 with ⟨rfl, rfl, rfl⟩ | ⟨rfl, rfl, ts, rfl, hw, rfl⟩
    · exact .bump rfl rfl rfl rfl hf rfl
    · exact .wake ts rfl rfl rfl rfl hf rfl rfl hw
  · rename_i hf
    split at h <;> cases h
    exact .quiet rfl rfl rfl rfl (by simp [Frame.saved]) (by simp [hf])

theorem Thread.move_waits (h : p.move t m a = some (m', p')) : p.Waits t m a m' p' := by
  unfold Thread.move at h
  split at h
  · rename_i c
    split at h <;> cases h
    obtain ⟨h1, h2⟩ := c.enter_saved
    exact .quiet rfl rfl rfl rfl (by simp [h1]) ⟨fun h => absurd h h2, fun h => by simp_all⟩
  · split at h
    · exact Thread.outer_waits h
    · obtain ⟨⟨x, v⟩, h1, h2⟩ := Option.map_eq_some_iff.1 h
      cases h2
      exact .quiet rfl rfl rfl rfl (fun _ h => h) Iff.rfl

/-! ## The sleepers are in the order of their readings -/

/-- `seq` counts the signals and broadcasts, each waiter has the count of its
reading, and those asleep are in the order of these. -/
structure Stamped (s : Sys T) : Prop where
  word : s.mem.cond.word = int32 s.mem.bumps
  read : ∀ t, (s.thr t).readAt ≤ s.mem.bumps
  saved : ∀ t seq, (s.thr t).frame.saved = some seq → seq = int32 (s.thr t).readAt
  asleep : ∀ t ∈ s.mem.cond.queue, (s.thr t).frame = .wait .asleep
  nodup : s.mem.cond.queue.Nodup
  sorted : s.mem.cond.queue.Pairwise fun t u => (s.thr t).readAt ≤ (s.thr u).readAt

variable {s s' : Sys T} {l : T × Act T}

omit [DecidableEq T] in
/-- A waiter falls asleep only if nothing has happened since it read `seq`. -/
theorem Stamped.current (hi : Stamped s) (ht : timely s l = true) {seq : Int}
    (hf : (s.thr l.1).frame = .wait (.wait seq)) (hw : s.mem.cond.word = seq) : s.mem.bumps = (s.thr l.1).readAt := by
  have hseq := hi.saved l.1 seq (by rw [hf]; rfl)
  refine int32_inj ?_ (hi.read _) ?_
  · rw [← hi.word, hw, hseq]
  · simpa [timely, hf] using ht

/-- The sleepers after a step: those that were asleep have neither moved nor
read `seq` again. -/
theorem Stamped.sleepers (hi : Stamped s) (hst : step s l = some s') (hq : s'.mem.cond.queue.Sublist s.mem.cond.queue)
    (hl : l.1 ∈ s'.mem.cond.queue →
      (s'.thr l.1).frame = .wait .asleep ∧ (s'.thr l.1).readAt = (s.thr l.1).readAt) :
    (∀ t ∈ s'.mem.cond.queue, (s'.thr t).frame = .wait .asleep) ∧ s'.mem.cond.queue.Nodup ∧
      s'.mem.cond.queue.Pairwise fun t u => (s'.thr t).readAt ≤ (s'.thr u).readAt := by
  have same : ∀ t ∈ s'.mem.cond.queue, (s'.thr t).frame = .wait .asleep ∧ (s'.thr t).readAt = (s.thr t).readAt := by
    intro t ht
    by_cases htl : t = l.1
    · subst htl
      exact hl ht
    · rw [Conf.step_other hst htl]
      exact ⟨hi.asleep t (hq.subset ht), rfl⟩
  refine ⟨fun t ht => (same t ht).1, hq.nodup hi.nodup, (hi.sorted.sublist hq).imp_of_mem fun ht hu hle => ?_⟩
  rwa [(same _ ht).2, (same _ hu).2]

theorem Stamped.step (hi : Stamped s) (ht : timely s l = true) (hst : step s l = some s') : Stamped s' := by
  have other : ∀ t, t ≠ l.1 → s'.thr t = s.thr t := fun t ht => Conf.step_other hst ht
  -- the facts about single threads, given those about the one that moved
  have reads : s.mem.bumps ≤ s'.mem.bumps → (s'.thr l.1).readAt ≤ s'.mem.bumps →
    ∀ t, (s'.thr t).readAt ≤ s'.mem.bumps := by
    intro hle hl t
    by_cases htl : t = l.1
    · rwa [htl]
    · rw [other t htl]
      exact (hi.read t).trans hle
  have saves : (∀ seq, (s'.thr l.1).frame.saved = some seq → seq = int32 (s'.thr l.1).readAt) →
      ∀ t seq, (s'.thr t).frame.saved = some seq → seq = int32 (s'.thr t).readAt := by
    intro hl t seq h
    by_cases htl : t = l.1
    · subst htl
      exact hl seq h
    · rw [other t htl] at h ⊢
      exact hi.saved t seq h
  have awake : (s.thr l.1).frame ≠ .wait .asleep → l.1 ∉ s.mem.cond.queue := fun hf hq => hf (hi.asleep _ hq)
  cases Thread.move_waits (Conf.step_self hst) with
  | quiet hc hb _ hr hs ha =>
    obtain ⟨h1, h2, h3⟩ := hi.sleepers hst (by rw [hc]) fun hq => ⟨ha.2 (hi.asleep _ (hc ▸ hq)), hr⟩
    refine ⟨by rw [hc, hb, hi.word], reads hb.ge ?_, saves fun seq hseq => ?_, h1, h2, h3⟩
    · rw [hr, hb]
      exact hi.read _
    · rw [hr]
      exact hi.saved _ seq (hs seq hseq)
  | load hc hb _ hr hf hf' =>
    obtain ⟨h1, h2, h3⟩ := hi.sleepers hst (by rw [hc]) fun hq => absurd (hc ▸ hq) (awake (by simp [hf]))
    refine ⟨by rw [hc, hb, hi.word], reads hb.ge ?_, saves fun seq hseq => ?_, h1, h2, h3⟩
    · rw [hr, hb]
    · simp only [hf', Frame.saved, Option.some.injEq] at hseq
      rw [← hseq, hi.word, hr]
  | sleep seq hc hb _ hr hf hw hf' =>
    have hl : l.1 ∉ s.mem.cond.queue := awake (by simp [hf])
    have hcur := hi.current ht hf hw
    have same : ∀ t ∈ s.mem.cond.queue, s'.thr t = s.thr t := fun t ht => other t (by rintro rfl; exact hl ht)
    refine ⟨by rw [hc, hb]; exact hi.word, reads hb.ge (by rw [hr, hb]; exact hi.read _),
      saves fun seq hseq => by simp [hf', Frame.saved] at hseq, ?_, ?_, ?_⟩ <;> rw [hc]
    · intro t ht
      rcases List.mem_append.1 ht with ht | ht
      · rw [same t ht]
        exact hi.asleep t ht
      · rw [List.mem_singleton.1 ht]
        exact hf'
    · exact List.nodup_append.2 ⟨hi.nodup, by simp,
        fun t ht u hu => by rintro rfl; exact hl (List.mem_singleton.1 hu ▸ ht)⟩
    · refine List.pairwise_append.2 ⟨hi.sorted.imp_of_mem fun ht hu hle => ?_, by simp, fun t ht u hu => ?_⟩
      · rwa [same _ ht, same _ hu]
      · rw [List.mem_singleton.1 hu, same t ht, hr, ← hcur]
        exact hi.read t
  | leave rc hc hb _ hr hf hf' =>
    obtain ⟨h1, h2, h3⟩ := hi.sleepers hst (by rw [hc]; exact Futex.leave_sublist) fun hq => by simp [hc] at hq
    refine ⟨by rw [hc, hb, Futex.leave_word, hi.word], reads hb.ge ?_, saves fun seq hseq => ?_, h1, h2, h3⟩
    · rw [hr, hb]
      exact hi.read _
    · simp [hf', Frame.saved] at hseq
  | bump hc hb _ hr hf hf' =>
    obtain ⟨h1, h2, h3⟩ := hi.sleepers hst (by rw [hc]) fun hq => absurd (by simpa [hc] using hq) (awake (by simp [hf]))
    refine ⟨?_, reads (by omega) ?_, saves fun seq hseq => ?_, h1, h2, h3⟩
    · have hword : s'.mem.cond.word = int32 (s.mem.cond.word + 1) := by rw [hc]
      rw [hword, hi.word, int32_succ, hb, Int.natCast_succ]
    · have := hi.read l.1
      omega
    · simp [hf', Frame.saved] at hseq
  | wake ts hc hb _ hr hf hf' _ _ =>
    obtain ⟨h1, h2, h3⟩ := hi.sleepers hst (by rw [hc]; exact Futex.wake_sublist) fun hq =>
      absurd (Futex.wake_sublist.subset (hc ▸ hq)) (awake (by simp [hf]))
    refine ⟨by rw [hc, hb, Futex.wake_word, hi.word], reads hb.ge ?_, saves fun seq hseq => ?_, h1, h2, h3⟩
    · rw [hr, hb]
      exact hi.read _
    · simp [hf', Frame.saved] at hseq

theorem run_stamped (h : Run Pthread.step (fun s l _ => fair s l = true) start s) : Stamped s := by
  refine h.inv Stamped ?_ ?_
  · exact ⟨by simp [start, int32], fun _ => le_rfl, fun t seq h => by simp [start, Frame.saved] at h, by simp [start],
      by simp [start], by simp [start]⟩
  · intro s l s' hi hok hst
    exact hi.step (Bool.and_eq_true_iff.1 hok).1 hst

/-! ## A wait that a signal has passed -/

/-- More than `B` signals and broadcasts have come, and thread `t` read `seq` for
its `k`-th wait before the last of them. -/
structure Old (B : Nat) (t : T) (k : Nat) (s : Sys T) : Prop where
  bumps : B < s.mem.bumps
  waits : k ≤ (s.thr t).waits
  read : (s.thr t).waits = k → (s.thr t).readAt ≤ B

/-- Moreover the thread is not asleep in that wait. -/
structure Past (B : Nat) (t : T) (k : Nat) (s : Sys T) : Prop extends Old B t k s where
  awake : (s.thr t).waits = k → t ∉ s.mem.cond.queue

variable {B k : Nat} {t : T}

theorem step_bumps (hst : Pthread.step s l = some s') : s.mem.bumps ≤ s'.mem.bumps := by
  cases Thread.move_waits (Conf.step_self hst) <;> omega

/-- A thread's reading changes only when it begins a new wait. -/
theorem step_readAt (hst : Pthread.step s l = some s') (t : T) :
    ((s'.thr t).waits = (s.thr t).waits ∧ (s'.thr t).readAt = (s.thr t).readAt) ∨
      ((s'.thr t).waits = (s.thr t).waits + 1 ∧ (s'.thr t).readAt = s.mem.bumps) := by
  by_cases htl : t = l.1
  · subst htl
    cases Thread.move_waits (Conf.step_self hst) with
    | load _ _ hw hr => exact .inr ⟨hw, hr⟩
    | quiet _ _ hw hr => exact .inl ⟨hw, hr⟩
    | sleep _ _ _ hw hr => exact .inl ⟨hw, hr⟩
    | leave _ _ _ hw hr => exact .inl ⟨hw, hr⟩
    | bump _ _ hw hr => exact .inl ⟨hw, hr⟩
    | wake _ _ _ hw hr => exact .inl ⟨hw, hr⟩
  · rw [Conf.step_other hst htl]
    exact .inl ⟨rfl, rfl⟩

theorem Old.step (h : Old B t k s) (hst : Pthread.step s l = some s') : Old B t k s' := by
  refine ⟨h.bumps.trans_le (step_bumps hst), ?_, fun hk => ?_⟩
  · have := h.waits
    rcases step_readAt hst t with ⟨hw, -⟩ | ⟨hw, -⟩ <;> omega
  · have := h.waits
    rcases step_readAt hst t with ⟨hw, hr⟩ | ⟨hw, hr⟩
    · rw [hr]
      exact h.read (hw ▸ hk)
    · omega

/-- Nobody but the thread itself puts it to sleep, and it does so only if
nothing has happened since it read `seq`. -/
theorem step_asleep (hi : Stamped s) (ht : timely s l = true) (hst : Pthread.step s l = some s')
    (hq : t ∈ s'.mem.cond.queue) : t ∈ s.mem.cond.queue ∨ (t = l.1 ∧ s.mem.bumps = (s.thr t).readAt ∧
      (s'.thr t).waits = (s.thr t).waits) := by
  cases Thread.move_waits (Conf.step_self hst) with
  | quiet hc => exact .inl (hc ▸ hq)
  | load hc => exact .inl (hc ▸ hq)
  | sleep seq hc _ hw _ hf hword =>
    rw [hc] at hq
    rcases List.mem_append.1 hq with h | h
    · exact .inl h
    · obtain rfl := List.mem_singleton.1 h
      exact .inr ⟨rfl, hi.current ht hf hword, hw⟩
  | leave rc hc => exact .inl (Futex.leave_sublist.subset (hc ▸ hq))
  | bump hc => exact .inl (by simpa [hc] using hq)
  | wake ts hc => exact .inl (Futex.wake_sublist.subset (hc ▸ hq))

theorem Past.step (h : Past B t k s) (hi : Stamped s) (ht : timely s l = true) (hst : Pthread.step s l = some s') :
    Past B t k s' := by
  refine ⟨h.toOld.step hst, fun hk hq => ?_⟩
  have hw : (s.thr t).waits = k := by
    have := h.waits
    rcases step_readAt hst t with ⟨hw, -⟩ | ⟨hw, -⟩ <;> omega
  rcases step_asleep hi ht hst hq with hq | ⟨-, hcur, -⟩
  · exact h.awake hw hq
  · have := h.read hw
    have := h.bumps
    omega

theorem run_old {ok : Sys T → T × Act T → Sys T → Prop} (h : Old B t k s) (hrun : Run Pthread.step ok s s') :
    Old B t k s' :=
  hrun.inv (Old B t k) h fun _ _ _ hi _ hst => hi.step hst

theorem run_past (hi : Stamped s) (h : Past B t k s) (hrun : Run Pthread.step (fun s l _ => fair s l = true) s s') :
    Past B t k s' := by
  have both : Stamped s' ∧ Past B t k s' := by
    refine hrun.inv (fun s => Stamped s ∧ Past B t k s) ⟨hi, h⟩ ?_
    intro s l s' hi hok hst
    have ht := (Bool.and_eq_true_iff.1 hok).1
    exact ⟨hi.1.step ht hst, hi.2.step hi.1 ht hst⟩
  exact both.2

/-- A thread that is about to sleep or asleep was so before, unless it has just read `seq`. -/
theorem step_parks (hst : Pthread.step s l = some s') (hp : (s'.thr t).parks) :
    ((s.thr t).parks ∧ (s'.thr t).waits = (s.thr t).waits ∧ (s'.thr t).readAt = (s.thr t).readAt) ∨
      (s'.thr t).readAt = s.mem.bumps := by
  by_cases htl : t = l.1
  · subst htl
    cases Thread.move_waits (Conf.step_self hst) with
    | load _ _ _ hr => exact .inr hr
    | quiet _ _ hw hr hs ha =>
      refine .inl ⟨?_, hw, hr⟩
      rcases hp with hp | hp
      · obtain ⟨seq, hseq⟩ := Option.isSome_iff_exists.1 hp
        exact .inl (by rw [hs seq hseq]; rfl)
      · exact .inr (ha.1 hp)
    | sleep seq _ _ hw hr hf => exact .inl ⟨.inl (by rw [hf]; rfl), hw, hr⟩
    | leave _ _ _ _ _ _ hf' => simp [Thread.parks, hf', Frame.saved] at hp
    | bump _ _ _ _ _ hf' => simp [Thread.parks, hf', Frame.saved] at hp
    | wake _ _ _ _ _ _ hf' => simp [Thread.parks, hf', Frame.saved] at hp
  · rw [Conf.step_other hst htl] at hp ⊢
    exact .inl ⟨hp, rfl, rfl⟩

/-- Those that wait with an old reading have been in that wait all along. -/
theorem run_parks {ok : Sys T → T × Act T → Sys T → Prop} (hB : B < s.mem.bumps) (hrun : Run Pthread.step ok s s') :
    B < s'.mem.bumps ∧ ∀ t, (s'.thr t).parks → (s'.thr t).readAt ≤ B →
      (s.thr t).parks ∧ (s'.thr t).waits = (s.thr t).waits := by
  refine hrun.inv (fun x => B < x.mem.bumps ∧ ∀ t, (x.thr t).parks → (x.thr t).readAt ≤ B →
    (s.thr t).parks ∧ (x.thr t).waits = (s.thr t).waits) ⟨hB, fun t hp _ => ⟨hp, rfl⟩⟩ ?_
  rintro x l x' ⟨hx, hi⟩ - hst
  refine ⟨hx.trans_le (step_bumps hst), fun t hp hr => ?_⟩
  rcases step_parks hst hp with ⟨hp', hw, hr'⟩ | hr'
  · obtain ⟨h1, h2⟩ := hi t hp' (hr' ▸ hr)
    exact ⟨h1, hw.trans h2⟩
  · omega

/-! ## Signals and broadcasts -/

/-- The next operation of a signal or a broadcast. -/
theorem signal_step {b : Choice T} {q : SignalPoint} (hs : p.sound) (hf : p.frame = .signal q)
    (h : p.move t m (.op b) = some (m', p')) :
    p'.call = p.call ∧
      ((q = .fetch_add ∧ m'.bumps = m.bumps + 1 ∧ p'.frame = .signal .wake) ∨
        (q = .wake ∧ m'.bumps = m.bumps ∧ ∃ ts, b = .wake ts ∧ m'.cond = m.cond.wake ts)) := by
  have hpc : p.mtx.pc = .rest := by
    rw [Thread.sound, hf] at hs
    exact hs.1
  simp only [Thread.move, Use.outside, hpc, if_true, Thread.outer, hf] at h
  obtain ⟨⟨c, f⟩, h1, h2⟩ := Option.map_eq_some_iff.1 h
  cases h2
  rcases signal_cases h1 with ⟨rfl, -, rfl⟩ | ⟨rfl, -, ts, rfl, -, rfl⟩
  · exact ⟨rfl, .inl ⟨rfl, rfl, rfl⟩⟩
  · exact ⟨rfl, .inr ⟨rfl, rfl, ts, rfl, rfl⟩⟩

/-- A call of `pthread_cond_signal` or `pthread_cond_broadcast` by thread `c`,
from its `fetch_add` (in the state `s₁`) to its `futex_wake` (after which the
state is `s₄`), with any steps of other threads in between. -/
structure Signal (c : T) (s₁ s₄ : Sys T) : Prop where
  before : Run Pthread.step (fun s l _ => fair s l = true) start s₁
  adds : (s₁.thr c).frame = .signal .fetch_add
  rest : ∃ s₂ s₃ ts, Pthread.step s₁ (c, .op .go) = some s₂ ∧
    Run Pthread.step (fun s l _ => fair s l = true ∧ l.1 ≠ c) s₂ s₃ ∧
    fair s₃ (c, .op (.wake ts)) = true ∧ Pthread.step s₃ (c, .op (.wake ts)) = some s₄

/-- What the steps of a signal come to. -/
structure Passed (c : T) (s₁ s₃ s₄ : Sys T) : Prop where
  stamped : Stamped s₃
  stamped' : Stamped s₄
  frame : (s₃.thr c).frame = .signal .wake
  queue : s₄.mem.cond = s₃.mem.cond.wake (s₃.mem.cond.queue.take (s₁.thr c).call.count)
  others : ∀ t, t ≠ c → s₄.thr t = s₃.thr t
  old : ∀ t, Old s₁.mem.bumps t (s₁.thr t).waits s₃
  old' : ∀ t, Old s₁.mem.bumps t (s₁.thr t).waits s₄
  parks : ∀ t, (s₃.thr t).parks → (s₃.thr t).readAt ≤ s₁.mem.bumps →
    (s₁.thr t).parks ∧ (s₃.thr t).waits = (s₁.thr t).waits

/-- When `seq` has been added to, every reading so far is old. -/
theorem old_of_bump (hi : Stamped s) (hst : Pthread.step s l = some s') (hb : s'.mem.bumps = s.mem.bumps + 1) (t : T) :
    Old s.mem.bumps t (s.thr t).waits s' := by
  have hread := hi.read t
  rcases step_readAt hst t with ⟨hw, hr⟩ | ⟨hw, hr⟩
  · exact ⟨by omega, hw.ge, fun _ => hr ▸ hread⟩
  · exact ⟨by omega, by omega, fun _ => hr.le⟩

theorem Signal.passed {c : T} {s₁ s₄ : Sys T} (h : Signal c s₁ s₄) : ∃ s₃, Passed c s₁ s₃ s₄ := by
  obtain ⟨hrun, hf, s₂, s₃, ts, h12, h23, hfair, h34⟩ := h
  obtain ⟨hcall, ⟨-, hb, hf₂⟩ | ⟨hq, -⟩⟩ := signal_step (run_sound hrun c) hf (Conf.step_self h12)
  swap
  · cases hq
  have hrun₂ := hrun.snoc (show fair s₁ (c, .op .go) = true by simp [fair, timely, inFifo, hf]) h12
  have hrun₃ := hrun₂.trans (h23.mono fun _ _ _ h => h.1)
  -- the caller waits for its turn
  have hc : s₃.thr c = s₂.thr c :=
    h23.inv (fun s => s.thr c = s₂.thr c) rfl fun s l s' hs hok hst => by rw [Conf.step_other hst (Ne.symm hok.2), hs]
  have hf₃ : (s₃.thr c).frame = .signal .wake := by rw [hc, hf₂]
  obtain ⟨-, ⟨hq, -⟩ | ⟨-, -, ts', hts, hwake⟩⟩ := signal_step (run_sound hrun₃ c) hf₃ (Conf.step_self h34)
  · cases hq
  cases hts
  have hfifo : ts = s₃.mem.cond.queue.take (s₁.thr c).call.count := by
    have := (Bool.and_eq_true_iff.1 hfair).2
    simpa [inFifo, hc, hf₂, Futex.fifo, hcall] using this
  have hold := fun t => run_old (old_of_bump (run_stamped hrun) h12 hb t) h23
  refine ⟨s₃, run_stamped hrun₃, run_stamped (hrun₃.snoc hfair h34), hf₃, hfifo ▸ hwake,
    fun t ht => Conf.step_other h34 ht, hold, fun t => (hold t).step h34, fun t hp hr => ?_⟩
  obtain ⟨hp₂, hw⟩ := (run_parks (show s₁.mem.bumps < s₂.mem.bumps by omega) h23).2 t hp hr
  have htc : t ≠ c := by
    rintro rfl
    simp [Thread.parks, hf₂, Frame.saved] at hp₂
  rw [Conf.step_other h12 htc] at hp₂ hw
  exact ⟨hp₂, hw⟩

/-- A thread that is not asleep when the signal has been given does not sleep in
that wait any more. -/
theorem Passed.stays_awake {c : T} {s₁ s₃ s₄ : Sys T} (h : Passed c s₁ s₃ s₄)
    (ht : (s₄.thr t).waits = (s₁.thr t).waits → t ∉ s₄.mem.cond.queue)
    (hrun : Run Pthread.step (fun s l _ => fair s l = true) s₄ s) (hw : (s.thr t).waits = (s₁.thr t).waits) :
    t ∉ s.mem.cond.queue :=
  (run_past h.stamped' ⟨h.old' t, ht⟩ hrun).awake hw

/-- A broadcast leaves nobody asleep. -/
theorem Passed.broadcast [Fintype T] {c : T} {s₁ s₃ s₄ : Sys T} (h : Passed c s₁ s₃ s₄)
    (hT : Fintype.card T ≤ 2 ^ 31) (hc : (s₁.thr c).call.broadcasts = true) : s₄.mem.cond.queue = [] := by
  have hcq : c ∉ s₃.mem.cond.queue := by
    intro hq
    have := h.stamped.asleep c hq
    rw [h.frame] at this
    cases this
  have hlen : s₃.mem.cond.queue.length ≤ 0x7FFFFFFF := by
    have := (List.nodup_cons.2 ⟨hcq, h.stamped.nodup⟩).length_le_card
    rw [List.length_cons] at this
    omega
  rw [h.queue, Call.count, hc, if_pos rfl, List.take_of_length_le hlen]
  simp [Futex.wake]

/-- If one that read `seq` before the signal is still asleep, the signal wakes one of these. -/
theorem Passed.signal {c : T} {s₁ s₃ s₄ : Sys T} (h : Passed c s₁ s₃ s₄) (hc : (s₁.thr c).call.broadcasts = false)
    (hq : t ∈ s₃.mem.cond.queue) (hw : (s₃.thr t).waits = (s₁.thr t).waits) :
    ∃ u, (s₁.thr u).parks ∧ u ∉ s₄.mem.cond.queue := by
  have hsorted := h.stamped.sorted
  have hwake := h.queue
  rw [Call.count, hc] at hwake
  cases hqueue : s₃.mem.cond.queue with
  | nil => simp [hqueue] at hq
  | cons u rest =>
    -- the first of the queue has the oldest reading
    have hle : (s₃.thr u).readAt ≤ (s₃.thr t).readAt := by
      rw [hqueue] at hq hsorted
      rcases List.mem_cons.1 hq with rfl | hq
      · exact le_rfl
      · exact (List.pairwise_cons.1 hsorted).1 t hq
    have hu : (s₃.thr u).parks := .inr (h.stamped.asleep u (by simp [hqueue]))
    refine ⟨u, (h.parks u hu (hle.trans ((h.old t).read hw))).1, ?_⟩
    simp [hwake, hqueue]

end

theorem Thread.parks.inWait {p : Thread} (h : p.parks) : p.inWait := by
  rcases h with h | h
  · unfold Frame.saved at h
    split at h
    · exact ⟨_, ‹_›, by simp⟩
    · exact ⟨_, ‹_›, by simp⟩
    · cases h
  · exact ⟨_, h, by simp⟩

/-- A thread's number: `thread_t` is an `int`, and `thread_create` hands out no
negative one. -/
abbrev thread_t := Fin (2 ^ 31)

/-- When a broadcast has been given, no thread that read `seq` before its
`fetch_add` is asleep in that wait, then or later. When a signal has been given
and some thread had read `seq` before its `fetch_add` and was still in its wait,
then one of these, and one whose `futex_wait` had not returned if there was such a
one, is not asleep in that wait, then or later. -/
theorem cond_wakeup_not_lost {c : thread_t} {s₁ s₄ : Sys thread_t} (h : Signal c s₁ s₄) :
    ((s₁.thr c).call.broadcasts = true →
      ∀ t s, Run step (fun s l _ => fair s l = true) s₄ s → (s.thr t).waits = (s₁.thr t).waits → t ∉ s.mem.cond.queue) ∧
    ((s₁.thr c).call.broadcasts = false → ∀ t, (s₁.thr t).inWait →
      ∃ u, (s₁.thr u).inWait ∧ ((s₁.thr t).parks → (s₁.thr u).parks) ∧
        ∀ s, Run step (fun s l _ => fair s l = true) s₄ s → (s.thr u).waits = (s₁.thr u).waits →
          u ∉ s.mem.cond.queue) := by
  obtain ⟨s₃, hp⟩ := h.passed
  refine ⟨fun hc t s hrun hw => ?_, fun hc t ht => ?_⟩
  · have hempty := hp.broadcast (by rw [Fintype.card_fin]) hc
    exact hp.stays_awake (fun _ => by simp [hempty]) hrun hw
  · by_cases hq : ∃ x ∈ s₃.mem.cond.queue, (s₃.thr x).waits = (s₁.thr x).waits
    · obtain ⟨x, hx, hw⟩ := hq
      obtain ⟨u, hu, huq⟩ := hp.signal hc hx hw
      exact ⟨u, hu.inWait, fun _ => hu, fun s hrun hw => hp.stays_awake (fun _ => huq) hrun hw⟩
    · -- nobody sleeps in a wait that the signal has found
      refine ⟨t, ht, id, fun s hrun hw => hp.stays_awake (fun hw' htq => hq ⟨t, ?_, ?_⟩) hrun hw⟩
      · rw [hp.queue] at htq
        exact Futex.wake_sublist.subset htq
      · have htc : t ≠ c := by
          rintro rfl
          obtain ⟨q, hf, -⟩ := ht
          rw [h.adds] at hf
          cases hf
        rw [← hp.others t htc]
        exact hw'

/-- Thread 0 sleeps, thread 1 signals. -/
theorem cond_wakeup_not_lost_one : ∃ s₁ s₄ : Sys thread_t, Signal 1 s₁ s₄ ∧ 0 ∈ s₁.mem.cond.queue ∧
    ∃ u, (s₁.thr u).parks ∧ ∀ s, Run step (fun s l _ => fair s l = true) s₄ s →
      (s.thr u).waits = (s₁.thr u).waits → u ∉ s.mem.cond.queue := by
  have h : ((exec step fair (start : Sys thread_t)
      ([(0, .call (.lock .obj)), (0, .op .go), (0, .op .go), (0, .op .go), (0, .call (.cond_wait .obj .obj)),
        (0, .op .go), (0, .op .go), (0, .op .go), (0, .op .go), (1, .call (.cond_signal .obj))] :
          List (thread_t × Act thread_t))).map fun s => decide ((s.thr 1).frame = .signal .fetch_add ∧
        (s.thr 1).call = .cond_signal .obj ∧ (s.thr 0).frame = .wait .asleep ∧ 0 ∈ s.mem.cond.queue ∧
        ((step s (1, .op .go)).any fun s₂ => fair s₂ (1, .op (.wake [0])) &&
          (step s₂ (1, .op (.wake [0]))).isSome) = true)) = some true := by
    decide +kernel
  obtain ⟨s₁, hrun, hf, hcall, hf0, hq, hs⟩ := exec_reaches h fun _ _ _ hb => hb
  obtain ⟨s₂, h12, hs⟩ := (Option.any_eq_true _ _).1 hs
  obtain ⟨hfair, hs⟩ := Bool.and_eq_true_iff.1 hs
  obtain ⟨s₄, h24⟩ := Option.isSome_iff_exists.1 hs
  have hsig : Signal 1 s₁ s₄ := ⟨hrun, hf, s₂, s₂, [0], h12, .nil, hfair, h24⟩
  have hp : (s₁.thr 0).parks := .inr hf0
  obtain ⟨u, -, hu, hlater⟩ := (cond_wakeup_not_lost hsig).2 (by rw [hcall]; rfl) 0 hp.inWait
  exact ⟨s₁, s₄, hsig, hq, u, hu hp, hlater⟩

end LibNeoos.Pthread
