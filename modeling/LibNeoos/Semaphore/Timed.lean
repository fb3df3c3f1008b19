import LibNeoos.Semaphore.Range
/-!
# How long `sem_timedwait_relative` sleeps

The system of `Code` with the time that calls spend in futex waits. `pass t d` lets
thread `t` spend another `d` in the futex wait it is in; a wait with a timeout lasts at
most that timeout. `rel t k` is the timeout of the `k`-th call of thread `t`.

`sem_wait_common` passes the whole of `rel` to each futex wait, so a wait that ends
without the timeout and without a unit starts the time again (`timed_wait_restarts`).
A call sleeps no longer than asked if it goes on to a futex wait only when it has not
slept yet (`timed_wait_bounded`).
-/

namespace LibNeoos.Semaphore

open Lib

section
variable {T : Type}

/-- `now t` is the time that thread `t` has spent in its last futex wait, and `slept t`
in all those of its last call. -/
structure Clock (T : Type) where
  sys : Sys T
  slept : T → Nat := fun _ => 0
  now : T → Nat := fun _ => 0

inductive Tick (T : Type)
  | op (t : T) (a : Act T)
  | pass (t : T) (d : Nat)

/-- The thread is in `futex_wait` or `futex_wait_timeout`. -/
def Frame.inWait : Frame → Bool
  | .wait .wait | .wait .asleep => true
  | _ => false

variable [DecidableEq T]

/-- A call has not slept when it starts. -/
def Act.slept (t : T) (slept : T → Nat) : Act T → T → Nat
  | .call _ => Function.update slept t 0
  | .op _ => slept

def Clock.step (rel : T → Nat → Nat) (s : Clock T) : Tick T → Option (Clock T)
  | .op t a =>
    (Semaphore.step s.sys (t, a)).map fun sys =>
      { sys
        slept := a.slept t s.slept
        now := if (sys.thr t).frame = .wait .wait then Function.update s.now t 0 else s.now }
  | .pass t d =>
    let p := s.sys.thr t
    if p.frame.inWait = true ∧ (p.call.timed = true → s.now t + d ≤ rel t p.calls) then
      some { s with slept := Function.update s.slept t (s.slept t + d), now := Function.update s.now t (s.now t + d) }
    else none

/-- A thread in `sem_timedwait_relative` that goes on to its futex wait has not slept in this call. -/
def unslept (s : Clock T) : Tick T → Prop
  | .op t _ => (s.sys.thr t).call.timed = true → (s.sys.thr t).frame = .wait .load → s.sys.mem.value.word ≤ 0 →
      s.slept t = 0
  | .pass .. => True

instance (s : Clock T) : (l : Tick T) → Decidable (unslept s l)
  | .op .. => inferInstanceAs (Decidable (_ → _ → _ → _))
  | .pass .. => .isTrue trivial

variable {t : T} {m m' : Mem T} {p p' : Thread} {a : Act T} {rel : T → Nat → Nat} {s s' : Clock T}

/-! ## What a step does to the time -/

theorem Call.enter_inWait (c : Call) : c.enter.inWait = false := by
  cases c <;> simp only [Call.enter] <;> split_ifs <;> rfl

/-- A thread comes into a futex wait from the test of the value, or stays in it. -/
theorem inWait_cases (h : p.move t m a = some (m', p')) (hw : p'.frame.inWait = true) :
    (∃ b, a = .op b) ∧ p'.call = p.call ∧ p'.calls = p.calls ∧
    ((p'.frame = .wait .wait ∧ p.frame = .wait .load ∧ m.value.word ≤ 0) ∨
      (p'.frame = .wait .asleep ∧ p.frame = .wait .wait)) := by
  unfold Thread.move at h
  split at h
  · split at h <;> cases h
    rw [Call.enter_inWait] at hw
    cases hw
  · obtain ⟨⟨sem, f⟩, h1, h2⟩ := Option.map_eq_some_iff.1 h
    cases h2
    refine ⟨⟨_, rfl⟩, rfl, rfl, ?_⟩
    unfold Thread.op at h1
    split at h1
    · cases h1
    · unfold sem_trywait sem_trywait_test at h1
      split at h1 <;> (try split_ifs at h1) <;> cases h1 <;> cases hw
    · rename_i q hf
      unfold sem_wait_common at h1
      split at h1
      · cases h1
        split_ifs at hw ⊢ with h0
        · cases hw
        · exact .inl ⟨rfl, hf, by omega⟩
      · split at h1 <;> cases h1 <;> cases hw
      · cases h1
        cases hw
      · split at h1 <;> cases h1
        · exact .inr ⟨rfl, hf⟩
        · cases hw
      · split at h1 <;> cases h1
        cases hw
      · split at h1 <;> cases h1
        split_ifs at hw <;> cases hw
      · cases h1
    · unfold sem_post at h1
      split at h1 <;> (try split_ifs at h1) <;> cases h1 <;> cases hw
    · split_ifs at h1
      cases h1
      cases hw

/-- A call changes hands only when a thread makes one. -/
theorem move_op {b : Choice T} (h : p.move t m (.op b) = some (m', p')) : p'.call = p.call ∧ p'.calls = p.calls := by
  simp only [Thread.move] at h
  obtain ⟨r, -, h2⟩ := Option.map_eq_some_iff.1 h
  cases h2
  exact ⟨rfl, rfl⟩

/-! ## The time of a call -/

/-- A call with a timeout has slept no longer than that, and all of it in the futex wait it is in. -/
structure Clock.sound (rel : T → Nat → Nat) (s : Clock T) (t : T) : Prop where
  bound : s.slept t ≤ rel t (s.sys.thr t).calls
  wait : (s.sys.thr t).frame.inWait = true → s.slept t = s.now t

theorem Clock.step_sound {l : Tick T} (hi : ∀ t, (s.sys.thr t).call.timed = true → s.sound rel t) (hok : unslept s l)
    (hst : s.step rel l = some s') : ∀ t, (s'.sys.thr t).call.timed = true → s'.sound rel t := by
  intro u hu
  cases l with
  | pass t d =>
    simp only [Clock.step] at hst
    split_ifs at hst with hg
    cases hst
    by_cases hut : u = t
    · subst hut
      obtain ⟨hbound, hwait⟩ := hi u hu
      have hsl := hwait hg.1
      have hle := hg.2 hu
      refine ⟨?_, fun _ => ?_⟩
      · simp only [Function.update_self]
        omega
      · simp only [Function.update_self]
        omega
    · obtain ⟨hbound, hwait⟩ := hi u hu
      exact ⟨by simpa [hut] using hbound, by simpa [hut] using hwait⟩
  | op t a =>
    obtain ⟨sys, hsys, rfl⟩ := Option.map_eq_some_iff.1 hst
    by_cases hut : u = t
    · subst hut
      have hm := Conf.step_self hsys
      cases a with
      | call c =>
        refine ⟨by simp [Act.slept], fun hw => ?_⟩
        obtain ⟨⟨b, hb⟩, -⟩ := inWait_cases hm hw
        cases hb
      | op b =>
        obtain ⟨hcall, hcalls⟩ := move_op hm
        have hu0 : (s.sys.thr u).call.timed = true := hcall ▸ hu
        obtain ⟨hbound, hwait⟩ := hi u hu0
        refine ⟨by simpa [Act.slept, hcalls] using hbound, fun hw => ?_⟩
        obtain ⟨-, -, -, ⟨hf', hf, hle⟩ | ⟨hf', hf⟩⟩ := inWait_cases hm hw
        · have h0 := hok hu0 hf hle
          simp [Act.slept, hf', h0]
        · have h0 := hwait (by rw [hf]; rfl)
          simp [Act.slept, hf', h0]
    · have hthr : sys.thr u = s.sys.thr u := Conf.step_other hsys hut
      have hslept : a.slept t s.slept u = s.slept u := by
        cases a <;> simp [Act.slept, hut]
      have hnow : (if (sys.thr t).frame = .wait .wait then Function.update s.now t 0 else s.now) u = s.now u := by
        split_ifs <;> simp [hut]
      obtain ⟨hbound, hwait⟩ := hi u (hthr ▸ hu)
      refine ⟨?_, fun hw => ?_⟩
      · dsimp only
        rw [hslept, hthr]
        exact hbound
      · dsimp only
        rw [hslept, hnow]
        exact hwait (hthr ▸ hw)

theorem Clock.step_pass {d : Nat} (hw : (s.sys.thr t).frame.inWait = true)
    (hd : (s.sys.thr t).call.timed = true → s.now t + d ≤ rel t (s.sys.thr t).calls) :
    s.step rel (.pass t d) = some { s with
      slept := Function.update s.slept t (s.slept t + d), now := Function.update s.now t (s.now t + d) } :=
  if_pos ⟨hw, hd⟩

theorem load_waits (hf : p.frame = .wait .load) (hle : m.value.word ≤ 0) (h : p.move t m a = some (m', p')) :
    (∃ b, a = .op b) ∧ p' = { p with frame := .wait .wait } := by
  cases a with
  | call c => simp [Thread.move, hf] at h
  | op b =>
    refine ⟨⟨b, rfl⟩, ?_⟩
    cases b <;> simp [Thread.move, Thread.op, hf, sem_wait_common, not_lt.2 hle] at h
    exact h.2.symm

/-- After a futex wait that was not the last, the time of the next one comes on top. -/
theorem Clock.exceeds (hd : ¬ unslept s (.op t a)) (hst : s.step rel (.op t a) = some s') :
    ∃ d s'', s'.step rel (.pass t d) = some s'' ∧ (s''.sys.thr t).call.timed = true ∧
      rel t (s''.sys.thr t).calls < s''.slept t := by
  simp only [unslept, Classical.not_imp] at hd
  obtain ⟨htimed, hf, hle, hpos⟩ := hd
  obtain ⟨sys, hsys, rfl⟩ := Option.map_eq_some_iff.1 hst
  obtain ⟨⟨b, rfl⟩, hp⟩ := load_waits hf hle (Conf.step_self hsys)
  refine ⟨rel t (s.sys.thr t).calls, _, Clock.step_pass ?_ fun _ => ?_, ?_, ?_⟩
  · rw [hp]
    rfl
  · simp [hp]
  · simpa [hp] using htimed
  · simp only [hp, Act.slept, Function.update_self]
    omega

/-- In every run in which a call of `sem_timedwait_relative` goes on to a futex wait only
if it has not slept before: at every point, the time that such a call has spent in futex
waits is at most its timeout. A step that does not meet the condition can be followed by
a futex wait, no longer than its timeout, with which the call has slept longer. -/
theorem timed_wait_bounded {w : Int}
    (h : Run (Clock.step rel) (fun s l _ => unslept s l) ⟨holding w, fun _ => 0, fun _ => 0⟩ s) :
    (∀ t, (s.sys.thr t).call.timed = true → s.slept t ≤ rel t (s.sys.thr t).calls) ∧
    ∀ t a s', s.step rel (.op t a) = some s' → ¬ unslept s (.op t a) →
      ∃ d s'', s'.step rel (.pass t d) = some s'' ∧ (s''.sys.thr t).call.timed = true ∧
        rel t (s''.sys.thr t).calls < s''.slept t := by
  have hinv : ∀ t, (s.sys.thr t).call.timed = true → s.sound rel t := by
    refine h.inv (fun s => ∀ t, (s.sys.thr t).call.timed = true → s.sound rel t) (fun t ht => ?_) ?_
    · cases ht
    · intro s l s' hi hok hst
      exact Clock.step_sound hi hok hst
  exact ⟨fun t ht => (hinv t ht).bound, fun t a s' hst hd => Clock.exceeds hd hst⟩

end

/-- A call with the timeout 10 sleeps for 10 and times out. -/
theorem timed_wait_bounded_once : ∃ s : Clock (Fin 1),
    Run (Clock.step fun _ _ => 10) (fun s l _ => unslept s l) ⟨holding 0, fun _ => 0, fun _ => 0⟩ s ∧
    (s.sys.thr 0).frame = .ret (-ETIMEDOUT) ∧ s.slept 0 = 10 ∧ s.slept 0 ≤ 10 := by
  have h : ((exec (Clock.step fun _ _ => 10) (fun s l => decide (unslept s l))
      (⟨holding 0, fun _ => 0, fun _ => 0⟩ : Clock (Fin 1))
      [.op 0 (.call (.timedwait_relative .obj .obj)), .op 0 (.op .go), .op 0 (.op .go), .pass 0 10,
        .op 0 (.op (.resume .timeout))]).map fun s =>
      decide ((s.sys.thr 0).frame = .ret (-ETIMEDOUT) ∧ (s.sys.thr 0).call.timed = true ∧ s.slept 0 = 10)) =
      some true := by
    decide +kernel
  obtain ⟨s, hrun, hf, ht, hs⟩ := exec_reaches h fun _ _ _ hb => of_decide_eq_true hb
  exact ⟨s, hrun, hf, hs, (timed_wait_bounded hrun).1 0 ht⟩

/-- A call with the timeout 10 sleeps for 6, is woken for no reason, finds no unit and
sleeps for another 5. -/
theorem timed_wait_restarts : ∃ s : Clock (Fin 1),
    Run (Clock.step fun _ _ => 10) (fun _ _ _ => True) ⟨holding 0, fun _ => 0, fun _ => 0⟩ s ∧
    (s.sys.thr 0).call = .timedwait_relative .obj .obj ∧ (s.sys.thr 0).frame = .wait .asleep ∧ s.slept 0 = 11 := by
  have h : ((exec (Clock.step fun _ _ => 10) (fun _ _ => true) (⟨holding 0, fun _ => 0, fun _ => 0⟩ : Clock (Fin 1))
      [.op 0 (.call (.timedwait_relative .obj .obj)), .op 0 (.op .go), .op 0 (.op .go), .pass 0 6,
        .op 0 (.op (.resume .woken)), .op 0 (.op .go), .op 0 (.op .go), .pass 0 5]).map fun s =>
      decide ((s.sys.thr 0).call = .timedwait_relative .obj .obj ∧ (s.sys.thr 0).frame = .wait .asleep ∧
        s.slept 0 = 11)) = some true := by
    decide +kernel
  exact exec_reaches h fun _ _ _ _ => trivial

end LibNeoos.Semaphore
