import LibNeoos.Pthread.Invariant
/-!
# What `pthread_create` starts and `pthread_join` returns

`pthread_join` reaps the thread in the kernel first and looks up its slot by number
afterwards. Between the two the kernel may give the number to a new thread, and if
that has a lower slot the join returns the new thread's value and frees its slot
(`join_takes_wrong_slot`). If a number is not given again before the join that
reaped its thread has left the table, all is as it should be (`join_returns_result`).

The lemmas named `_good` are one for each function of the source: each of its steps
has an `Effect`, and leaves its thread sound.
-/

namespace LibNeoos.Pthread.Table

open Lib

section
variable {T : Type} [DecidableEq T] {t u : T} {m m' : Mem T} {p p' : Task T} {a : Act T}

/-! ## Looking up a slot -/

omit [DecidableEq T] in
theorem Task.job_create {q : CreatePoint} {thread attr : Ptr} {fn arg : Nat} (hf : p.frame = .create q)
    (hc : p.call = .create thread attr fn arg) : p.job m t ↔ q.job m t p fn arg := by
  simp only [Task.job, hf, hc]

omit [DecidableEq T] in
theorem Task.job_join {q : JoinPoint} {thread : Int} {retval : Ptr} (hf : p.frame = .join q)
    (hc : p.call = .join thread retval) : p.job m t ↔ q.job m p thread retval := by
  simp only [Task.job, hf, hc]

omit [DecidableEq T] in
/-- A slot that is being made has no number, except while its maker has the lock. -/
theorem Task.sound.maker_tid (h : p.sound m t) {i : Nat} (hi : m.holder i = .maker t) :
    (m.pt_slots i).tid = 0 ∨ p.frame.guard = .locked := by
  have hcl := (h.claims i).1 hi
  have hjob := h.job
  unfold Frame.claims at hcl
  split at hcl
  case h_1 hf => exact .inr (by rw [hf]; rfl)
  case h_6 => cases hcl
  all_goals
    rename_i hf
    cases hcl
    left
    cases hc : p.call with
    | join => simp [Task.job, hf, hc] at hjob
    | create thread attr fn arg =>
      rw [Task.job_create hf hc] at hjob
      first
        | exact hjob.tid (by decide)
        | exact hjob.2.2

omit [DecidableEq T] in
/-- A slot in use with the number of a thread that may be looked up is that thread's. -/
theorem Slots.found (hs : Slots m) (hn : Numbers m) {i : Nat}
    (hmk : ∀ v, m.holder i = .maker v → (m.pt_slots i).tid = 0)
    (hc : m.current u) (huse : (m.pt_slots i).in_use ≠ 0) (htid : (m.pt_slots i).tid = m.tid u) :
    m.holder i = .thread u := by
  have hpos := hn.pos u hc
  cases hh : m.holder i with
  | free => exact absurd (hs.free i hh) huse
  | maker v =>
    have := hmk v hh
    omega
  | thread v =>
    obtain ⟨-, -, -, hcv, h0 | hv⟩ := hs.thread i v hh
    · omega
    · rw [hn.one v u hcv hc (hv ▸ htid)]

omit [DecidableEq T] in
/-- The search does not go past the slot of a thread that has one. -/
theorem Mem.sought.pass {q : LookPoint} (h : m.sought u q) (hs : Slots m) (hnamed : m.given u ≠ none → ∃ i, m.named u i)
    (hq : (m.pt_slots q.index).in_use = 0 ∨ (m.pt_slots q.index).tid ≠ m.tid u) (hg : m.given u ≠ none) :
    ∃ i, m.named u i ∧ q.index + 1 ≤ i := by
  obtain ⟨i, hi⟩ := hnamed hg
  refine ⟨i, hi, ?_⟩
  have hle := h.ahead hg i hi.1.2.1
  have hne : q.index ≠ i := by
    intro he
    rw [he] at hq
    rcases hq with h0 | h0
    · have := (hs.thread i u hi.1.1).1
      omega
    · exact h0 hi.2
  omega

omit [DecidableEq T] in
/-- One step of the search, for the number of a thread that may be looked up. -/
theorem Mem.sought.search {q : LookPoint} (h : m.sought u q) (hs : Slots m)
    (hnamed : m.given u ≠ none → ∃ i, m.named u i)
    (hfound : ∀ i, (m.pt_slots i).in_use ≠ 0 → (m.pt_slots i).tid = m.tid u → m.holder i = .thread u) :
    (∀ q', slot_for_tid m.pt_slots (m.tid u) q = .inl q' → m.sought u q') ∧
    (∀ i, slot_for_tid m.pt_slots (m.tid u) q = .inr (some i) → m.named u i) ∧
    (slot_for_tid m.pt_slots (m.tid u) q = .inr none → m.given u = none) := by
  -- the search goes on behind a slot that is not the thread's
  have hon : (m.pt_slots q.index).in_use = 0 ∨ (m.pt_slots q.index).tid ≠ m.tid u →
      (q.index + 1 < PTHREAD_MAX → m.sought u (.in_use (q.index + 1))) ∧
      (¬ q.index + 1 < PTHREAD_MAX → m.given u = none) := by
    intro hq
    refine ⟨fun hlt => ⟨hlt, fun hg i hi => ?_, by simp⟩, fun hlt => ?_⟩
    · obtain ⟨j, hj, hle⟩ := h.pass hs hnamed hq hg
      rw [hj.1.2.1] at hi
      cases hi
      exact hle
    · by_contra hg
      obtain ⟨j, hj, hle⟩ := h.pass hs hnamed hq hg
      have := hj.1.2.2
      omega
  cases q with
  | in_use i =>
    simp only [slot_for_tid]
    split_ifs with h0 hlt
    · refine ⟨?_, by simp, by simp⟩
      rintro q' ⟨⟩
      refine ⟨h.range, h.ahead, ?_⟩
      rintro j ⟨⟩
      exact h0
    · refine ⟨?_, by simp, by simp⟩
      rintro q' ⟨⟩
      exact (hon (.inl (not_not.1 h0))).1 hlt
    · exact ⟨by simp, by simp, fun _ => (hon (.inl (not_not.1 h0))).2 hlt⟩
  | tid i =>
    simp only [slot_for_tid]
    split_ifs with h0 hlt
    · refine ⟨by simp, ?_, by simp⟩
      rintro j ⟨⟩
      have hh := hfound i (h.used i rfl) h0
      exact ⟨⟨hh, (hs.thread i u hh).2.1, h.range⟩, h0⟩
    · refine ⟨?_, by simp, by simp⟩
      rintro q' ⟨⟩
      exact (hon (.inr h0)).1 hlt
    · exact ⟨by simp, by simp, fun _ => (hon (.inr h0)).2 hlt⟩

/-! ## Threads in the program's calls -/

omit [DecidableEq T] in
/-- A thread in the program's code or in a function that will return to it. -/
def Task.atHome (m : Mem T) (t : T) (p : Task T) : Prop := m.life t = .alive ∧ p.runs = m.given t ∧ m.home t p.raw

omit [DecidableEq T] in
theorem Mem.home.congr {raw : Option Nat} (h : m.home t raw) (hslots : m'.pt_slots = m.pt_slots)
    (hholder : m'.holder = m.holder) (hslot : m'.slot = m.slot) (hgiven : m'.given = m.given) (htid : m'.tid = m.tid) :
    m'.home t raw := by
  cases raw with
  | none => exact (congrFun hgiven t).trans h
  | some i =>
    simp only [Mem.home, Mem.named, Mem.has, hslots, hholder, hslot, htid]
    exact h

omit [DecidableEq T] in
theorem Mem.home.hold {i : Nat} {x : Holder T} {raw : Option Nat} (h : m.home t raw) (hi : m.holder i ≠ .thread t) :
    (m.hold i x).home t raw := by
  cases raw with
  | none => exact h
  | some j =>
    obtain ⟨⟨hh, hs, hj⟩, htid⟩ := h
    have hji : j ≠ i := by
      rintro rfl
      exact hi hh
    exact ⟨⟨by simpa [Mem.hold, hji] using hh, hs, hj⟩, htid⟩

omit [DecidableEq T] in
theorem Mem.home.set {i : Nat} {f : pthread_slot → pthread_slot} {x : Holder T} {raw : Option Nat} (h : m.home t raw)
    (hi : m.holder i ≠ .thread t) : ((m.set i f).hold i x).home t raw := by
  cases raw with
  | none => exact h
  | some j =>
    obtain ⟨⟨hh, hs, hj⟩, htid⟩ := h
    have hji : j ≠ i := by
      rintro rfl
      exact hi hh
    have hset : (m.set i f).home t (some j) := ⟨⟨hh, hs, hj⟩, by simpa [Mem.set, hji] using htid⟩
    exact hset.hold hi

theorem Task.atHome.spawn {tid : Int} {raw : Option Nat} {given : Option (Nat × Nat)} (h : p.atHome m t)
    (hu : m.life u = .none) : p.atHome (m.spawn u tid raw given) t := by
  obtain ⟨hl, hruns, hhome⟩ := h
  have htu : t ≠ u := by
    rintro rfl
    rw [hl] at hu
    cases hu
  refine ⟨by simpa [Mem.spawn, htu] using hl, by simpa [Mem.spawn, htu] using hruns, ?_⟩
  cases hraw : p.raw with
  | none =>
    rw [hraw] at hhome
    simpa [Mem.home, Mem.spawn, htu] using hhome
  | some j =>
    rw [hraw] at hhome
    obtain ⟨⟨hh, hs, hj⟩, htid⟩ := hhome
    exact ⟨⟨hh, by simpa [Mem.spawn, htu] using hs, hj⟩, by simpa [Mem.spawn, htu] using htid⟩

omit [DecidableEq T] in
/-- A step that changes no memory and neither claims a slot nor ends a search. -/
theorem Task.sound.silent (hp : p.sound m t) (hself : p'.self m t) (hjob : p'.job m t)
    (hcl : p'.frame.claims = p.frame.claims) (hj : p'.frame.joining = p.frame.joining) (hr : p'.reaped = p.reaped) :
    p'.sound m t := by
  refine ⟨hself, hjob, fun i => ?_, fun v => ?_⟩
  · rw [hcl]
    exact hp.claims i
  · rw [hj, hr]
    exact hp.pending v

/-- A thread goes on in its call, and the memory stays as it is. -/
theorem Task.sound.keep {f f' : Frame} (hp : p.sound m t) (hf : p.frame = f) (hself : (p.goto f').self m t)
    (hjob : (p.goto f').job m t) (hcl : f'.claims = f.claims) (hj : f'.joining = f.joining) :
    Effect t m p a m ∧ (p.goto f').sound m t := by
  subst hf
  exact ⟨.keep rfl, hp.silent hself hjob hcl hj rfl⟩

omit [DecidableEq T] in
/-- A thread that is not in `pthread_join` after reaping is nobody's reaper. -/
theorem Task.sound.not_reaper (hp : p.sound m t) (hj : p.frame.joining = false) (v : T) : m.reaper v ≠ some t := by
  intro h0
  have := ((hp.pending v).1 h0).1
  rw [hj] at this
  cases this

omit [DecidableEq T] in
/-- A thread that is in `pthread_join` after reaping has reaped one thread. -/
theorem Task.sound.reaper_iff (hp : p.sound m t) (hj : p.frame.joining = true) (hu : p.reaped = some u) (v : T) :
    m.reaper v = some t ↔ v = u := by
  rw [hp.pending v, hj, hu]
  simp [eq_comm]

omit [DecidableEq T] in
/-- A thread that is not in `pthread_create` has claimed nothing. -/
theorem Task.sound.not_maker (hp : p.sound m t) (hcl : p.frame.claims = none) (i : Nat) : m.holder i ≠ .maker t := by
  intro h0
  have := (hp.claims i).1 h0
  rw [hcl] at this
  cases this

omit [DecidableEq T] in
/-- A thread in `pthread_create` has claimed no slot but its own. -/
theorem Task.sound.not_maker_of_ne {i j : Nat} (hp : p.sound m t) (hcl : p.frame.claims = some i) (hji : j ≠ i) :
    m.holder j ≠ .maker t := by
  intro h0
  have := (hp.claims j).1 h0
  rw [hcl] at this
  exact hji (Option.some.inj this).symm

/-! ## `pthread_create` -/

/-- What each of the stores does to the fields that are looked at. -/
theorem fill_fields (fn arg k : Nat) (s : pthread_slot) :
    (s.fill fn arg k).in_use = (if k = 0 then 1 else s.in_use) ∧ (s.fill fn arg k).tid = (if k = 1 then 0 else s.tid) ∧
    (s.fill fn arg k).start = (if k = 3 then fn else s.start) ∧
      (s.fill fn arg k).arg = (if k = 4 then arg else s.arg) := by
  unfold pthread_slot.fill
  split <;> simp_all

omit [DecidableEq T] in
/-- The next store into a new slot. -/
theorem Mem.filled.next {i fn arg k : Nat} (h : m.filled t i fn arg k) :
    ((m.set i (·.fill fn arg k)).hold i (.maker t)).filled t i fn arg (k + 1) := by
  obtain ⟨-, htid, hstart, harg⟩ := fill_fields fn arg k (m.pt_slots i)
  refine ⟨h.range, fun _ => by simp [Mem.hold], fun h1 => ?_, fun h1 => ?_, fun h1 => ?_⟩ <;>
    simp only [Mem.hold, Mem.set, Function.update_self]
  · rw [htid]
    split_ifs with h0
    · rfl
    · exact h.tid (by omega)
  · rw [hstart]
    split_ifs with h0
    · rfl
    · exact h.start (by omega)
  · rw [harg]
    split_ifs with h0
    · rfl
    · exact h.arg (by omega)

/-- A store into a slot that is free or has been claimed. -/
theorem fill_good {thread attr : Ptr} {i k fn arg : Nat} (hs : Slots m) (hp : p.sound m t)
    (hf : p.frame = .create (.fill i k)) (hc : p.call = .create thread attr fn arg) :
    Effect t m p a ((m.set i (·.fill fn arg k)).hold i (.maker t)) ∧
      (p.goto (.create (if k < 5 then .fill i (k + 1) else .unlock i))).sound
        ((m.set i (·.fill fn arg k)).hold i (.maker t)) t := by
  have hjob := hp.job
  rw [Task.job_create hf hc] at hjob
  obtain ⟨hk, hfilled, h0⟩ := hjob
  have hcl : ∀ j, m.holder j = .maker t ↔ k ≠ 0 ∧ j = i := by
    intro j
    rw [hp.claims j, hf]
    by_cases hk0 : k = 0 <;> simp [Frame.claims, hk0, eq_comm]
  have hholder : m.holder i = .free ∨ m.holder i = .maker t := by
    by_cases hk0 : k = 0
    · cases hh : m.holder i with
      | free => exact .inl rfl
      | maker v =>
        have := hs.maker i v hh
        have := h0 hk0
        omega
      | thread v =>
        have := (hs.thread i v hh).1
        have := h0 hk0
        omega
    · exact .inr ((hcl i).2 ⟨hk0, rfl⟩)
  have huse : ((m.pt_slots i).fill fn arg k).in_use = 1 := by
    rw [(fill_fields fn arg k _).1]
    split_ifs with hk0
    · rfl
    · exact hs.maker i t ((hcl i).2 ⟨hk0, rfl⟩)
  refine ⟨.fill i _ (by rw [hf]; rfl) hholder huse rfl, ?_, ?_, fun j => ?_, fun v => ?_⟩
  · have hself := hp.self
    simp only [Task.self, hf] at hself
    obtain ⟨hl, hruns, hhome⟩ := hself
    refine ⟨hl, hruns, hhome.set ?_⟩
    rcases hholder with hh | hh <;> simp [hh]
  · refine (Task.job_create (p := p.goto _) rfl hc).2 ?_
    split_ifs with hk5
    · exact ⟨hk5, hfilled.next, by simp⟩
    · obtain rfl : k = 5 := by omega
      exact hfilled.next
  · have hcl' : (p.goto (.create (if k < 5 then .fill i (k + 1) else .unlock i))).frame.claims = some i := by
      split_ifs <;> simp [Task.goto, Frame.claims]
    rw [hcl']
    by_cases hji : j = i
    · subst hji
      simp [Mem.hold]
    · have hno : m.holder j ≠ .maker t := fun hj => hji ((hcl j).1 hj).2
      simp [Mem.hold, Mem.set, hji, hno, Ne.symm hji]
  · have hno := hp.not_reaper (by rw [hf]; rfl) v
    have hj : (p.goto (.create (if k < 5 then .fill i (k + 1) else .unlock i))).frame.joining = false := by
      split_ifs <;> rfl
    rw [hj]
    simpa [Mem.hold, Mem.set] using hno

/-- The kernel makes the new thread, which has the slot from then on. -/
theorem spawn_good {thread attr : Ptr} {i fn arg : Nat} {tid : Int} (hp : p.sound m t)
    (hf : p.frame = .create (.thread_create i)) (hc : p.call = .create thread attr fn arg) (hhome : p.atHome m t)
    (hu : m.life u = .none) (hpos : 0 < tid) :
    Effect t m p (.created u tid) ((m.spawn u tid (some i) (some (fn, arg))).hold i (.thread u)) ∧
      ({ p.goto (.create (.store tid)) with made := some u } : Task T).sound
        ((m.spawn u tid (some i) (some (fn, arg))).hold i (.thread u)) t := by
  have hjob := hp.job
  rw [Task.job_create hf hc] at hjob
  have hh := hjob.claimed (by decide)
  refine ⟨.spawn u tid i fn arg hh hjob hu hpos rfl rfl, ?_, ?_, fun j => ?_, fun v => ?_⟩
  · have hspawn : p.atHome (m.spawn u tid (some i) (some (fn, arg))) t := hhome.spawn hu
    obtain ⟨hl, hruns, hhome⟩ := hspawn
    exact ⟨hl, hruns, hhome.hold (by simp [Mem.spawn, hh])⟩
  · simp only [Task.job, Task.goto, hc]
    exact ⟨u, rfl, by simp [Mem.hold, Mem.spawn], by simp [Mem.hold, Mem.spawn]⟩
  · by_cases hji : j = i
    · subst hji
      simp [Mem.hold, Task.goto, Frame.claims]
    · have hno := hp.not_maker_of_ne (by rw [hf]; rfl) hji
      simp [Mem.hold, Mem.spawn, Task.goto, Frame.claims, hji, hno]
  · have hno := hp.not_reaper (by rw [hf]; rfl) v
    simpa [Mem.hold, Mem.spawn, Task.goto, Frame.joining] using hno

/-- The thread was not made, and the slot is free again. -/
theorem unclaim_good {thread attr : Ptr} {i fn arg : Nat} {rc : Int} (hp : p.sound m t)
    (hf : p.frame = .create (.clear i rc)) (hc : p.call = .create thread attr fn arg) (hhome : p.atHome m t) :
    Effect t m p a ((m.set i ({ · with in_use := 0 })).hold i .free) ∧
      (p.goto (.create (.leave rc))).sound ((m.set i ({ · with in_use := 0 })).hold i .free) t := by
  have hjob := hp.job
  rw [Task.job_create hf hc] at hjob
  obtain ⟨hrc, hh, -⟩ := hjob
  obtain ⟨hl, hruns, hhome⟩ := hhome
  refine ⟨.unclaim i (by rw [hf]; rfl) hh rfl, ⟨hl, hruns, hhome.set (by simp [hh])⟩,
    (Task.job_create (p := p.goto _) rfl hc).2 hrc, fun j => ?_, fun v => ?_⟩
  · by_cases hji : j = i
    · subst hji
      simp [Mem.hold, Task.goto, Frame.claims]
    · have hno := hp.not_maker_of_ne (by rw [hf]; rfl) hji
      simp [Mem.hold, Mem.set, Task.goto, Frame.claims, hji, hno]
  · have hno := hp.not_reaper (by rw [hf]; rfl) v
    simpa [Mem.hold, Mem.set, Task.goto, Frame.joining] using hno

theorem create_good {thread attr : Ptr} {fn arg : Nat} {q : CreatePoint} (hs : Slots m) (hp : p.sound m t)
    (hf : p.frame = .create q) (hc : p.call = .create thread attr fn arg)
    (h : pthread_create t m p thread fn arg q a = some (m', p')) : Effect t m p a m' ∧ p'.sound m' t := by
  have hjob := hp.job
  rw [Task.job_create hf hc] at hjob
  have hhome : p.atHome m t := by
    have := hp.self
    simp only [Task.self, hf] at this
    exact this
  unfold pthread_create at h
  split at h
  case h_1 =>
    cases h
    exact hp.keep hf hhome ((Task.job_create (p := p.goto _) rfl hc).2 (show 0 < PTHREAD_MAX by decide)) rfl rfl
  case h_2 i =>
    split_ifs at h with h0 hi <;> cases h <;>
      refine hp.keep hf hhome ((Task.job_create (p := p.goto _) rfl hc).2 ?_) rfl rfl
    · exact ⟨by decide, ⟨hjob, by simp, by simp, by simp, by simp⟩, fun _ => h0⟩
    · exact hi
    · exact (show -EAGAIN ≠ 0 by decide)
  case h_3 i k =>
    cases h
    exact fill_good hs hp hf hc
  case h_4 i =>
    cases h
    exact hp.keep hf hhome ((Task.job_create (p := p.goto _) rfl hc).2 hjob) rfl rfl
  case h_5 i u tid =>
    split_ifs at h with hu
    cases h
    exact spawn_good hp hf hc hhome hu.1 hu.2
  case h_6 i rc =>
    split_ifs at h with hrc
    cases h
    refine hp.keep hf hhome ((Task.job_create (p := p.goto _) rfl hc).2 ?_) rfl rfl
    exact ⟨by omega, hjob.claimed (by decide), hjob.tid (by decide)⟩
  case h_7 i rc =>
    cases h
    exact hp.keep hf hhome ((Task.job_create (p := p.goto _) rfl hc).2 hjob) rfl rfl
  case h_8 i rc =>
    cases h
    exact unclaim_good hp hf hc hhome
  case h_9 rc =>
    cases h
    refine hp.keep hf hhome ?_ rfl rfl
    simp only [Task.job, Task.goto, hc]
    exact fun h0 => absurd h0 hjob
  case h_10 tid =>
    cases h
    refine ⟨.keep rfl, hp.silent hhome ?_ (by rw [hf]; rfl) (by rw [hf]; rfl) rfl⟩
    simp only [Task.job, Task.goto, hc]
    exact fun _ => hjob
  case h_11 => cases h

/-! ## `pthread_join` -/

omit [DecidableEq T] in
/-- A thread that has exited has left its result in its slot. -/
theorem Task.self.exited (h : p.self m u) (hl : m.life u = .exited) : m.done u := by
  unfold Task.self at h
  split at h
  case h_13 =>
    rcases h.2 with h | h
    · exact h.2
    · rw [hl] at h
      cases h
  all_goals simp_all

omit [DecidableEq T] in
/-- The slot of a thread that is done has its result. -/
theorem Mem.done.result {i : Nat} (h : m.done u) (hi : m.named u i) (hg : m.given u ≠ none) :
    m.result u = some (m.pt_slots i).retval := by
  obtain ⟨j, hj, hres⟩ := h hg
  have hs := hj.1.2.1
  rw [hi.1.2.1] at hs
  cases hs
  exact hres

/-- The kernel ends a `thread_join`. -/
theorem reap_good {thread : Int} {retval : Ptr} (hp : p.sound m t) (hf : p.frame = .join .thread_join)
    (hc : p.call = .join thread retval) (hhome : p.atHome m t) (hl : m.life u = .exited) (htid : m.tid u = thread)
    (hd : m.done u) : Effect t m p a (m.reap t u) ∧
      ({ p.goto (.join .lock) with reaped := some u } : Task T).sound (m.reap t u) t := by
  have hjob := hp.job
  rw [Task.job_join hf hc] at hjob
  obtain ⟨hlt, hruns, hhome⟩ := hhome
  have htu : t ≠ u := by
    rintro rfl
    rw [hl] at hlt
    cases hlt
  have hlt' : (m.reap t u).life t = .alive := by simpa [Mem.reap, htu] using hlt
  have hhome' : (m.reap t u).home t p.raw := hhome.congr rfl rfl rfl rfl rfl
  refine ⟨.reap u hl rfl, ⟨hlt', hruns, hhome'⟩, ?_, fun i => ?_, fun v => ?_⟩
  · simp only [Task.job, Task.goto, hc]
    exact ⟨u, ⟨rfl, by simp [Mem.reap], htid, hd, hjob.2⟩, hjob.1⟩
  · have hno := hp.not_maker (by rw [hf]; rfl) i
    simpa [Mem.reap, Task.goto, Frame.claims] using hno
  · have hno := hp.not_reaper (by rw [hf]; rfl) v
    by_cases hvu : v = u
    · subst hvu
      simp [Mem.reap, Task.goto, Frame.joining]
    · simpa [Mem.reap, Task.goto, Frame.joining, hvu, Ne.symm hvu] using hno

/-- The joiner frees the slot it has found. -/
theorem clear_good {thread : Int} {retval : Ptr} {i : Nat} (hp : p.sound m t) (hf : p.frame = .join (.clear i))
    (hc : p.call = .join thread retval) (hhome : p.atHome m t) :
    Effect t m p a (((m.set i ({ · with in_use := 0 })).hold i .free).leaves t) ∧
      ({ p.goto (.join .leave) with freed := p.freed ++ [m.holder i] } : Task T).sound
        (((m.set i ({ · with in_use := 0 })).hold i .free).leaves t) t := by
  have hjob := hp.job
  rw [Task.job_join hf hc] at hjob
  obtain ⟨u, ⟨hu, hl, htid, hd, hfreed⟩, hi, hgot⟩ := hjob
  obtain ⟨hlt, hruns, hhome⟩ := hhome
  have hut : u ≠ t := by
    rintro rfl
    rw [hl] at hlt
    cases hlt
  have hhome' : (((m.set i ({ · with in_use := 0 })).hold i .free).leaves t).home t p.raw :=
    Mem.home.congr (hhome.set (by simp [hi.1.1, hut])) rfl rfl rfl rfl rfl
  have hpend := hp.reaper_iff (by rw [hf]; rfl) hu
  refine ⟨.free i u (by rw [hf]; rfl) hpend hi.1.1 rfl, ⟨hlt, hruns, hhome'⟩, ?_, fun j => ?_, fun v => ?_⟩
  · simp only [Task.job, Task.goto, hc]
    exact ⟨u, hu, hl, htid, fun hg => ⟨_, hd.result hi hg, hgot, by simp [hfreed, hi.1.1]⟩⟩
  · have hno := hp.not_maker (by rw [hf]; rfl) j
    by_cases hji : j = i
    · subst hji
      simp [Mem.leaves, Mem.hold, Task.goto, Frame.claims]
    · simpa [Mem.leaves, Mem.hold, Mem.set, Task.goto, Frame.claims, hji] using hno
  · simp only [Mem.leaves, Mem.hold, Mem.set, Task.goto, Frame.joining]
    by_cases hv : m.reaper v = some t <;> simp [hv]

/-- The joiner has found no slot. -/
theorem forget_good {thread : Int} {retval : Ptr} (hp : p.sound m t) (hf : p.frame = .join .none)
    (hc : p.call = .join thread retval) (hhome : p.atHome m t) : Effect t m p a (m.leaves t) ∧
      ({ p.goto (.join .leave) with got := if retval ≠ .null then some 0 else p.got } : Task T).sound
        (m.leaves t) t := by
  have hjob := hp.job
  rw [Task.job_join hf hc] at hjob
  obtain ⟨u, hu, hg⟩ := hjob
  obtain ⟨hlt, hruns, hhome⟩ := hhome
  have hhome' : (m.leaves t).home t p.raw := hhome.congr rfl rfl rfl rfl rfl
  refine ⟨.forget u (hp.reaper_iff (by rw [hf]; rfl) hu.1) hg rfl, ⟨hlt, hruns, hhome'⟩, ?_, fun j => ?_, fun v => ?_⟩
  · simp only [Task.job, Task.goto, hc]
    exact ⟨u, hu.1, hu.2.1, hu.2.2.1, fun h0 => absurd hg h0⟩
  · have hno := hp.not_maker (by rw [hf]; rfl) j
    simpa [Mem.leaves, Task.goto, Frame.claims] using hno
  · simp only [Mem.leaves, Task.goto, Frame.joining]
    by_cases hv : m.reaper v = some t <;> simp [hv]

theorem join_good {thread : Int} {retval : Ptr} {q : JoinPoint} (hs : Slots m)
    (hfound : ∀ u, p.frame.guard = .locked → m.current u → ∀ i, (m.pt_slots i).in_use ≠ 0 →
      (m.pt_slots i).tid = m.tid u → m.holder i = .thread u)
    (hdone : ∀ u, m.life u = .exited → m.done u) (hp : p.sound m t) (hf : p.frame = .join q)
    (hc : p.call = .join thread retval) (h : pthread_join t m p thread retval q a = some (m', p')) :
    Effect t m p a m' ∧ p'.sound m' t := by
  have hjob := hp.job
  rw [Task.job_join hf hc] at hjob
  have hhome : p.atHome m t := by
    have := hp.self
    simp only [Task.self, hf] at this
    exact this
  unfold pthread_join at h
  split at h
  case h_1 u =>
    split_ifs at h with hu
    cases h
    exact reap_good hp hf hc hhome hu.1 hu.2 (hdone u hu.1)
  case h_2 rc =>
    split_ifs at h with hrc
    cases h
    refine hp.keep hf hhome ?_ rfl rfl
    simp only [Task.job, Task.goto, hc]
    exact fun h0 => absurd h0 hrc
  case h_3 =>
    cases h
    obtain ⟨u, hu, hgot⟩ := hjob
    refine hp.keep hf hhome ((Task.job_join (p := p.goto _) rfl hc).2 ?_) rfl rfl
    exact ⟨u, hu, hgot, ⟨show 0 < PTHREAD_MAX by decide, fun _ _ _ => Nat.zero_le _, by simp⟩⟩
  case h_4 q =>
    obtain ⟨u, hu, hgot, hq⟩ := hjob
    have hcur : m.current u := by
      have := (hp.pending u).2 ⟨by rw [hf]; rfl, hu.1⟩
      exact .inr (by simp [this])
    have hnamed : m.given u ≠ none → ∃ i, m.named u i := fun hg => by
      obtain ⟨i, hi, -⟩ := hu.2.2.2.1 hg
      exact ⟨i, hi⟩
    obtain ⟨h1, h2, h3⟩ := hq.search hs hnamed (hfound u (by rw [hf]; rfl) hcur)
    rw [hu.2.2.1] at h1 h2 h3
    split at h
    · rename_i q' hq'
      cases h
      refine hp.keep hf hhome ((Task.job_join (p := p.goto _) rfl hc).2 ?_) rfl rfl
      exact ⟨u, hu, hgot, h1 q' hq'⟩
    · rename_i i hi
      cases h
      refine hp.keep hf hhome ((Task.job_join (p := p.goto _) rfl hc).2 ?_) (by split_ifs <;> rfl)
        (by split_ifs <;> rfl)
      split_ifs with hret
      · exact ⟨u, hu, hret, h2 i hi⟩
      · exact ⟨u, hu, h2 i hi, by rw [if_neg hret]; exact hgot⟩
    · rename_i hnone
      cases h
      refine hp.keep hf hhome ((Task.job_join (p := p.goto _) rfl hc).2 ?_) rfl rfl
      exact ⟨u, hu, h3 hnone⟩
  case h_5 i =>
    cases h
    obtain ⟨u, hu, hret, hi⟩ := hjob
    refine ⟨.keep rfl, hp.silent hhome ?_ (by rw [hf]; rfl) (by rw [hf]; rfl) rfl⟩
    simp only [Task.job, Task.goto, hc]
    exact ⟨u, hu, hi, by rw [if_pos hret]⟩
  case h_6 i =>
    cases h
    exact clear_good hp hf hc hhome
  case h_7 =>
    cases h
    exact forget_good hp hf hc hhome
  case h_8 =>
    cases h
    refine hp.keep hf hhome ?_ rfl rfl
    simp only [Task.job, Task.goto, hc]
    exact fun _ => hjob
  case h_9 => cases h

/-! ## The trampoline and `pthread_exit` -/

omit [DecidableEq T] in
/-- A step of a thread that is in no call, to a place that is in none. -/
theorem Task.sound.own (hp : p.sound m t) (hself : p'.self m' t) (hjob : p'.job m' t) (hholder : m'.holder = m.holder)
    (hreaper : m'.reaper = m.reaper) (hcl : p.frame.claims = none ∧ p'.frame.claims = none)
    (hj : p.frame.joining = false ∧ p'.frame.joining = false) : p'.sound m' t := by
  refine ⟨hself, hjob, fun i => ?_, fun v => ?_⟩
  · rw [hholder, hcl.2]
    simpa using hp.not_maker hcl.1 i
  · rw [hreaper, hj.2]
    simpa using hp.not_reaper hj.1 v

omit [DecidableEq T] in
/-- A thread writes into its own slot. -/
theorem Mem.named.write {i : Nat} {f : pthread_slot → pthread_slot} (h : m.named t i)
    (htid : (f (m.pt_slots i)).tid = (m.pt_slots i).tid) : (m.set i f).named t i :=
  ⟨h.1, by simpa [Mem.set] using htid.trans h.2⟩

theorem trampoline_good {q : TrampPoint} (hp : p.sound m t) (hf : p.frame = .tramp q)
    (h : pthread_trampoline t m p q a = some (m', p')) : Effect t m p a m' ∧ p'.sound m' t := by
  have hself := hp.self
  have hcl : p.frame.claims = none := by rw [hf]; rfl
  have hj : p.frame.joining = false := by rw [hf]; rfl
  unfold pthread_trampoline at h
  split at h
  case h_1 i =>
    cases h
    simp only [Task.self, hf] at hself
    obtain ⟨hl, hruns, hh, hg⟩ := hself
    refine ⟨.write i _ hh.1 rfl (.inr rfl) rfl, hp.own ⟨hl, hruns, ⟨hh, by simp [Mem.set]⟩, ?_⟩
      trivial rfl rfl ⟨hcl, rfl⟩ ⟨hj, rfl⟩⟩
    simpa [Mem.set] using hg
  case h_2 i =>
    cases h
    simp only [Task.self, hf] at hself
    exact ⟨.keep rfl, hp.own hself trivial rfl rfl ⟨hcl, rfl⟩ ⟨hj, rfl⟩⟩
  case h_3 i fn =>
    cases h
    simp only [Task.self, hf] at hself
    obtain ⟨hl, -, hnamed, hg⟩ := hself
    exact ⟨.keep rfl, hp.own ⟨hl, hg.symm, hnamed⟩ trivial rfl rfl ⟨hcl, rfl⟩ ⟨hj, rfl⟩⟩
  case h_4 i r =>
    cases h
    simp only [Task.self, hf] at hself
    obtain ⟨hl, hruns, hnamed, hres⟩ := hself
    refine ⟨.write i _ hnamed.1.1 rfl (.inl rfl) rfl, hp.own ⟨hl, hruns, hnamed.write rfl, ?_⟩
      trivial rfl rfl ⟨hcl, rfl⟩ ⟨hj, rfl⟩⟩
    simpa [Mem.set] using hres
  case h_5 i =>
    cases h
    simp only [Task.self, hf] at hself
    obtain ⟨hl, hruns, hnamed, hres⟩ := hself
    refine ⟨.write i _ hnamed.1.1 rfl (.inl rfl) rfl, hp.own ⟨hl, hruns, fun _ => ⟨i, hnamed.write rfl, ?_⟩⟩
      trivial rfl rfl ⟨hcl, rfl⟩ ⟨hj, rfl⟩⟩
    simpa [Mem.set] using hres
  case h_6 => cases h

theorem exit_good {q : ExitPoint} (hs : Slots m)
    (hfound : p.frame.guard = .locked → m.current t → ∀ i, (m.pt_slots i).in_use ≠ 0 →
      (m.pt_slots i).tid = m.tid t → m.holder i = .thread t)
    (hp : p.sound m t) (hf : p.frame = .exit q) (h : pthread_exit t m p q a = some (m', p')) :
    Effect t m p a m' ∧ p'.sound m' t := by
  have hself := hp.self
  have hcl : p.frame.claims = none := by rw [hf]; rfl
  have hj : p.frame.joining = false := by rw [hf]; rfl
  unfold pthread_exit at h
  split at h
  case h_1 r =>
    cases h
    simp only [Task.self, hf] at hself
    obtain ⟨hl, hruns, hhome, hres⟩ := hself
    refine ⟨.keep rfl, hp.own ⟨hl, hruns, hhome, hres, ?_⟩ trivial rfl rfl ⟨hcl, rfl⟩ ⟨hj, rfl⟩⟩
    exact ⟨show 0 < PTHREAD_MAX by decide, fun _ _ _ => Nat.zero_le _, by simp⟩
  case h_2 q r =>
    simp only [Task.self, hf] at hself
    obtain ⟨hl, hruns, hhome, hres, hq⟩ := hself
    have hnamed : m.given t ≠ none → ∃ i, m.named t i := by
      intro hg
      cases hraw : p.raw with
      | none =>
        rw [hraw] at hhome
        exact absurd hhome hg
      | some i =>
        rw [hraw] at hhome
        exact ⟨i, hhome⟩
    have hcur : m.current t := .inl (by simp [Mem.unreaped, hl])
    obtain ⟨h1, h2, h3⟩ := hq.search hs hnamed (hfound (by rw [hf]; rfl) hcur)
    split at h
    · rename_i q' hq'
      cases h
      exact ⟨.keep rfl, hp.own ⟨hl, hruns, hhome, hres, h1 q' hq'⟩ trivial rfl rfl ⟨hcl, rfl⟩ ⟨hj, rfl⟩⟩
    · rename_i i hi
      cases h
      exact ⟨.keep rfl, hp.own ⟨hl, hruns, h2 i hi, hres⟩ trivial rfl rfl ⟨hcl, rfl⟩ ⟨hj, rfl⟩⟩
    · rename_i hnone
      cases h
      exact ⟨.keep rfl, hp.own ⟨hl, hruns, fun hg => absurd (h3 hnone) hg⟩ trivial rfl rfl ⟨hcl, rfl⟩ ⟨hj, rfl⟩⟩
  case h_3 i r =>
    cases h
    simp only [Task.self, hf] at hself
    obtain ⟨hl, hruns, hnamed, hres⟩ := hself
    refine ⟨.write i _ hnamed.1.1 rfl (.inl rfl) rfl, hp.own ⟨hl, hruns, hnamed.write rfl, ?_⟩
      trivial rfl rfl ⟨hcl, rfl⟩ ⟨hj, rfl⟩⟩
    simpa [Mem.set] using hres
  case h_4 i =>
    cases h
    simp only [Task.self, hf] at hself
    obtain ⟨hl, hruns, hnamed, hres⟩ := hself
    refine ⟨.write i _ hnamed.1.1 rfl (.inl rfl) rfl, hp.own ⟨hl, hruns, fun _ => ⟨i, hnamed.write rfl, ?_⟩⟩
      trivial rfl rfl ⟨hcl, rfl⟩ ⟨hj, rfl⟩⟩
    simpa [Mem.set] using hres
  case h_5 =>
    cases h
    simp only [Task.self, hf] at hself
    exact ⟨.keep rfl, hp.own hself trivial rfl rfl ⟨hcl, rfl⟩ ⟨hj, rfl⟩⟩
  case h_6 => cases h

/-! ## The program's code -/

omit [DecidableEq T] in
theorem Call.enter_job (c : Call) (hf : p.frame = c.enter) (hc : p.call = c) (hgot : p.got = none)
    (hfreed : p.freed = []) :
    p.job m t := by
  cases c with
  | create thread attr fn arg =>
    simp only [Call.enter] at hf
    split_ifs at hf <;> simp [Task.job, hf, hc, CreatePoint.job]
  | join thread retval =>
    simp only [Call.enter] at hf
    simp [Task.job, hf, hc, JoinPoint.job, hgot, hfreed]

theorem Call.enter_quiet (c : Call) : c.enter.claims = none ∧ c.enter.joining = false := by
  cases c <;> simp only [Call.enter] <;> (try split_ifs) <;> exact ⟨rfl, rfl⟩

omit [DecidableEq T] in
theorem Call.enter_self (c : Call) (hf : p.frame = c.enter) (h : p.atHome m t) : p.self m t := by
  cases c with
  | create thread attr fn arg =>
    simp only [Call.enter] at hf
    split_ifs at hf <;> (simp only [Task.self, hf]; exact h)
  | join thread retval =>
    simp only [Call.enter] at hf
    simp only [Task.self, hf]
    exact h

theorem program_good (hp : p.sound m t) (hf : p.frame = .user) (h : p.program t m a = some (m', p')) :
    Effect t m p a m' ∧ p'.sound m' t := by
  have hhome : p.atHome m t := by
    have := hp.self
    simp only [Task.self, hf] at this
    exact this
  have hcl : p.frame.claims = none := by rw [hf]; rfl
  have hj : p.frame.joining = false := by rw [hf]; rfl
  obtain ⟨hl, hruns, hraw⟩ := hhome
  unfold Task.program at h
  split at h
  · rename_i c
    cases h
    exact ⟨.keep rfl, hp.own (c.enter_self rfl ⟨hl, hruns, hraw⟩) (c.enter_job rfl rfl rfl rfl) rfl rfl
      ⟨hcl, c.enter_quiet.1⟩ ⟨hj, c.enter_quiet.2⟩⟩
  · rename_i r
    cases h
    have hraw' : (m.results t r).home t p.raw := hraw.congr rfl rfl rfl rfl rfl
    exact ⟨.results r rfl, hp.own ⟨hl, hruns, hraw', by simp [Mem.results]⟩ trivial rfl rfl ⟨hcl, rfl⟩ ⟨hj, rfl⟩⟩
  · rename_i r
    split at h
    · rename_i i hi
      cases h
      rw [hi] at hraw
      exact ⟨.results r rfl, hp.own ⟨hl, hruns, hraw, by simp [Mem.results]⟩ trivial rfl rfl ⟨hcl, rfl⟩ ⟨hj, rfl⟩⟩
    · rename_i hi
      cases h
      rw [hi] at hraw
      exact ⟨.keep rfl, hp.own ⟨hl, hruns, fun hg => absurd hraw hg⟩ trivial rfl rfl ⟨hcl, rfl⟩ ⟨hj, rfl⟩⟩
  · rename_i u tid
    split_ifs at h with hu
    cases h
    have hspawn : p.atHome (m.spawn u tid none none) t := Task.atHome.spawn ⟨hl, hruns, hraw⟩ hu.1
    exact ⟨.raw u tid hu.1 hu.2 rfl rfl, hp.own hspawn trivial rfl rfl ⟨hcl, rfl⟩ ⟨hj, rfl⟩⟩
  · cases h

theorem begin_good (hp : p.sound m t) (hf : p.frame = .unborn) (ha : a ≠ .tlsFails)
    (h : p.begin t m a = some (m', p')) :
    Effect t m p a m' ∧ p'.sound m' t := by
  have hself := hp.self
  simp only [Task.self, hf] at hself
  obtain ⟨hruns, hraw, hself⟩ := hself
  have hcl : p.frame.claims = none := by rw [hf]; rfl
  have hj : p.frame.joining = false := by rw [hf]; rfl
  unfold Task.begin at h
  split at h
  · rename_i i hl
    cases h
    have hslot : m.has t i ∧ m.given t = some ((m.pt_slots i).start, (m.pt_slots i).arg) := by
      rcases hself with h | ⟨h, -⟩ | ⟨j, h, hh, hg⟩ <;> rw [hl] at h <;> cases h
      exact ⟨hh, hg⟩
    exact ⟨.begin _ hl rfl, hp.own ⟨by simp [Mem.live], hruns, hslot.1, hslot.2⟩ trivial rfl rfl ⟨hcl, rfl⟩ ⟨hj, rfl⟩⟩
  · rename_i hl
    cases h
    have hg : m.given t = none := by
      rcases hself with h | ⟨-, hg⟩ | ⟨j, h, -⟩
      · rw [hl] at h
        cases h
      · exact hg
      · rw [hl] at h
        cases h
    have hhome : (m.live t .alive).home t p.raw := by rw [hraw]; exact hg
    exact ⟨.begin _ hl rfl, hp.own ⟨by simp [Mem.live], hruns.trans hg.symm, hhome⟩ trivial rfl rfl
      ⟨hcl, rfl⟩ ⟨hj, rfl⟩⟩
  · exact absurd rfl ha
  · cases h

/-! ## Runs -/

/-- The whole invariant. -/
structure Inv (s : Sys T) : Prop where
  numbers : Numbers s.mem.table
  slots : Slots s.mem.table
  sound : ∀ t, (s.thr t).sound s.mem.table t

/-- The thread that moves exists and has not been reaped. -/
theorem Task.outer_lives (hp : p.self m t) (h : p.outer t m a = some (m', p')) :
    m.life t ≠ .none ∧ m.life t ≠ .reaped := by
  unfold Task.self at hp
  split at hp
  case h_1 hf =>
    simp only [Task.outer, hf, Task.begin] at h
    split at h <;> simp_all
  case h_13 hf =>
    simp only [Task.outer, hf] at h
    cases h
  all_goals simp [hp.1]

theorem Task.outer_good (hn : Numbers m) (hs : Slots m) (hp : p.sound m t) (ha : a ≠ .tlsFails)
    (hmk : p.frame.guard = .locked → p.frame.claims = none → ∀ i v, m.holder i = .maker v → (m.pt_slots i).tid = 0)
    (hdone : ∀ u, m.life u = .exited → m.done u) (h : p.outer t m a = some (m', p')) :
    Effect t m p a m' ∧ p'.sound m' t := by
  unfold Task.outer at h
  split at h
  · exact begin_good hp ‹_› ha h
  · exact program_good hp ‹_› h
  · split at h
    · exact create_good hs hp ‹_› ‹_› h
    · cases h
  · rename_i q hf
    split at h
    · refine join_good hs (fun u hg hc i huse htid => ?_) hdone hp hf ‹_› h
      exact hs.found hn (hmk hg (by rw [hf]; rfl) i) hc huse htid
    · cases h
  · rename_i q hf
    refine exit_good hs (fun hg hc i huse htid => ?_) hp hf h
    exact hs.found hn (hmk hg (by rw [hf]; rfl) i) hc huse htid
  · exact trampoline_good hp ‹_› h
  · rename_i hf
    split_ifs at h
    cases h
    have hself := hp.self
    simp only [Task.self, hf] at hself
    obtain ⟨hl, hruns, hd⟩ := hself
    exact ⟨.finish hl rfl, hp.own ⟨hruns, .inl ⟨by simp [Mem.live], hd⟩⟩ trivial rfl rfl ⟨by rw [hf]; rfl, rfl⟩
      ⟨by rw [hf]; rfl, rfl⟩⟩
  · rename_i hf
    split_ifs at h
    cases h
    have hself := hp.self
    simp only [Task.self, hf] at hself
    exact ⟨.keep rfl, hp.own hself trivial rfl rfl ⟨by rw [hf]; rfl, rfl⟩ ⟨by rw [hf]; rfl, rfl⟩⟩
  · cases h

variable {main : T} {x : Int} {s s' : Sys T} {l : T × Act T} {ok : Sys T → T × Act T → Sys T → Prop}

/-- A step of a mutex function changes nothing that the invariant speaks of. -/
theorem Inv.mutex (hi : Inv s) {v : Use} (hm : s'.mem.table = s.mem.table)
    (hself : s'.thr t = { s.thr t with mtx := v }) (hother : ∀ u, u ≠ t → s'.thr u = s.thr u) : Inv s' := by
  refine ⟨hm ▸ hi.numbers, hm ▸ hi.slots, fun u => ?_⟩
  rw [hm]
  by_cases hut : u = t
  · subst hut
    rw [hself]
    exact ⟨(hi.sound u).self, (hi.sound u).job, (hi.sound u).claims, (hi.sound u).pending⟩
  · rw [hother u hut]
    exact hi.sound u

/-- A slot that is being made has no number when another thread has the lock. -/
theorem Inv.maker_tid (hi : Inv s) (hrun : Run step ok (start main x) s) (hg : (s.thr t).frame.guard = .locked)
    (hcl : (s.thr t).frame.claims = none) (i : Nat) (v : T) (hv : s.mem.table.holder i = .maker v) :
    (s.mem.table.pt_slots i).tid = 0 := by
  rcases (hi.sound v).maker_tid hv with h0 | hlocked
  · exact h0
  · have hvt := locked_unique hrun hlocked hg
    subst hvt
    exact absurd hv ((hi.sound v).not_maker hcl i)

/-- Every step keeps the invariant, if the kernel keeps the numbers of threads apart
and does not give one again while it may be looked up. -/
theorem Inv.step (hi : Inv s) (hrun : Run step ok (start main x) s) (hd : distinct s l) (hy : notYet s l)
    (htls : tlsWorks l) (hst : step s l = some s') : Inv s' := by
  rcases Task.move_cases (Conf.step_self hst) with ⟨v, -, hm, hself⟩ | ⟨-, hout, -⟩
  · exact hi.mutex hm hself fun u hu => Conf.step_other hst hu
  · have hp := hi.sound l.1
    have ha : l.2 ≠ .tlsFails := by
      intro h0
      simp [tlsWorks, h0] at htls
    obtain ⟨heff, hp'⟩ := Task.outer_good hi.numbers hi.slots hp ha (hi.maker_tid hrun)
      (fun u hu => (hi.sound u).self.exited hu) hout
    obtain ⟨hne, hnr⟩ := Task.outer_lives hp.self hout
    have hkeep := heff.keeps hi.numbers hne
    refine ⟨hi.numbers.step heff fun v hv => ?_, hi.slots.step hi.numbers heff, fun u => ?_⟩
    · rcases hv with hv | hv
      · exact hd v hv
      · exact hy v hv
    · by_cases hu : u = l.1
      · subst hu
        exact hp'
      · rw [Conf.step_other hst hu]
        refine (hi.sound u).keeps hkeep hi.numbers hu hnr fun hlocked => heff.in_use fun hg => ?_
        exact hu (locked_unique hrun hlocked hg)

theorem tlsFails_spec (h : p.outer t m .tlsFails = some (m', p')) :
    p.frame = .unborn ∧ (∃ raw, m.life t = .created raw) ∧ m' = m.live t .exited ∧ p' = p.goto .dead := by
  unfold Task.outer at h
  split at h
  · rename_i hf
    simp only [Task.begin] at h
    cases hl : m.life t with
    | created raw =>
      simp only [hl, Option.some.injEq, Prod.mk.injEq] at h
      exact ⟨hf, ⟨raw, rfl⟩, h.1.symm, h.2.symm⟩
    | _ => simp [hl] at h
  · simp [Task.program] at h
  · split at h
    · simp [pthread_create] at h
    · cases h
  · split at h
    · simp [pthread_join] at h
    · cases h
  · simp [pthread_exit] at h
  · simp [pthread_trampoline] at h
  · simp at h
  · simp at h
  · cases h

/-- A step outside the functions of the mutex, with the thread that moves set apart. -/
theorem step_at {k : Futex T} {f : T → Task T} (ho : p.mtx.outside = true) (h : p.outer t m a = some (m', p')) :
    step ⟨⟨k, m⟩, Function.update f t p⟩ (t, a) = some ⟨⟨k, m'⟩, Function.update f t p'⟩ := by
  simp [step, Conf.step, Task.move, ho, h]

/-- A thread of the program's own whose TLS fails is where it would be if it had
started and returned at once. -/
theorem raw_exits (hi : Inv s) (hg : s.mem.table.given t = none) (hst : step s (t, .tlsFails) = some s') :
    ∃ s1 s2, step s (t, .op .go) = some s1 ∧ step s1 (t, .ret 0) = some s2 ∧ step s2 (t, .op .go) = some s' := by
  have hself := (hi.sound t).self
  obtain ⟨⟨k, m⟩, f⟩ := s
  obtain ⟨p, hp⟩ : ∃ p, f t = p := ⟨_, rfl⟩
  rw [← Function.update_eq_self t f, hp] at hst ⊢
  simp only [hp] at hself hg
  obtain ⟨ho, ⟨m', p'⟩, hout⟩ : p.mtx.outside = true ∧ ∃ r, p.outer t m .tlsFails = some r := by
    obtain ⟨p', hm, -⟩ := Conf.step_some hst
    simp only [Function.update_self, Task.move] at hm
    split at hm
    · obtain ⟨r, hr, -⟩ := Option.map_eq_some_iff.1 hm
      exact ⟨‹_›, r, hr⟩
    · cases hm
  obtain ⟨hf, ⟨raw, hl⟩, rfl, rfl⟩ := tlsFails_spec hout
  obtain ⟨hraw, rfl⟩ : p.raw = none ∧ raw = none := by
    simp only [Task.self, hf] at hself
    obtain ⟨-, hraw, h0 | ⟨h0, -⟩ | ⟨i, -, -, hg'⟩⟩ := hself
    · cases hl.symm.trans h0
    · cases hl.symm.trans h0
      exact ⟨hraw, rfl⟩
    · cases hg.symm.trans hg'
  have h1 : p.outer t m (.op .go) = some (m.live t .alive, p.goto .user) := by
    simp [Task.outer, hf, Task.begin, hl]
  have h2 : (p.goto .user).outer t (m.live t .alive) (.ret 0) =
      some (m.live t .alive, (p.goto .user).goto .thread_exit) := by
    simp [Task.outer, Task.goto, Task.program, hraw]
  have h3 : ((p.goto .user).goto .thread_exit).outer t (m.live t .alive) (.op .go) =
      some (m.live t .exited, p.goto .dead) := by
    simp [Task.outer, Task.goto, Mem.live]
  -- none of the places is in a function of the mutex
  have hrest : ∀ f : Frame, f.guard = .off → (p.goto f).mtx.outside = true := by
    intro f hoff
    simp [Task.goto, hoff, Guard.entry, Use.outside]
  rw [← hst, step_at ho hout]
  exact ⟨_, _, step_at ho h1, step_at (hrest .user rfl) h2, step_at (hrest .thread_exit rfl) h3⟩

/-- Every step keeps the invariant also if the TLS of a thread that `pthread_create` has not
made cannot be set up. -/
theorem inv_step (hi : Inv s) (hrun : Run step ok (start main x) s) (hd : distinct s l) (hy : notYet s l)
    (htls : slotTlsWorks s l) (hst : step s l = some s') : Inv s' := by
  obtain ⟨t, a⟩ := l
  by_cases ha : a = .tlsFails
  · subst ha
    have hg : s.mem.table.given t = none := by
      by_contra hg
      exact htls hg
    obtain ⟨s1, s2, h1, h2, h3⟩ := raw_exits hi hg hst
    -- none of the three steps makes a thread
    have hkeep : ∀ {s s' : Sys T} {a : Act T}, Run step (fun _ _ _ => True) (start main x) s → Inv s → a.newTid = none →
        tlsWorks (t, a) → step s (t, a) = some s' → Inv s' := by
      intro s s' a hrun hi ha htls hst
      exact hi.step hrun (fun v _ => by simp [ha]) (fun v _ => by simp [ha]) htls hst
    have r0 : Run step (fun _ _ _ => True) (start main x) s := hrun.mono fun _ _ _ _ => trivial
    have r1 := r0.snoc trivial h1
    have i1 := hkeep r0 hi rfl (by trivial) h1
    have i2 := hkeep r1 i1 rfl (by trivial) h2
    exact hkeep (r1.snoc trivial h2) i2 rfl (by trivial) h3
  · refine hi.step hrun hd hy ?_ hst
    cases a <;> trivial

theorem inv_start (hx : 0 < x) : Inv (start main x) := by
  have hmain : ∀ v, (start main x).mem.table.current v → v = main := by
    rintro v (h | h)
    · by_contra hv
      simp [Mem.unreaped, start, hv] at h
    · simp [start] at h
  refine ⟨⟨fun _ _ => hx, fun u v hu hv _ => ?_, fun v hv => ?_⟩,
    ⟨fun _ _ => rfl, fun i v hv => ?_, fun i v hv => ?_⟩, fun t => ?_⟩
  · rw [hmain u hu, hmain v hv]
  · simp [start] at hv
  · simp [start] at hv
  · simp [start] at hv
  · by_cases ht : t = main
    · exact ⟨by simp [Task.self, start, ht, Mem.home], by simp [Task.job, start, ht], by simp [start, ht, Frame.claims],
        by simp [start, ht, Frame.joining]⟩
    · exact ⟨by simp [Task.self, start, ht], by simp [Task.job, start, ht], by simp [start, ht, Frame.claims],
        by simp [start, ht, Frame.joining]⟩

theorem run_inv (hx : 0 < x) (hok : ∀ s l s', ok s l s' → distinct s l ∧ notYet s l ∧ slotTlsWorks s l)
    (h : Run step ok (start main x) s) : Inv s := by
  refine h.inv_reach Inv (inv_start hx) ?_
  intro s l s' hrun hi hl hst
  obtain ⟨hd, hy, htls⟩ := hok s l s' hl
  exact inv_step hi hrun hd hy htls hst

omit [DecidableEq T] in
theorem Task.self.ran (h : p.self m t) {y : Nat × Nat} (hy : p.runs = some y) : m.given t = some y := by
  unfold Task.self at h
  split at h <;> simp_all

/-! ## The right thread's value -/

/-- In every run in which the kernel keeps the numbers of threads that have not been
reaped apart, does not give the number of a thread again before the `pthread_join`
that reaped it has left the table, and no thread made by `pthread_create` fails to
set up its TLS: a thread in the program's code runs what its `pthread_create` was given; a `pthread_create`
that returns 0 has made a thread with what it was given; and a `pthread_join` that
returns 0 for a thread made by `pthread_create` stores what that thread returned or
passed to `pthread_exit`, and frees that thread's slot and no other. -/
theorem join_returns_result (hx : 0 < x)
    (h : Run step (fun s l _ => distinct s l ∧ notYet s l ∧ slotTlsWorks s l) (start main x) s) :
    (∀ t, (s.thr t).frame = .user → (s.thr t).runs = s.mem.table.given t) ∧
    (∀ t y, (s.thr t).runs = some y → s.mem.table.given t = some y) ∧
    (∀ t thread attr fn arg, (s.thr t).call = .create thread attr fn arg → (s.thr t).frame = .ret 0 →
      ∃ u, (s.thr t).made = some u ∧ s.mem.table.given u = some (fn, arg) ∧ s.mem.table.life u ≠ .none) ∧
    (∀ t thread retval, (s.thr t).call = .join thread retval → (s.thr t).frame = .ret 0 →
      ∃ u, (s.thr t).reaped = some u ∧ s.mem.table.life u = .reaped ∧ s.mem.table.tid u = thread ∧
        (s.mem.table.given u ≠ none → ∃ r, s.mem.table.result u = some r ∧
          (s.thr t).got = (if retval ≠ .null then some r else none) ∧ (s.thr t).freed = [.thread u])) := by
  have hi := run_inv hx (fun _ _ _ hok => hok) h
  refine ⟨fun t hf => ?_, fun t y hy => (hi.sound t).self.ran hy, fun t thread attr fn arg hc hf => ?_,
    fun t thread retval hc hf => ?_⟩
  · have hself := (hi.sound t).self
    simp only [Task.self, hf] at hself
    exact hself.2.1
  · have hjob := (hi.sound t).job
    simp only [Task.job, hc, hf] at hjob
    exact hjob trivial
  · have hjob := (hi.sound t).job
    simp only [Task.job, hc, hf] at hjob
    exact hjob trivial

/-- Thread `t` does its next `n` operations, none of which leaves anything open. -/
def goes {N : Nat} (t : Fin N) (n : Nat) : List (Fin N × Act (Fin N)) := List.replicate n (t, .op .go)

/-- Thread `t` makes thread `u` with `pthread_create`, in slot `i`. -/
def creates {N : Nat} (t u : Fin N) (tid : Int) (i : Nat) : List (Fin N × Act (Fin N)) :=
  (t, .call (.create .obj .null 7 8)) :: goes t (i + 11) ++ (t, .created u tid) :: goes t 2

/-- Thread `t` runs its start routine, which returns `r`. -/
def returns {N : Nat} (t : Fin N) (r : Nat) : List (Fin N × Act (Fin N)) := goes t 4 ++ (t, .ret r) :: goes t 3

/-- A thread is made, returns 77, and is joined. -/
theorem join_returns_result_one : ∃ s : Sys (Fin 2),
    Run step (fun s l _ => distinct s l ∧ notYet s l ∧ slotTlsWorks s l) (start 0 1) s ∧ (s.thr 0).frame = .ret 0 ∧
    (s.thr 1).runs = some (7, 8) ∧ s.mem.table.given 1 = some (7, 8) ∧
    ∃ r, s.mem.table.result 1 = some r ∧ (s.thr 0).got = some r ∧ (s.thr 0).freed = [.thread 1] := by
  have h : ((exec step (fun s l => decide (distinct s l ∧ notYet s l ∧ slotTlsWorks s l)) (start 0 1 : Sys (Fin 2))
      (creates 0 1 2 0 ++ returns 1 77 ++ (0, .call (.join 2 .obj)) :: (0, .reap 1) :: goes 0 8)).map fun s =>
      decide ((s.thr 0).frame = .ret 0 ∧ (s.thr 0).call = .join 2 .obj ∧ (s.thr 0).reaped = some 1 ∧
        (s.thr 1).runs = some (7, 8))) = some true := by
    decide +kernel
  obtain ⟨s, hrun, hf, hc, hr, hruns⟩ := exec_reaches h fun _ _ _ hb => of_decide_eq_true hb
  obtain ⟨-, hran, -, hjoin⟩ := join_returns_result (by decide) hrun
  obtain ⟨u, hu, -, -, hret⟩ := hjoin 0 2 .obj hc hf
  have hgiven := hran 1 _ hruns
  obtain rfl : 1 = u := Option.some.inj (hr.symm.trans hu)
  obtain ⟨r, hres, hgot, hfreed⟩ := hret (by simp [hgiven])
  exact ⟨s, hrun, hf, hruns, hgiven, r, hres, hgot, hfreed⟩

/-- Threads 2 and 3 have slots 0 and 1, and thread 2 has been joined. Thread 3
returns 77, and the main thread reaps it in `pthread_join`; before it takes the lock,
thread 1 makes thread 4, which gets slot 0 and the number of thread 3. The join
returns 0 with the value 0, and has freed the slot of thread 4. -/
theorem join_takes_wrong_slot : ∃ s : Sys (Fin 5),
    Run step (fun s l _ => distinct s l ∧ tlsWorks l) (start 0 1) s ∧ (s.thr 0).frame = .ret 0 ∧
    (s.thr 0).call = .join 4 .obj ∧ (s.thr 0).reaped = some 3 ∧ s.mem.table.given 3 = some (7, 8) ∧
    s.mem.table.result 3 = some 77 ∧ (s.thr 0).got = some 0 ∧ (s.thr 0).freed = [.thread 4] := by
  have h : ((exec step (fun s l => decide (distinct s l ∧ tlsWorks l)) (start 0 1 : Sys (Fin 5))
      ((0, .created 1 2) :: goes 1 1 ++ creates 0 2 3 0 ++ creates 0 3 4 1 ++ returns 2 5 ++
        (0, .call (.join 3 .obj)) :: (0, .reap 2) :: goes 0 9 ++ returns 3 77 ++
        (0, .call (.join 4 .obj)) :: (0, .reap 3) :: creates 1 4 4 0 ++ goes 4 2 ++ goes 0 8)).map fun s =>
      decide ((s.thr 0).frame = .ret 0 ∧ (s.thr 0).call = .join 4 .obj ∧ (s.thr 0).reaped = some 3 ∧
        s.mem.table.given 3 = some (7, 8) ∧ s.mem.table.result 3 = some 77 ∧ (s.thr 0).got = some 0 ∧
        (s.thr 0).freed = [.thread 4])) = some true := by
    decide +kernel
  exact exec_reaches h fun _ _ _ hb => of_decide_eq_true hb

end

end LibNeoos.Pthread.Table
