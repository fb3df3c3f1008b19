import LibNeoos.Dirent.Steps
/-!
# What the streams do

Calls made one after another never work on one slot at a time, so the slots are
in order in every state of such a run: each stream lists its directory, and no
call touches a stream it does not work on. With calls at the same time that
holds while nobody begins to work on a slot in use by another call; the code
does not see to that, and two calls of `opendir` can return one slot.
-/

namespace LibNeoos.Dirent

open Lib

namespace Agree
variable {T : Type} {m m' : Mem} {thr thr' : T → Frame} {φ : Slot → Phase} {t : T} {i : Slot}

/-- The slot of an open stream is open, with that stream. -/
theorem live_of_mem (h : Agree m thr φ) {st : Stream} (hst : st ∈ m.streams) : φ st.slot = .live st := by
  have hmem : st ∈ m.streams.filter (·.slot = st.slot) := List.mem_filter.2 ⟨hst, by simp⟩
  rw [h.streams] at hmem
  cases hφ : φ st.slot with
  | live st' =>
    rw [hφ] at hmem
    rw [List.mem_singleton.1 hmem]
  | _ =>
    rw [hφ] at hmem
    cases hmem

/-- Two open streams have different slots. -/
theorem slots_nodup (h : Agree m thr φ) : (m.streams.map (·.slot)).Nodup := by
  refine List.nodup_iff_count_le_one.2 ?_
  intro i
  have hcount : (m.streams.map (·.slot)).count i = (m.streams.filter (·.slot = i)).length := by
    rw [List.count, List.countP_map, List.countP_eq_length_filter]
    rfl
  rw [hcount, h.streams i]
  cases φ i <;> simp [Phase.streams]

end Agree

/-! ## What the calls return -/

def Frame.reading : Frame → Bool
  | .read _ => true
  | .refill _ => true
  | _ => false

/-- The points of `opendir` from the choice of its slot on. -/
def Frame.inOpendir : Frame → Bool
  | .opening _ => true
  | .first .. => true
  | .reject .. => true
  | .fill .. => true
  | _ => false

theorem Frame.phase_of_inOpendir {f : Frame} {i : Slot} (hf : f.inOpendir = true) (hi : f.slot = some i) :
    ∃ q, f.phase = some (i, q) ∧ ∀ st, q ≠ .live st := by
  cases f with
  | opening | first | reject | fill =>
    cases hi
    exact ⟨_, rfl, by simp⟩
  | _ => cases hf

/-- What a step does to the record of the open streams: an `opendir` that returns a slot adds
its stream, a `readdir` that returns `e` adds `e` to the log of its slot, a `closedir` takes
its stream off, and no other step changes it. -/
inductive Records (m : Mem) (p : Frame) (m' : Mem) (p' : Frame) : Prop
  | opens {i : Slot} {fd : Int} {dir : List Record} {first : List UInt8} {n : Nat} :
      p = .fill i fd dir first n → p' = .done (.opened (some i)) →
      m'.streams = m.streams ++ [{ slot := i, fd := fd, dir := dir, first := first }] → Records m p m' p'
  | reads {i : Slot} {e : Option (List UInt8)} {g : Stream → Stream} :
      p = .refill i ∨ p = .read i ∧ (m.dirs i).in_use = true → p' = .done (.read e) →
      m'.streams = (m.onStream i g).streams →
      (∀ st, (g st).slot = st.slot ∧ (g st).fd = st.fd ∧ (g st).dir = st.dir ∧ (g st).log = st.log ++ [e]) →
      Records m p m' p'
  | closes {i : Slot} : p = .loadFd i → (∀ r, p' ≠ .done r) → m'.streams = m.streams.filter (·.slot ≠ i) →
      Records m p m' p'
  | same : m'.streams = m.streams → (∀ i, p' ≠ .done (.opened (some i))) →
      (∀ e, p.reading = true → p' = .done (.read e) → ∃ i, p = .read i ∧ (m.dirs i).in_use = false ∧ e = none) →
      Records m p m' p'

section
variable {m m' : Mem} {p p' : Frame} {a : Act}

/-- A step outside `readdir` that leaves the streams alone and is not the last of an `opendir`. -/
theorem Records.outside (hp : p.reading = false) (hstreams : m'.streams = m.streams)
    (hdone : ∀ i, p' ≠ .done (.opened (some i))) : Records m p m' p' := by
  refine .same hstreams hdone fun e hread => ?_
  rw [hp] at hread
  cases hread

theorem enter_records (h : enter p a = some p') : Records m p m p' := by
  unfold enter at h
  split at h
  · rename_i hrest
    refine .outside (by cases p <;> first | rfl | cases hrest) rfl ?_
    rintro i rfl
    split at h <;> cases h
  · cases h

theorem opendir_records (h : opendir m p a = some (m', p')) : Records m p m' p' := by
  unfold opendir at h
  split at h
  · split at h
    · split at h <;> cases h <;> exact .outside rfl rfl (by simp)
    · cases h
      exact .outside rfl rfl (by simp)
  · split at h <;> cases h
    exact .outside rfl rfl (by simp)
  · split at h <;> cases h
    exact .outside rfl rfl (by simp)
  · split at h <;> cases h
    exact .outside rfl rfl (by simp)
  · obtain ⟨r, -, h⟩ := Option.map_eq_some_iff.1 h
    cases h
    exact .outside rfl rfl (by simp)
  · cases h
    exact .outside rfl rfl (by simp)
  · split at h
    · cases h
      exact .outside rfl rfl (by simp)
    · cases h
      exact .opens rfl rfl rfl
  · cases h

theorem readdir_records (h : readdir m p a = some (m', p')) : Records m p m' p' := by
  unfold readdir at h
  split at h
  · rename_i i
    simp only at h
    split at h
    · rename_i hfree
      cases h
      exact .same rfl (by simp) fun e _ he => ⟨i, rfl, by simpa using hfree, by simpa [eq_comm] using he⟩
    · rename_i hu
      have hin : (m.dirs i).in_use = true := by simpa using hu
      split at h
      · split at h
        · cases h
          exact .reads (.inr ⟨rfl, hin⟩) rfl rfl fun _ => ⟨rfl, rfl, rfl, rfl⟩
        · cases h
          exact .same rfl (by simp) (by simp)
      · cases h
        exact .reads (.inr ⟨rfl, hin⟩) rfl rfl fun _ => ⟨rfl, rfl, rfl, rfl⟩
  · split at h <;> cases h
    exact .reads (.inl rfl) rfl rfl fun _ => ⟨rfl, rfl, rfl, rfl⟩
  · obtain ⟨r, -, h⟩ := Option.map_eq_some_iff.1 h
    simp only at h
    split at h <;> cases h
    · exact .reads (.inl rfl) rfl rfl fun _ => ⟨rfl, rfl, rfl, rfl⟩
    · exact .reads (.inl rfl) rfl rfl fun _ => ⟨rfl, rfl, rfl, rfl⟩
  · cases h

theorem closedir_records (h : closedir m p a = some (m', p')) : Records m p m' p' := by
  unfold closedir at h
  split at h
  · split at h <;> cases h <;> exact .outside rfl rfl (by simp)
  · cases h
    exact .closes rfl (by simp) rfl
  · cases h
    exact .outside rfl rfl (by simp)
  · split at h <;> cases h <;> exact .outside rfl rfl (by simp)
  · cases h

theorem move_records (h : move m p a = some (m', p')) : Records m p m' p' := by
  simp only [move, Option.or_eq_some_iff] at h
  obtain h | ⟨-, h | ⟨-, h | ⟨-, h⟩⟩⟩ := h
  · obtain ⟨f, hf, h⟩ := Option.map_eq_some_iff.1 h
    cases h
    exact enter_records hf
  · exact opendir_records h
  · exact readdir_records h
  · exact closedir_records h

end

namespace Agree
variable {T : Type} {m m' : Mem} {thr : T → Frame} {φ : Slot → Phase} {t : T} {p' : Frame} {i : Slot}

/-- No `opendir` works on the slot of an open stream. -/
theorem opendir_apart (h : Agree m thr φ) {st : Stream} (hst : st ∈ m.streams) (ht : (thr t).inOpendir = true) :
    (thr t).slot ≠ some st.slot := by
  intro hslot
  obtain ⟨q, hq, hclosed⟩ := Frame.phase_of_inOpendir ht hslot
  exact hclosed st ((h.phase t _ q hq).symm.trans (h.live_of_mem hst))

end Agree

/-- A stream that is open stays as it is, unless a `readdir` of its slot returns or a
`closedir` of it begins. -/
theorem Records.stays {m m' : Mem} {p p' : Frame} (hr : Records m p m' p') {st : Stream} (hst : st ∈ m.streams) :
    st ∈ m'.streams ∨ p = .loadFd st.slot ∨
      ∃ e, p.reading = true ∧ p.slot = some st.slot ∧ p' = .done (.read e) := by
  cases hr with
  | opens _ _ hstreams => exact .inl (by rw [hstreams]; exact List.mem_append_left _ hst)
  | @reads i e g hp hret hstreams =>
    by_cases hi : st.slot = i
    · refine .inr (.inr ⟨e, ?_, ?_, hret⟩)
      · rcases hp with hp | ⟨hp, -⟩ <;> rw [hp] <;> rfl
      · rcases hp with hp | ⟨hp, -⟩ <;> rw [hp, hi] <;> rfl
    · refine .inl ?_
      rw [hstreams]
      exact List.mem_map.2 ⟨st, hst, if_neg hi⟩
  | @closes i hp _ hstreams =>
    by_cases hi : st.slot = i
    · exact .inr (.inl (by rw [hp, hi]))
    · refine .inl ?_
      rw [hstreams]
      exact List.mem_filter.2 ⟨hst, by simpa using hi⟩
  | same hstreams => exact .inl (by rw [hstreams]; exact hst)

/-! ## Calls one after another -/

section
variable {T : Type} [DecidableEq T]

/-- The number of steps a call can still take. -/
def Frame.left : Frame → Nat
  | .idle => 0
  | .done _ => 0
  | .scan k => MAX_OPEN_DIRS - k + 9
  | .opening _ => 8
  | .first .. => 7
  | .reject .. => 1
  | .fill _ _ _ _ n => 5 - n + 1
  | .read _ => 2
  | .refill _ => 1
  | .test _ => 9
  | .loadFd _ => 8
  | .closing .. => 7
  | .clear _ _ n => 5 - n + 1

/-- An `opendir` returns slot `i`, in which no stream was open, and the stream `st` is open now:
its descriptor, directory and first batch are what this call got. -/
def OpendirReturns (s : Sys T) (t : T) (s' : Sys T) (i : Slot) (st : Stream) : Prop :=
  (∀ st' ∈ s.mem.streams, st'.slot ≠ i) ∧ (∃ n, s.thr t = .fill i st.fd st.dir st.first n) ∧ st.slot = i ∧ st.log = [] ∧
    s'.mem.streams = s.mem.streams ++ [st]

omit [DecidableEq T] in
theorem Agree.opendir_returns {s s' : Sys T} {φ : Slot → Phase} {t : T} {i : Slot} (h : Agree s.mem s.thr φ)
    (hr : Records s.mem (s.thr t) s'.mem (s'.thr t)) (hret : s'.thr t = .done (.opened (some i))) :
    ∃ st, OpendirReturns s t s' i st := by
  cases hr with
  | @opens j fd dir first n hp hdone hstreams =>
    rw [hret] at hdone
    cases hdone
    refine ⟨{ slot := i, fd := fd, dir := dir, first := first }, fun st hst hslot => ?_, ⟨n, hp⟩, rfl, rfl, hstreams⟩
    -- `opendir` was at work on the slot
    refine h.opendir_apart (t := t) hst (by rw [hp]; rfl) ?_
    rw [hp, hslot]
    rfl
  | reads _ hdone =>
    rw [hret] at hdone
    cases hdone
  | closes _ hdone => exact absurd hret (hdone _)
  | same _ hdone => exact absurd hret (hdone i)

/-- A record of 20 bytes for a name of one letter. -/
def entry (name : UInt8) : Record := ⟨List.replicate 16 0 ++ [20, 0, 8, name], by simp, rfl⟩

/-- The steps of an `opendir` that passes `k` slots in use and gets `fd` and `n` records. -/
def opendirSteps (k : Nat) (fd : Int) (dir : List Record) (n : Nat) : List Act :=
  Act.opendir :: List.replicate (k + 1) Act.go ++ [Act.opens fd dir, Act.getdents n] ++ List.replicate 6 Act.go

def Act.isRead : Act → Bool
  | .readdir _ => true
  | _ => false

/-- The threads call `opendir` and `closedir` only, and nobody begins to work on
a slot that another call works on. -/
def openClose (s : Sys T) (l : T × Act) (s' : Sys T) : Prop := exclusive s l s' ∧ l.2.isRead = false

/-- Without `readdir` no thread gets into one. -/
theorem move_reading {m m' : Mem} {p p' : Frame} {a : Act} (h : move m p a = some (m', p')) (ha : a.isRead = false)
    (hp : p.reading = false) : p'.reading = false := by
  simp only [move, Option.or_eq_some_iff] at h
  obtain h | ⟨-, h | ⟨-, h | ⟨-, h⟩⟩⟩ := h
  · obtain ⟨f, hf, h⟩ := Option.map_eq_some_iff.1 h
    cases h
    unfold enter at hf
    split at hf
    · split at hf
      · cases hf
        rfl
      · cases ha
      · cases ha
      · cases hf
        rfl
      · cases hf
        rfl
      · cases hf
    · cases hf
  · unfold opendir at h
    split at h
    · split at h
      · split at h <;> cases h <;> rfl
      · cases h
        rfl
    · split at h <;> cases h
      rfl
    · split at h <;> cases h
      rfl
    · split at h <;> cases h
      rfl
    · obtain ⟨r, -, h⟩ := Option.map_eq_some_iff.1 h
      cases h
      rfl
    · cases h
      rfl
    · split at h <;> cases h <;> rfl
    · cases h
  · unfold readdir at h
    split at h
    · cases hp
    · cases hp
    · cases hp
    · cases h
  · unfold closedir at h
    split at h
    · split at h <;> cases h <;> rfl
    · cases h
      rfl
    · cases h
      rfl
    · split at h <;> cases h <;> rfl
    · cases h

/-- Outside `readdir` no log grows. -/
theorem Records.unread {m m' : Mem} {p p' : Frame} (hr : Records m p m' p') (hp : p.reading = false)
    (hm : ∀ st ∈ m.streams, st.log = []) : ∀ st ∈ m'.streams, st.log = [] := by
  intro st hst
  cases hr with
  | opens _ _ hstreams =>
    rw [hstreams] at hst
    rcases List.mem_append.1 hst with hst | hst
    · exact hm st hst
    · rw [List.mem_singleton.1 hst]
  | reads hread =>
    rcases hread with rfl | ⟨rfl, -⟩ <;> cases hp
  | closes _ _ hstreams =>
    rw [hstreams] at hst
    exact hm st (List.mem_filter.1 hst).1
  | same hstreams =>
    rw [hstreams] at hst
    exact hm st hst

theorem run_unread {s : Sys T} (h : Run step openClose start s) :
    (∀ t, (s.thr t).reading = false) ∧ ∀ st ∈ s.mem.streams, st.log = [] := by
  refine h.inv (fun s => (∀ t, (s.thr t).reading = false) ∧ ∀ st ∈ s.mem.streams, st.log = []) ?_ ?_
  · exact ⟨fun _ => rfl, fun st hst => absurd hst List.not_mem_nil⟩
  · intro s l s' hi hok hs
    have hmove := Conf.step_self hs
    refine ⟨fun u => ?_, (move_records hmove).unread (hi.1 l.1) hi.2⟩
    by_cases hu : u = l.1
    · rw [hu]
      exact move_reading hmove hok.2 (hi.1 l.1)
    · rw [Conf.step_other hs hu]
      exact hi.1 u

/-- While nobody begins to work on a slot that another call works on, the
streams that are open have different slots, and the slot of each holds the
descriptor and the first batch its `opendir` got; a slot that `opendir` returns
is none of those, and with it the stream is open. -/
theorem opendir_distinct {s : Sys T} (h : Run step openClose start s) :
    (s.mem.streams.map (·.slot)).Nodup ∧
    (∀ st ∈ s.mem.streams, (s.mem.dirs st.slot).in_use = true ∧ (s.mem.dirs st.slot).fd = st.fd ∧
      (s.mem.dirs st.slot).buf.take st.first.length = st.first ∧ (s.mem.dirs st.slot).valid = st.first.length ∧
      (s.mem.dirs st.slot).next = 0) ∧
    (∀ l s', step s l = some s' → ∀ i, s'.thr l.1 = .done (.opened (some i)) → ∃ st, OpendirReturns s l.1 s' i st) ∧
    ∀ l s', step s l = some s' → ∀ st ∈ s.mem.streams, st ∈ s'.mem.streams ∨ s.thr l.1 = .loadFd st.slot := by
  obtain ⟨φ, hφ⟩ := run_agree (h.mono fun _ _ _ hok => hok.1)
  refine ⟨hφ.slots_nodup, ?_, fun l s' hs i => hφ.opendir_returns (move_records (Conf.step_self hs)), ?_⟩
  · intro st hst
    have hrep := hφ.rep st.slot
    rw [hφ.live_of_mem hst] at hrep
    obtain ⟨hin, hfd, f, b, c, -, -, hl⟩ := hrep
    have hlog := (run_unread h).2 st hst
    -- nothing is handed out, so the buffer holds the first batch
    have hc : c = 0 := hl.out_zero hlog
    have hb : b = 0 := by
      have := hl.start_le
      omega
    subst hc hb
    rw [hl.fresh hlog]
    exact ⟨hin, hfd, List.prefix_iff_eq_take.1 hl.buf |>.symm, hl.valid, hl.next⟩
  · intro l s' hs st hst
    rcases (move_records (Conf.step_self hs)).stays hst with hkept | hclosed | ⟨e, hread, -⟩
    · exact .inl hkept
    · exact .inr hclosed
    · rw [(run_unread h).1 l.1] at hread
      cases hread

end

instance (s : Sys (Fin 2)) (l : Fin 2 × Act) (s' : Sys (Fin 2)) : Decidable (openClose s l s') :=
  inferInstanceAs (Decidable ((∀ _, _ → ∀ _, _ → _) ∧ _))

/-- Two threads call `opendir`, the second when the first has returned. -/
theorem opendir_distinct_two : ∃ s : Sys (Fin 2), Run step openClose start s ∧
    s.mem.streams.map (fun st => (st.slot, st.fd)) = [(0, 3), (1, 4)] ∧ (s.mem.streams.map (·.slot)).Nodup := by
  have h : (exec step (fun s l => decide (openClose s l s)) (start : Sys (Fin 2))
      ((opendirSteps 0 3 [entry 97] 1).map (0, ·) ++ (opendirSteps 1 4 [entry 98] 1).map (1, ·))).map
      (fun s => decide (s.mem.streams.map (fun st => (st.slot, st.fd)) = [(0, 3), (1, 4)])) = some true := by
    decide +kernel
  obtain ⟨s, hr, hst⟩ := exec_reaches h fun _ _ _ hb => of_decide_eq_true hb
  exact ⟨s, hr, hst, (opendir_distinct hr).1⟩

/-- Two threads call `opendir` and both find the first slot free before either
has claimed it. Both succeed, with one slot, which holds the descriptor of only
one of them. -/
theorem opendir_same_slot : ∃ s : Sys (Fin 2), Run step (fun _ _ _ => True) start s ∧
    s.thr 0 = .done (.opened (some 0)) ∧ s.thr 1 = .done (.opened (some 0)) ∧
    s.mem.streams.map (fun st => (st.slot, st.fd)) = [(0, 3), (0, 4)] ∧ (s.mem.dirs 0).fd = 4 := by
  have h : (exec step (fun _ _ => true) (start : Sys (Fin 2))
      ([(0, Act.opendir), (1, Act.opendir), (0, Act.go), (1, Act.go), (0, Act.opens 3 [entry 97]),
        (1, Act.opens 4 [entry 98]), (0, Act.getdents 1), (1, Act.getdents 1)] ++ List.replicate 6 (0, Act.go) ++
        List.replicate 6 (1, Act.go))).map
      (fun s => decide (s.thr 0 = .done (.opened (some 0)) ∧ s.thr 1 = .done (.opened (some 0)) ∧
        s.mem.streams.map (fun st => (st.slot, st.fd)) = [(0, 3), (0, 4)] ∧ (s.mem.dirs 0).fd = 4)) = some true := by
    decide +kernel
  exact exec_reaches h fun _ _ _ _ => trivial

end LibNeoos.Dirent
