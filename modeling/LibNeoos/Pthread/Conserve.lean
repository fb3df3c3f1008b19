import LibNeoos.Pthread.Join
import Mathlib.Data.Set.Card
/-!
# No slot of the thread table is lost

A slot is claimed in `pthread_create`, gets its number from the new thread and is
freed by the `pthread_join` that looks up that number. `outstanding` are the calls of
`pthread_create` that have claimed a slot and have neither failed nor been joined; as
long as every thread that has a slot also gets to name it, the slots in use are
theirs, one each (`slots_conserved`).

A thread whose `__tls_setup_self` fails exits before `pthread_trampoline` runs. Its
slot never gets a number, no join finds it, and it stays in use (`tls_failure_leaks`).
-/

namespace LibNeoos.Pthread.Table

open Lib

section
variable {T : Type}

/-! ## The calls that a slot is in use for -/

/-- A call of `pthread_create`, named as the holder of its slot is: it is going on and
has claimed the slot, or it has made a thread that no `pthread_join` has done with. -/
def Holder.outstanding (s : Sys T) : Holder T → Prop
  | .free => False
  | .maker t => (s.thr t).frame.claims ≠ none
  | .thread u => s.mem.table.given u ≠ none ∧ s.mem.table.current u

def outstanding (s : Sys T) : Set (Holder T) := {c | c.outstanding s}

/-- The slots in use. -/
def inUse (s : Sys T) : Finset Nat := (Finset.range PTHREAD_MAX).filter fun i => (s.mem.table.pt_slots i).in_use = 1

/-- A new thread's number has never been given before. -/
def noReuse (s : Sys T) (l : T × Act T) : Prop :=
  ∀ v, s.mem.table.life v ≠ .none → l.2.newTid ≠ some (s.mem.table.tid v)

instance [Fintype T] (s : Sys T) (l : T × Act T) : Decidable (noReuse s l) := inferInstanceAs (Decidable (∀ _, _))

variable {t u : T} {m m' : Mem T} {p p' : Task T} {a : Act T} {s s' : Sys T} {l : T × Act T}

theorem noReuse.distinct (h : noReuse s l) : distinct s l := fun v hv => h v hv.1

/-- A thread reaped by a join that has not left the table has existed. -/
theorem noReuse.notYet (h : noReuse s l) (hi : Numbers s.mem.table) : notYet s l := by
  intro v hv
  apply h v
  simp [hi.reaper v hv]

/-! ## Every thread made by `pthread_create` has its slot -/

theorem Task.self.has (h : p.self m u) (hl : m.unreaped u) (hg : m.given u ≠ none) : ∃ i, m.has u i := by
  have hhome : m.home u p.raw → ∃ i, m.has u i := by
    intro hh
    cases hraw : p.raw with
    | none =>
      rw [hraw] at hh
      exact absurd hh hg
    | some i =>
      rw [hraw] at hh
      exact ⟨i, hh.1⟩
  have hdone : m.done u → ∃ i, m.has u i := by
    intro hd
    obtain ⟨i, hi, -⟩ := hd hg
    exact ⟨i, hi.1⟩
  unfold Task.self at h
  split at h
  case h_1 =>
    rcases h.2.2 with h0 | ⟨-, h0⟩ | ⟨i, -, hh, -⟩
    · exact absurd h0 hl.1
    · exact absurd h0 hg
    · exact ⟨i, hh⟩
  case h_2 => exact ⟨_, h.2.2.1⟩
  case h_3 | h_4 | h_5 | h_6 | h_7 | h_8 => exact ⟨_, h.2.2.1.1⟩
  case h_9 => exact hhome h.2.2.1
  case h_10 => exact hhome h.2.2.1
  case h_11 | h_12 => exact hdone h.2.2
  case h_13 =>
    rcases h.2 with ⟨-, hd⟩ | h0
    · exact hdone hd
    · exact absurd h0 hl.2
  case h_14 | h_15 | h_16 | h_17 => exact hhome h.2.2

/-- A thread that has been reaped keeps its slot until the joiner leaves the table. -/
theorem Task.job.has (h : p.job m t) (hj : p.frame.joining = true) (hu : p.reaped = some u) (hg : m.given u ≠ none) :
    ∃ i, m.has u i := by
  have hreaps : ∀ thread v, p.reaps m thread v → ∃ i, m.has u i := by
    intro thread v hv
    obtain rfl : u = v := Option.some.inj (hu.symm.trans hv.1)
    obtain ⟨i, hi, -⟩ := hv.2.2.2.1 hg
    exact ⟨i, hi.1⟩
  obtain ⟨q, hf⟩ : ∃ q, p.frame = .join q := by
    cases hf : p.frame <;> simp_all [Frame.joining]
  cases hc : p.call with
  | create => simp [Task.job, hf, hc] at h
  | join thread retval =>
    rw [Task.job_join hf hc] at h
    rw [hf] at hj
    cases q with
    | thread_join | leave => simp [Frame.joining] at hj
    | lock | look | retval | clear | none =>
      obtain ⟨v, hv, -⟩ := h
      exact hreaps thread v hv

theorem Inv.has (hi : Inv s) (hg : s.mem.table.given u ≠ none) (hc : s.mem.table.current u) :
    ∃ i, s.mem.table.has u i := by
  rcases hc with hc | hc
  · exact (hi.sound u).self.has hc hg
  · obtain ⟨t, ht⟩ := Option.ne_none_iff_exists'.1 hc
    obtain ⟨hj, hr⟩ := ((hi.sound t).pending u).1 ht
    exact (hi.sound t).job.has hj hr hg

/-! ## Where the search for a free slot is -/

/-- The slot that a search for a free one is at. -/
def Frame.searching : Frame → Option Nat
  | .create (.scan i) => some i
  | _ => none

/-- The slot that a thread has claimed is in the table, and those that its search has
passed are in use. -/
structure Task.placed (m : Mem T) (p : Task T) : Prop where
  range : ∀ i, p.frame.claims = some i → i < PTHREAD_MAX
  passed : ∀ i, p.frame.searching = some i → ∀ j < i, (m.pt_slots j).in_use ≠ 0

/-- The thread neither has a claim nor searches. -/
theorem Task.placed.of_quiet (h : p.frame.claims = none ∧ p.frame.searching = none) : p.placed m := by
  refine ⟨fun i hi => ?_, fun i hi => ?_⟩
  · rw [h.1] at hi
    cases hi
  · rw [h.2] at hi
    cases hi

variable [DecidableEq T]

theorem create_placed {thread : Ptr} {fn arg : Nat} {q : CreatePoint} (hp : p.placed m) (hf : p.frame = .create q)
    (hjob : q.job m t p fn arg) (h : pthread_create t m p thread fn arg q a = some (m', p')) : p'.placed m' := by
  -- a thread that goes on with its claim keeps the slot
  have hkeep : ∀ q' : CreatePoint, (Frame.create q').searching = none →
      (Frame.create q').claims = (Frame.create q).claims → (p.goto (.create q')).placed m := by
    intro q' hs hcl
    refine ⟨fun j hj => hp.range j ?_, fun j hj => ?_⟩
    · rw [hf, ← hcl]
      exact hj
    · cases hs.symm.trans hj
  unfold pthread_create at h
  split at h
  case h_1 =>
    cases h
    refine ⟨fun j hj => (by cases hj), fun i hi j hj => ?_⟩
    cases hi
    cases hj
  case h_2 i =>
    split_ifs at h with h0 h1
    · cases h
      exact .of_quiet ⟨rfl, rfl⟩
    · cases h
      refine ⟨fun j hj => (by cases hj), fun k hk j hjk => ?_⟩
      cases hk
      rcases Nat.lt_succ_iff_lt_or_eq.1 hjk with hj | rfl
      · exact hp.passed i (by rw [hf]; rfl) j hj
      · exact h0
    · cases h
      exact .of_quiet ⟨rfl, rfl⟩
  case h_3 i k =>
    cases h
    have hrange : i < PTHREAD_MAX := hjob.2.1.range
    split_ifs with hk
    · refine ⟨fun j hj => ?_, fun j hj => by cases hj⟩
      cases hj
      exact hrange
    · refine ⟨fun j hj => ?_, fun j hj => by cases hj⟩
      cases hj
      exact hrange
  case h_4 i =>
    cases h
    exact hkeep (.thread_create i) rfl rfl
  case h_5 =>
    split_ifs at h
    cases h
    exact .of_quiet ⟨rfl, rfl⟩
  case h_6 i rc =>
    split_ifs at h
    cases h
    exact hkeep (.relock i rc) rfl rfl
  case h_7 i rc =>
    cases h
    exact hkeep (.clear i rc) rfl rfl
  case h_11 => cases h
  all_goals
    cases h
    exact .of_quiet ⟨rfl, rfl⟩

theorem Call.enter_searching (c : Call) : c.enter.searching = none := by
  cases c <;> simp only [Call.enter] <;> (try split_ifs) <;> rfl

/-- Only `pthread_create` goes on to such a place. -/
theorem Task.outer_quiet (hf : ∀ q, p.frame ≠ .create q) (h : p.outer t m a = some (m', p')) :
    p'.frame.claims = none ∧ p'.frame.searching = none := by
  unfold Task.outer at h
  split at h
  · unfold Task.begin at h
    split at h <;> cases h <;> exact ⟨rfl, rfl⟩
  · unfold Task.program at h
    split at h
    · cases h
      exact ⟨(Call.enter_quiet _).1, Call.enter_searching _⟩
    · cases h
      exact ⟨rfl, rfl⟩
    · split at h <;> cases h <;> exact ⟨rfl, rfl⟩
    · split_ifs at h
      cases h
      exact ⟨rfl, rfl⟩
    · cases h
  · exact absurd ‹_› (hf _)
  · split at h
    · unfold pthread_join at h
      split at h
      case h_4 => split at h <;> cases h <;> exact ⟨rfl, rfl⟩
      all_goals (try split_ifs at h) <;> cases h <;> exact ⟨rfl, rfl⟩
    · cases h
  · unfold pthread_exit at h
    split at h
    case h_2 => split at h <;> cases h <;> exact ⟨rfl, rfl⟩
    all_goals cases h <;> exact ⟨rfl, rfl⟩
  · unfold pthread_trampoline at h
    split at h <;> cases h <;> exact ⟨rfl, rfl⟩
  · split_ifs at h
    cases h
    exact ⟨rfl, rfl⟩
  · split_ifs at h
    cases h
    exact ⟨rfl, rfl⟩
  · cases h

theorem Task.outer_placed (hs : p.sound m t) (hp : p.placed m) (h : p.outer t m a = some (m', p')) : p'.placed m' := by
  by_cases hf : ∃ q, p.frame = .create q
  · obtain ⟨q, hf⟩ := hf
    simp only [Task.outer, hf] at h
    split at h
    · rename_i hc
      exact create_placed hp hf ((Task.job_create hf hc).1 hs.job) h
    · cases h
  · exact .of_quiet (Task.outer_quiet (not_exists.1 hf) h)

/-! ## Runs -/

variable {main : T} {x : Int} {ok : Sys T → T × Act T → Sys T → Prop}

/-- The invariant holds as long as the kernel gives no number twice and no thread with
a slot fails to set up its TLS. -/
theorem run_inv_raw (hx : 0 < x) (h : Run step (fun s l _ => noReuse s l ∧ slotTlsWorks s l) (start main x) s) :
    Inv s := by
  refine h.inv_reach Inv (inv_start hx) ?_
  intro s l s' hrun hi hok hst
  exact inv_step hi hrun hok.1.distinct (hok.1.notYet hi.numbers) hok.2 hst

/-- While a thread has the lock, no other takes a slot or frees one. -/
theorem in_use_kept (hi : Inv s) (hrun : Run step ok (start main x) s) (hst : step s l = some s') (hu : u ≠ l.1)
    (hg : (s.thr u).frame.guard = .locked) (j : Nat) :
    (s'.mem.table.pt_slots j).in_use = (s.mem.table.pt_slots j).in_use := by
  rcases Task.move_cases (Conf.step_self hst) with ⟨v, -, hm, -⟩ | ⟨-, hout, -⟩
  · rw [hm]
  · by_cases ha : l.2 = .tlsFails
    · rw [ha] at hout
      obtain ⟨-, -, hm, -⟩ := tlsFails_spec hout
      rw [hm]
      rfl
    · obtain ⟨heff, -⟩ := Task.outer_good hi.numbers hi.slots (hi.sound l.1) ha (hi.maker_tid hrun)
        (fun u hu => (hi.sound u).self.exited hu) hout
      exact heff.in_use (fun hl => hu (locked_unique hrun hg hl)) j

theorem run_placed (hx : 0 < x) (h : Run step (fun s l _ => noReuse s l ∧ slotTlsWorks s l) (start main x) s) (t : T) :
    (s.thr t).placed s.mem.table := by
  refine h.inv_reach (fun s => ∀ t, (s.thr t).placed s.mem.table) (fun t => ?_) ?_ t
  · by_cases ht : t = main <;> exact .of_quiet (by simp [start, ht, Frame.claims, Frame.searching])
  · intro s l s' hrun hi hok hst u
    have hinv := run_inv_raw hx hrun
    rcases Task.move_cases (Conf.step_self hst) with ⟨v, -, hm, hself⟩ | ⟨-, hout, -⟩
    · by_cases hu : u = l.1
      · subst hu
        rw [hm, hself]
        exact ⟨(hi l.1).range, (hi l.1).passed⟩
      · rw [hm, Conf.step_other hst hu]
        exact hi u
    · by_cases hu : u = l.1
      · subst hu
        exact Task.outer_placed (hinv.sound l.1) (hi l.1) hout
      · rw [Conf.step_other hst hu]
        refine ⟨(hi u).range, fun i hs j hj => ?_⟩
        have hg : (s.thr u).frame.guard = .locked := by
          cases hf : (s.thr u).frame with
          | create q => cases q <;> simp_all [Frame.searching, Frame.guard]
          | _ => simp [hf, Frame.searching] at hs
        rw [in_use_kept hinv hrun hst hu hg]
        exact (hi u).passed i hs j hj

/-! ## The count -/

omit [DecidableEq T] in
/-- The calls that are outstanding are those that the slots are held for. -/
theorem Inv.outstanding_eq (hi : Inv s) (hp : ∀ t, (s.thr t).placed s.mem.table) :
    outstanding s = s.mem.table.holder '' (inUse s : Set Nat) := by
  have hused : ∀ i, i < PTHREAD_MAX → s.mem.table.holder i ≠ .free → i ∈ inUse s := by
    intro i hlt hne
    refine Finset.mem_filter.2 ⟨Finset.mem_range.2 hlt, ?_⟩
    cases hh : s.mem.table.holder i with
    | free => exact absurd hh hne
    | maker t => exact hi.slots.maker i t hh
    | thread u => exact (hi.slots.thread i u hh).1
  ext c
  constructor
  · intro hc
    cases c with
    | free => exact hc.elim
    | maker t =>
      obtain ⟨i, hcl⟩ := Option.ne_none_iff_exists'.1 hc
      have hh := ((hi.sound t).claims i).2 hcl
      exact ⟨i, hused i ((hp t).range i hcl) (by simp [hh]), hh⟩
    | thread u =>
      obtain ⟨i, hh, -, hlt⟩ := hi.has hc.1 hc.2
      exact ⟨i, hused i hlt (by simp [hh]), hh⟩
  · rintro ⟨i, huse, rfl⟩
    have huse : (s.mem.table.pt_slots i).in_use = 1 := (Finset.mem_filter.1 huse).2
    show (s.mem.table.holder i).outstanding s
    cases hh : s.mem.table.holder i with
    | free =>
      rw [hi.slots.free i hh] at huse
      cases huse
    | maker t =>
      have hcl := ((hi.sound t).claims i).1 hh
      simp [Holder.outstanding, hcl]
    | thread u =>
      obtain ⟨-, -, hg, hcur, -⟩ := hi.slots.thread i u hh
      exact ⟨hg, hcur⟩

omit [DecidableEq T] in
/-- Two slots in use are not held for one call. -/
theorem Inv.holder_inj (hi : Inv s) : Set.InjOn s.mem.table.holder (inUse s : Set Nat) := by
  intro i huse j _ he
  have huse : (s.mem.table.pt_slots i).in_use = 1 := (Finset.mem_filter.1 huse).2
  cases hh : s.mem.table.holder i with
  | free =>
    rw [hi.slots.free i hh] at huse
    cases huse
  | maker t =>
    have h1 := ((hi.sound t).claims i).1 hh
    have h2 := ((hi.sound t).claims j).1 (he ▸ hh)
    exact Option.some.inj (h1.symm.trans h2)
  | thread u =>
    have h1 := (hi.slots.thread i u hh).2.1
    have h2 := (hi.slots.thread j u (he ▸ hh)).2.1
    exact Option.some.inj (h1.symm.trans h2)

omit [DecidableEq T] in
theorem Inv.card_inUse (hi : Inv s) (hp : ∀ t, (s.thr t).placed s.mem.table) :
    (inUse s).card = (outstanding s).ncard := by
  rw [hi.outstanding_eq hp, Set.InjOn.ncard_image hi.holder_inj, Set.ncard_coe_finset]

/-- The search gives up at a slot in use, and only at the last one. -/
theorem scan_leaves {thread : Ptr} {fn arg i : Nat} {rc : Int}
    (h : pthread_create t m p thread fn arg (.scan i) a = some (m', p')) (hf : p'.frame = .create (.leave rc)) :
    (m.pt_slots i).in_use ≠ 0 ∧ PTHREAD_MAX ≤ i + 1 := by
  obtain rfl : a = .op .go := by
    unfold pthread_create at h
    split at h <;> simp_all
  simp only [pthread_create] at h
  split_ifs at h with h0 h1
  · cases h
    cases hf
  · cases h
    cases hf
  · exact ⟨h0, Nat.le_of_not_lt h1⟩

/-- A search that ends without a free slot has found all of them in use. -/
theorem full_of_leave {i : Nat} {rc : Int} (hi : Inv s) (hp : (s.thr l.1).placed s.mem.table) (hst : step s l = some s')
    (hf : (s.thr l.1).frame = .create (.scan i)) (hf' : (s'.thr l.1).frame = .create (.leave rc)) :
    (inUse s).card = PTHREAD_MAX := by
  have hall : ∀ j < PTHREAD_MAX, (s.mem.table.pt_slots j).in_use ≠ 0 := by
    rcases Task.move_cases (Conf.step_self hst) with ⟨v, -, -, hself⟩ | ⟨-, hout, -⟩
    · rw [hself, hf] at hf'
      cases hf'
    · simp only [Task.outer, hf] at hout
      split at hout
      · obtain ⟨h0, h1⟩ := scan_leaves hout hf'
        intro j hj
        rcases Nat.lt_or_ge j i with hji | hji
        · exact hp.passed i (by rw [hf]; rfl) j hji
        · obtain rfl : j = i := by omega
          exact h0
      · cases hout
  have huse : inUse s = Finset.range PTHREAD_MAX := by
    refine Finset.filter_true_of_mem fun j hj => ?_
    have hne := hall j (Finset.mem_range.1 hj)
    cases hh : s.mem.table.holder j with
    | free => exact absurd (hi.slots.free j hh) hne
    | maker t => exact hi.slots.maker j t hh
    | thread u => exact (hi.slots.thread j u hh).1
  rw [huse, Finset.card_range]

/-- In every run in which the kernel gives no thread number twice and no thread made by
`pthread_create` fails to set up its TLS: the number of slots in use is the number of
calls of `pthread_create` that have claimed a slot and have neither failed nor been
joined; and a `pthread_create` finds no slot only while there are 16 of them. -/
theorem slots_conserved (hx : 0 < x) (h : Run step (fun s l _ => noReuse s l ∧ slotTlsWorks s l) (start main x) s) :
    (inUse s).card = (outstanding s).ncard ∧
    ∀ l s' i rc, step s l = some s' → (s.thr l.1).frame = .create (.scan i) →
      (s'.thr l.1).frame = .create (.leave rc) → (outstanding s).ncard = PTHREAD_MAX := by
  have hi := run_inv_raw hx h
  have hp := run_placed hx h
  have hcard := hi.card_inUse hp
  refine ⟨hcard, fun l s' i rc hst hf hf' => ?_⟩
  rw [← hcard]
  exact full_of_leave hi (hp l.1) hst hf hf'

/-- Two threads are made, and one of them is joined: one slot is in use. -/
theorem slots_conserved_two : ∃ s : Sys (Fin 3),
    Run step (fun s l _ => noReuse s l ∧ slotTlsWorks s l) (start 0 1) s ∧ (s.thr 0).frame = .ret 0 ∧
    (inUse s).card = 1 ∧ (outstanding s).ncard = 1 := by
  have h : ((exec step (fun s l => decide (noReuse s l ∧ slotTlsWorks s l)) (start 0 1 : Sys (Fin 3))
      (creates 0 1 2 0 ++ creates 0 2 3 1 ++ returns 1 77 ++ (0, .call (.join 2 .obj)) :: (0, .reap 1) :: goes 0 8)).map
      fun s => decide ((s.thr 0).frame = .ret 0 ∧ (inUse s).card = 1)) = some true := by
    decide +kernel
  obtain ⟨s, hrun, hf, huse⟩ := exec_reaches h fun _ _ _ hb => of_decide_eq_true hb
  exact ⟨s, hrun, hf, huse, by rw [← (slots_conserved (by decide) hrun).1, huse]⟩

/-- A thread is made, its TLS cannot be set up, and it is joined. The join returns 0 and
no call is outstanding, but the slot is in use. -/
theorem tls_failure_leaks : ∃ s : Sys (Fin 2),
    Run step (fun s l _ => noReuse s l) (start 0 1) s ∧ (s.thr 0).frame = .ret 0 ∧ (s.thr 0).call = .join 2 .obj ∧
    (s.thr 0).reaped = some 1 ∧ (inUse s).card = 1 ∧ (outstanding s).ncard = 0 := by
  have h : ((exec step (fun s l => decide (noReuse s l)) (start 0 1 : Sys (Fin 2))
      (creates 0 1 2 0 ++ (1, .tlsFails) :: (0, .call (.join 2 .obj)) :: (0, .reap 1) :: goes 0 22)).map fun s =>
      decide (((s.thr 0).frame = .ret 0 ∧ (s.thr 0).call = .join 2 .obj ∧ (s.thr 0).reaped = some 1 ∧
        (inUse s).card = 1) ∧ ∀ t, (s.thr t).frame.claims = none ∧ (s.mem.table.given t = none ∨
        (¬ s.mem.table.unreaped t ∧ s.mem.table.reaper t = none)))) = some true := by
    decide +kernel
  obtain ⟨s, hrun, ⟨hf, hc, hr, huse⟩, hnone⟩ := exec_reaches h fun _ _ _ hb => of_decide_eq_true hb
  have hempty : outstanding s = ∅ := by
    refine Set.eq_empty_iff_forall_notMem.2 fun c hc => ?_
    cases c with
    | free => exact hc
    | maker t => exact hc (hnone t).1
    | thread u =>
      obtain ⟨hg, hcur⟩ := hc
      rcases (hnone u).2 with h0 | ⟨h0, h1⟩
      · exact hg h0
      · exact hcur.elim h0 fun h2 => h2 h1
  exact ⟨s, hrun, hf, hc, hr, huse, by rw [hempty, Set.ncard_empty]⟩

end

end LibNeoos.Pthread.Table
