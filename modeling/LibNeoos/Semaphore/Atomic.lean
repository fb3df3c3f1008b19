import LibNeoos.Lib.Linear
import LibNeoos.Semaphore.Units
/-!
# The semaphore is linearizable

Any number of threads call any functions of `semaphore.c` on one semaphore:
the ones of `Semaphore.Code`, and `sem_getvalue` and `sem_destroy`. `counting` is what
the functions are to a program that does not see their operations: a counter with
atomic calls. Every history of the threads is one of `counting`
(`sem_linearizable`).

A call takes effect with its compare-exchange or `fetch_add`, `sem_trywait` that gives
up with the read that found no unit, `sem_getvalue` with its load, and a wait that times
out at its timeout.
-/

namespace LibNeoos.Semaphore

open Lib Linear

/-! ## All calls on a semaphore -/

inductive Op
  | sync (c : Call)
  | getvalue (sem value : Ptr)
  | destroy (sem : Ptr)
  deriving DecidableEq, Repr

/-- What a call hands back: its code, and what it stored in `*value`. -/
structure Out where
  rc : Int
  value : Option Int := none
  deriving DecidableEq, Repr

/-- Where a thread is in `sem_getvalue` or `sem_destroy`. -/
inductive Look
  | none
  | load
  | ret (out : Out)
  deriving DecidableEq, Repr

/-- The null checks of `sem_getvalue`, and all of `sem_destroy`. -/
def Op.look : Op → Look
  | .sync _ => .none
  | .getvalue sem value => if sem = .null ∨ value = .null then .ret ⟨-EINVAL, none⟩ else .load
  | .destroy sem => if sem = .null then .ret ⟨-EINVAL, none⟩ else .ret ⟨0, none⟩

/-- A thread with its last call. -/
structure Client where
  op : Op := .destroy .null
  thread : Thread := {}
  look : Look := .none
  deriving DecidableEq, Repr

/-- A call, or the next operation of the call that is going on. -/
inductive Do (T : Type)
  | call (o : Op)
  | op (a : Choice T)

section
variable {T : Type}

/-- The load of `sem_getvalue`. -/
def sem_getvalue (sem : Futex T) : Out := ⟨0, some sem.word⟩

variable [DecidableEq T]

def Client.move (t : T) (m : Mem T) (p : Client) : Do T → Option (Mem T × Client)
  | .call o =>
    if p.look = .none ∧ p.thread.frame = .idle then
      match o with
      | .sync c => (p.thread.move t m (.call c)).map fun r => (r.1, ⟨o, r.2, .none⟩)
      | _ => some (m, ⟨o, p.thread, o.look⟩)
    else none
  | .op a =>
    match p.look with
    | .none => (p.thread.move t m (.op a)).map fun r => (r.1, { p with thread := r.2 })
    | .load => if a = .go then some (m, { p with look := .ret (sem_getvalue m.value) }) else none
    | .ret _ => if a = .go then some (m, { p with look := .none }) else none

abbrev Clients (T : Type) := Conf T (Mem T) Client

/-- A semaphore initialised with `v`, and all threads outside the library. -/
def clients (v : Nat) : Clients T := ⟨⟨⟨v, []⟩, []⟩, fun _ => {}⟩

/-- No `sem_post` adds to `INT_MAX`. -/
def postsBelowMax (s : Clients T) (l : T × Do T) : Bool :=
  (s.thr l.1).thread.frame = .post .fetch_add → s.mem.value.word < INT_MAX

/-- What the call hands back, if it is about to return. -/
def Client.returns (p : Client) : Option Out :=
  match p.look with
  | .ret out => some out
  | .load => none
  | .none =>
    match p.thread.frame with
    | .ret rc => some ⟨rc, none⟩
    | _ => none

/-- The calls and returns, which are all that a program sees. -/
def Client.event (t : T) (p : Client) : Do T → Option (Event T Op Out)
  | .call o => some (.call t o)
  | .op _ => p.returns.map (.ret t ·)

def observed (s : Clients T) (l : T × Do T) (_ : Clients T) : Option (Event T Op Out) := (s.thr l.1).event l.1 l.2

end

/-! ## A counter with atomic calls -/

/-- A null pointer is refused. -/
def Op.null : Op → Bool
  | .sync (.wait sem) | .sync (.trywait sem) | .sync (.post sem) | .destroy sem => sem = .null
  | .sync (.timedwait_relative sem rel) => sem = .null ∨ rel = .null
  | .getvalue sem value => sem = .null ∨ value = .null

/-- With `q` units, the call can return `r` and leave `q'` units. -/
inductive Does : Nat → Op → Out → Nat → Prop
  | wait {q : Nat} : Does (q + 1) (.sync (.wait .obj)) ⟨0, none⟩ q
  | trywait {q : Nat} : Does (q + 1) (.sync (.trywait .obj)) ⟨0, none⟩ q
  | trywait_none : Does 0 (.sync (.trywait .obj)) ⟨-EAGAIN, none⟩ 0
  | timedwait {q : Nat} : Does (q + 1) (.sync (.timedwait_relative .obj .obj)) ⟨0, none⟩ q
  | timeout {q : Nat} : Does q (.sync (.timedwait_relative .obj .obj)) ⟨-ETIMEDOUT, none⟩ q
  | post {q : Nat} : Does q (.sync (.post .obj)) ⟨0, none⟩ (q + 1)
  | getvalue {q : Nat} : Does q (.getvalue .obj .obj) ⟨0, some q⟩ q
  | destroy {q : Nat} : Does q (.destroy .obj) ⟨0, none⟩ q
  | null {q : Nat} {o : Op} : o.null = true → Does q o ⟨-EINVAL, none⟩ q

/-- The abstract semaphore. -/
def counting (T : Type) (v : Nat) : Object T Nat Op Out := ⟨v, fun q _ o r q' => Does q o r q'⟩

/-- What a client does: from its `fetch_add` on a post has taken effect. -/
def Client.slot (p : Client) : Slot Op Out :=
  match p.look with
  | .load => .called p.op
  | .ret out => .done out
  | .none =>
    match p.thread.frame with
    | .idle => .idle
    | .ret rc => .done ⟨rc, none⟩
    | .post .wake => .done ⟨0, none⟩
    | _ => .called p.op

/-! ## Where a call can be -/

/-- The functions a call goes through. -/
def Frame.suits : Frame → Call → Prop
  | .trywait _, c => c = .trywait .obj
  | .wait _, c => c = .wait .obj ∨ c = .timedwait_relative .obj .obj
  | .post _, c => c = .post .obj
  | _, _ => True

theorem Call.enter_suits (c : Call) : c.enter.suits c := by
  cases c with
  | wait sem => cases sem <;> simp [Call.enter, Frame.suits]
  | trywait sem => cases sem <;> simp [Call.enter, Frame.suits]
  | timedwait_relative sem rel => cases sem <;> cases rel <;> simp [Call.enter, Frame.suits]
  | post sem => cases sem <;> simp [Call.enter, Frame.suits]

/-- A call that starts on null pointers returns, any other has its first operation to do. -/
theorem Call.enter_cases (c : Call) :
    (c.enter = .ret (-EINVAL) ∧ Op.null (.sync c) = true) ∨
      c.enter = .trywait .load ∨ c.enter = .wait .load ∨ c.enter = .post .fetch_add := by
  cases c with
  | wait sem => cases sem <;> simp [Call.enter, Op.null]
  | trywait sem => cases sem <;> simp [Call.enter, Op.null]
  | timedwait_relative sem rel => cases sem <;> cases rel <;> simp [Call.enter, Op.null]
  | post sem => cases sem <;> simp [Call.enter, Op.null]

section
variable {T : Type} [DecidableEq T] {t : T} {m m' : Mem T} {p p' : Thread}

theorem Thread.Moves.suits (h : p.Moves t m m' p') (hp : p.frame.suits p.call) : p'.frame.suits p'.call := by
  cases h with
  | enter c _ _ hp' =>
    subst hp'
    exact c.enter_suits
  | tries q hf _ hp' =>
    subst hp'
    rw [hf] at hp
    simp only [sem_trywait_test]
    split
    · exact hp
    · trivial
  | looks q q' hf _ _ _ _ hp' =>
    subst hp'
    rw [hf] at hp
    exact hp
  | exit rc _ _ hp' | take v _ _ _ hp' | timeout _ _ _ hp' | wake ts _ _ _ hp' =>
    subst hp'
    trivial
  | sleep hf _ _ hp' | resume hf _ hp' | add hf _ hp' =>
    subst hp'
    rw [hf] at hp
    exact hp

/-- Only a wait with a timeout times out. -/
theorem timeout_timed {a : Act T} (h : p.move t m a = some (m', p')) (hf : p.frame = .wait .asleep)
    (hf' : p'.frame = .ret (-ETIMEDOUT)) : p.call.timed = true := by
  cases a with
  | call c => simp [Thread.move, hf] at h
  | op b =>
    cases b with
    | resume o =>
      simp only [Thread.move, Thread.op, hf, sem_wait_common] at h
      split_ifs at h with hmay ho
      · cases o <;> simp [Wakeup.rc] at ho
        unfold Futex.mayResume at hmay
        split at hmay
        · simpa using hmay
        · simp at hmay
      · cases h
        cases hf'
      · cases h
    | _ => simp [Thread.move, Thread.op, hf, sem_wait_common] at h

/-- The thread is in at most one function, and in one its call goes through. -/
structure Client.Fits (p : Client) : Prop where
  busy : p.thread.frame ≠ .idle → p.look = .none ∧ p.op = .sync p.thread.call
  suits : p.thread.frame.suits p.thread.call
  eager : p.thread.eager
  load : p.look = .load → p.op = .getvalue .obj .obj

variable {c c' : Client} {a : Do T}

theorem Op.look_load {o : Op} (h : o.look = .load) : o = .getvalue .obj .obj := by
  cases o with
  | sync d => simp [Op.look] at h
  | getvalue sem value => cases sem <;> cases value <;> simp [Op.look] at h ⊢
  | destroy sem => cases sem <;> simp [Op.look] at h

theorem Client.Fits.move (hc : c.Fits) (h : c.move t m a = some (m', c')) : c'.Fits := by
  cases a with
  | call o =>
    simp only [Client.move] at h
    split_ifs at h with hidle
    cases o with
    | sync d =>
      obtain ⟨⟨m₁, p⟩, h1, h2⟩ := Option.map_eq_some_iff.1 h
      cases h2
      have hm := Thread.move_moves h1
      refine ⟨fun _ => ⟨rfl, ?_⟩, hm.suits hc.suits, hm.eager, fun hl => by cases hl⟩
      simp only [Thread.move, hidle.2, if_true, Option.some.injEq, Prod.mk.injEq] at h1
      rw [← h1.2]
    | getvalue sem value =>
      cases h
      exact ⟨fun hf => absurd hidle.2 hf, hc.suits, hc.eager, fun hl => Op.look_load hl⟩
    | destroy sem =>
      cases h
      exact ⟨fun hf => absurd hidle.2 hf, hc.suits, hc.eager, fun hl => Op.look_load hl⟩
  | op b =>
    simp only [Client.move] at h
    split at h
    · rename_i hlook
      obtain ⟨⟨m₁, p⟩, h1, h2⟩ := Option.map_eq_some_iff.1 h
      cases h2
      have hm := Thread.move_moves h1
      have hbusy : c.thread.frame ≠ .idle := by
        intro hf
        simp [Thread.move, Thread.op, hf] at h1
      obtain ⟨-, hop⟩ := hc.busy hbusy
      refine ⟨fun _ => ⟨hlook, ?_⟩, hm.suits hc.suits, hm.eager, hc.load⟩
      rw [hop]
      simp only [Thread.move] at h1
      obtain ⟨r, -, h3⟩ := Option.map_eq_some_iff.1 h1
      cases h3
      rfl
    · rename_i hlook
      split_ifs at h
      cases h
      refine ⟨fun hf => ?_, hc.suits, hc.eager, fun hl => by cases hl⟩
      exact absurd ((hc.busy hf).1.symm.trans hlook) (by simp)
    · rename_i out hlook
      split_ifs at h
      cases h
      refine ⟨fun hf => ?_, hc.suits, hc.eager, fun hl => by cases hl⟩
      exact absurd ((hc.busy hf).1.symm.trans hlook) (by simp)

/-! ## Each operation is one of the counter -/

omit [DecidableEq T] in
/-- The call of a function of `Semaphore.Code`: it takes effect at once if it is refused. -/
theorem sync_call (d : Call) (q v n : Nat) :
    Slot.Step (counting T v) t q .idle (some (.call t (.sync d)))
      (Client.slot ⟨.sync d, ⟨d, d.enter, n⟩, .none⟩) q := by
  rcases d.enter_cases with ⟨he, hnull⟩ | he | he | he
  · simp only [Client.slot, he]
    exact .both (.null hnull)
  · simp only [Client.slot, he]
    exact .call
  · simp only [Client.slot, he]
    exact .call
  · simp only [Client.slot, he]
    exact .call

omit [DecidableEq T] in
theorem look_call {o : Op} (ho : o.look ≠ .none) (q v : Nat) (p : Thread) :
    Slot.Step (counting T v) t q .idle (some (.call t o)) (Client.slot ⟨o, p, o.look⟩) q := by
  cases o with
  | sync d => exact absurd rfl ho
  | getvalue sem value =>
    simp only [Client.slot, Op.look]
    split_ifs with hn
    · exact .both (.null (by simpa [Op.null] using hn))
    · exact .call
  | destroy sem =>
    simp only [Client.slot, Op.look]
    split_ifs with hn
    · exact .both (.null (by simpa [Op.null] using hn))
    · cases sem with
      | null => exact absurd rfl hn
      | obj => exact .both .destroy

/-- An operation of a function of `Semaphore.Code`. -/
theorem sync_step {b : Choice T} {p' : Thread} {q v : Nat} (hc : c.Fits) (hlook : c.look = .none)
    (h : c.thread.move t m (.op b) = some (m', p')) (hq : m.value.word = q)
    (hmax : c.thread.frame = .post .fetch_add → m.value.word < INT_MAX) :
    ∃ q' : Nat, Slot.Step (counting T v) t q c.slot (c.returns.map (.ret t ·)) { c with thread := p' }.slot q' ∧
      m'.value.word = q' := by
  have hbusy : c.thread.frame ≠ .idle := by
    intro hf
    simp [Thread.move, Thread.op, hf] at h
  have hop := (hc.busy hbusy).2
  have hsuits := hc.suits
  -- the operation is none of the counter's
  have skip : ∀ f : Frame, m'.value.word = m.value.word → p' = { c.thread with frame := f } → c.returns = none →
      c.slot = Client.slot { c with thread := { c.thread with frame := f } } →
      ∃ q' : Nat, Slot.Step (counting T v) t q c.slot (c.returns.map (.ret t ·)) { c with thread := p' }.slot q' ∧
        m'.value.word = q' := by
    intro f hw hp hret hslot
    subst hp
    rw [hret, ← hslot]
    exact ⟨q, .skip, by rw [hw, hq]⟩
  cases Thread.move_moves h with
  | enter d hf => exact absurd hf hbusy
  | exit rc hf hm hp =>
    subst hp hm
    simp only [Client.slot, Client.returns, hlook, hf]
    exact ⟨q, .ret, hq⟩
  | tries x hf hm hp =>
    subst hm
    rw [hf] at hsuits
    unfold sem_trywait_test at hp
    split at hp
    · exact skip _ rfl hp (by simp [Client.returns, hlook, hf]) (by simp [Client.slot, hlook, hf])
    · rename_i hle
      obtain rfl : q = 0 := by omega
      subst hp
      simp only [Client.slot, Client.returns, hlook, hf, hop, show c.thread.call = .trywait .obj from hsuits]
      exact ⟨0, .effect .trywait_none, hq⟩
  | looks x x' hf _ _ _ hm hp =>
    subst hm
    exact skip _ rfl hp (by simp [Client.returns, hlook, hf]) (by simp [Client.slot, hlook, hf])
  | take x hf hx hm hp =>
    have hpos : 0 < x := hc.eager x hf
    obtain ⟨k, rfl⟩ : ∃ k, q = k + 1 := ⟨q - 1, by omega⟩
    subst hp hm
    refine ⟨k, ?_, by simp only; omega⟩
    rcases hf with hf | hf
    · rw [hf] at hsuits
      simp only [Client.slot, Client.returns, hlook, hf, hop, show c.thread.call = .trywait .obj from hsuits]
      exact .effect .trywait
    · rw [hf] at hsuits
      rcases hsuits with hcall | hcall
      · simp only [Client.slot, Client.returns, hlook, hf, hop, hcall]
        exact .effect .wait
      · simp only [Client.slot, Client.returns, hlook, hf, hop, hcall]
        exact .effect .timedwait
  | sleep hf _ hm hp =>
    subst hm
    exact skip _ rfl hp (by simp [Client.returns, hlook, hf]) (by simp [Client.slot, hlook, hf])
  | resume hf hm hp =>
    subst hm
    exact skip _ rfl hp (by simp [Client.returns, hlook, hf]) (by simp [Client.slot, hlook, hf])
  | timeout hf _ hm hp =>
    have htimed := timeout_timed h hf (by rw [hp])
    rw [hf] at hsuits
    subst hp hm
    rcases hsuits with hcall | hcall
    · rw [hcall] at htimed
      cases htimed
    · simp only [Client.slot, Client.returns, hlook, hf, hop, hcall]
      exact ⟨q, .effect .timeout, hq⟩
  | add hf hm hp =>
    have hlt := hmax hf
    rw [hf] at hsuits
    subst hp hm
    refine ⟨q + 1, ?_, ?_⟩
    · simp only [Client.slot, Client.returns, hlook, hf, hop, show c.thread.call = .post .obj from hsuits]
      exact .effect .post
    · have hr : int32 (m.value.word + 1) = m.value.word + 1 := by
        simp only [INT_MAX] at hlt
        exact int32_of_range (by omega) (by omega)
      rw [Int.natCast_add, Int.natCast_one, ← hq]
      exact hr
  | wake ts hf _ hm hp =>
    subst hm
    exact skip _ rfl hp (by simp [Client.returns, hlook, hf]) (by simp [Client.slot, hlook, hf])

/-! ## All histories -/

variable {v : Nat} {s s' : Clients T} {ok : Clients T → T × Do T → Clients T → Prop}

theorem run_fits (h : Run (Conf.step Client.move) ok (clients v) s) (t : T) : (s.thr t).Fits := by
  refine run_local (fun _ _ p => p.Fits) (fun _ => ?_) (fun _ _ _ _ hc _ hm => hc.move hm)
    (fun _ _ _ _ u hs _ _ _ => hs u) h t
  exact ⟨fun hf => absurd rfl hf, trivial, fun v hv => by simp [clients] at hv, fun hl => by cases hl⟩

/-- What a client does with its next operation, or by a call, the counter does. -/
theorem Client.Fits.step {q : Nat} (hc : c.Fits) (hq : m.value.word = q)
    (hmax : c.thread.frame = .post .fetch_add → m.value.word < INT_MAX) (h : c.move t m a = some (m', c')) :
    ∃ q' : Nat, Slot.Step (counting T v) t q c.slot (c.event t a) c'.slot q' ∧ m'.value.word = q' := by
  cases a with
  | call o =>
    simp only [Client.move] at h
    split_ifs at h with hidle
    have hslot : c.slot = .idle := by simp [Client.slot, hidle]
    rw [hslot]
    cases o with
    | sync d =>
      simp only [Thread.move, hidle.2, if_true, Option.map_some, Option.some.injEq, Prod.mk.injEq] at h
      obtain ⟨rfl, rfl⟩ := h
      exact ⟨q, sync_call d q v _, hq⟩
    | getvalue sem value =>
      cases h
      exact ⟨q, look_call (by simp only [Op.look]; split_ifs <;> simp) q v _, hq⟩
    | destroy sem =>
      cases h
      exact ⟨q, look_call (by simp only [Op.look]; split_ifs <;> simp) q v _, hq⟩
  | op b =>
    simp only [Client.move] at h
    split at h
    · rename_i hlook
      obtain ⟨⟨m₁, r⟩, h1, h2⟩ := Option.map_eq_some_iff.1 h
      cases h2
      exact sync_step hc hlook h1 hq hmax
    · rename_i hlook
      split_ifs at h
      cases h
      simp only [Client.slot, Client.event, Client.returns, hlook, hc.load hlook, sem_getvalue, hq]
      exact ⟨q, .effect .getvalue, rfl⟩
    · rename_i out hlook
      have hframe : c.thread.frame = .idle := by
        by_contra hf
        exact absurd ((hc.busy hf).1.symm.trans hlook) (by simp)
      split_ifs at h
      cases h
      simp only [Client.slot, Client.event, Client.returns, hlook, hframe]
      exact ⟨q, .ret, hq⟩

/-- For any number of threads that call any functions of `semaphore.c` on a semaphore
initialised with `v`, in every interleaving of their operations in which no `sem_post`
adds to `INT_MAX`: the calls and returns are those of a counter whose calls are atomic. -/
theorem sem_linearizable {h : List (Event T Op Out)}
    (ht : Traced (Conf.step Client.move) (fun s l _ => postsBelowMax s l = true) observed (clients v) h s) :
    Linearizable (counting T v) h := by
  refine linearizable_of_slots Client.slot (fun s (q : Nat) => s.mem.value.word = (q : Int)) rfl (fun _ => rfl) ?_ ht
  intro s t a s' q hrun hq hmax hst
  exact (run_fits hrun t).step hq (of_decide_eq_true hmax) (Conf.step_self hst)

/-- Thread 0 waits and sleeps; thread 1 posts, wakes it, and still reads the unit it has added. -/
def handover : List (Fin 2 × Do (Fin 2)) :=
  [(0, .call (.sync (.wait .obj))), (0, .op .go), (0, .op .go), (1, .call (.sync (.post .obj))), (1, .op .go),
    (1, .op (.wake [0])), (1, .op .go), (0, .op (.resume .woken)), (1, .call (.getvalue .obj .obj)), (1, .op .go),
    (0, .op .go), (0, .op .go), (0, .op .go), (1, .op .go)]

theorem sem_linearizable_handover : ∃ s h,
    Traced (Conf.step Client.move) (fun s l _ => postsBelowMax s l = true) observed (clients 0) h s ∧
    h = ([.call 0 (.sync (.wait .obj)), .call 1 (.sync (.post .obj)), .ret 1 ⟨0, none⟩, .call 1 (.getvalue .obj .obj),
      .ret 0 ⟨0, none⟩, .ret 1 ⟨0, some 1⟩] : List (Event (Fin 2) Op Out)) ∧ Linearizable (counting (Fin 2) 0) h := by
  have hx : (exec (Conf.step Client.move) postsBelowMax (clients 0) handover).isSome = true := by decide +kernel
  obtain ⟨s, hs⟩ := Option.isSome_iff_exists.1 hx
  have ht := @exec_traced _ _ _ _ (fun s l _ => postsBelowMax s l = true) _ observed _
    (fun _ _ _ hb => hb) handover [] _ s
    .nil hs
  exact ⟨s, _, ht, by decide +kernel, sem_linearizable ht⟩

end

end LibNeoos.Semaphore
