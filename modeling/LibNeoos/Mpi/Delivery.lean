import LibNeoos.Mpi.Sends
import LibNeoos.Mpi.Startup
/-!
# Messages sent during start-up

A rank that has its `GO` returns from `MPI_Init` and may send to a rank that is
still in the loop of `rendezvous`, which reads and forgets everything but a
`GO`. Rank 0 sends its `GO`s before anything else, so with delivery in order
none of its messages can overtake one. A message between two other ranks can,
and is then lost. If none does, and the unexpected queue never overflows,
every message a call has sent is in flight, in its receiver's socket or queue,
or taken by a receive.
-/

namespace LibNeoos.Mpi

open LibNeoos.Lib Mailbox

/-! ## The environment -/

def Origin.sender : Origin → Nat
  | .hello s => s
  | .go => 0
  | .user s _ => s
  | .coll s _ _ => s

/-- No system call fails, except that a receive may be interrupted, and one of start-up,
which does not block, may find nothing. -/
def patient (s : Sys) : Label → Bool
  | .rank r (.err e) =>
    if (s.rank r).stage = .ready then e = -EINTR ∧ (s.rank r).waiting else (s.rank r).stage.tolerates e
  | _ => true

/-- Messages from one rank to another arrive in the order they were sent. -/
def inOrder (s : Sys) : Label → Bool
  | .deliver i =>
    match s.net[i]? with
    | some p => (s.net.take i).all fun q => ¬ (q.dst = p.dst ∧ q.msg.origin.sender = p.msg.origin.sender)
    | none => true
  | _ => true

/-- The `GO` for this rank has reached it. -/
def Rank.goArrived (k : Rank) : Bool := k.stage = .restore ∨ k.stage = .ready ∨ k.sock.any (·.origin = .go)

/-- A message of a call between two ranks other than rank 0 arrives only when
the receiver's `GO` has. -/
def noOvertake (s : Sys) : Label → Bool
  | .deliver i =>
    match s.net[i]? with
    | some p =>
      p.msg.origin.app = true → p.msg.origin.sender ≠ 0 → p.dst ≠ 0 → (s.rank p.dst).goArrived = true
    | none => true
  | _ => true

/-- No message is read off the socket while the unexpected queue is full, but
one the receive takes. -/
def roomy (s : Sys) : Label → Bool
  | .rank r .recv => (s.rank r).lost .recv = []
  | _ => true

/-! ## Ranks during start-up -/

/-- The stages of a rank other than rank 0 once all are bound. -/
def Stage.spoke : Stage → Bool
  | .bound => true
  | .hello _ => true
  | .poll _ => true
  | .restore => true
  | .ready => true
  | _ => false

/-- The stages of rank 0 from its first `GO` on. -/
def Stage.past : Stage → Bool
  | .go _ => true
  | .restore => true
  | .ready => true
  | _ => false

def IsApp (m : Msg) : Prop := m.origin.app = true

def IsGo (m : Msg) : Prop := m.origin = .go

section
variable {w : World} {r : Nat} {k k' : Rank} {out : List Packet} {a : Do}

theorem goArrived_iff (k : Rank) :
    k.goArrived = true ↔ k.stage = .restore ∨ k.stage = .ready ∨ ∃ g ∈ k.sock, IsGo g := by
  simp [Rank.goArrived, IsGo]

/-- Only a started rank sends messages of calls. -/
theorem out_app (h : k.step w r a = some (k', out)) :
    ∀ p ∈ out, IsApp p.msg → k.stage = .ready ∧ p.msg.origin.sender = r := by
  intro p hp happ
  by_cases hr : k.stage = .ready
  · refine ⟨hr, ?_⟩
    have hm := step_move h
    generalize k.core = c, k'.core = c' at hm
    cases hm with
    | quiet hq => simp [IsApp, (hq p hp).not_app] at happ
    | send h1 =>
      simp only [List.mem_singleton] at hp
      subst hp
      unfold Core.origin
      split <;> rfl
    | _ => cases hp
  · exfalso
    rcases step_early hr h with ⟨-, -, -, rfl⟩ | ⟨rfl, -⟩ | ⟨e, -, rfl, -⟩
    · cases hp
    · simp [IsApp, ((rendezvous_core h).2 p hp).not_app] at happ
    · cases hp

/-- A step of a rank other than rank 0 once all are bound. -/
theorem spoke_step (hr : 0 < r) (hn : r < w.n) (hk : k.stage.spoke = true) (h : k.step w r a = some (k', out))
    (hp : ∀ e, a = .err e → k.stage ≠ .ready → k.stage.tolerates e = true)
    (hgo : ∀ m ∈ k.sock, IsGo m → m.frame.hdr.tag = TAG_GO)
    (hf : k.stage.early = true → Follows IsApp IsGo k.sock) :
    k'.stage.spoke = true ∧ (k.goArrived = true → k'.goArrived = true) ∧
      (k'.stage.early = true → Follows IsApp IsGo k'.sock) := by
  by_cases hready : k.stage = .ready
  · have := (step_ready hready h).1
    simp [this, Stage.spoke, Stage.early, Rank.goArrived]
  · simp only [goArrived_iff]
    rcases step_early hready h with ⟨-, hu, -⟩ | ⟨-, st, q, rfl, hj⟩ | ⟨e, rfl, -, st, rfl, hfail⟩
    · rw [hu] at hk; cases hk
    · generalize k.stage = st0, k.sock = q0 at hj hk hgo hf hready
      cases hj with
      | alone h1 => omega
      | root h1 h2 => omega
      | other h1 h2 => exact ⟨rfl, by simp, fun _ => hf rfl⟩
      | hello => exact ⟨rfl, by simp, fun _ => hf rfl⟩
      | empty => exact ⟨rfl, by simp, fun _ => hf rfl⟩
      | acked h1 => exact ⟨rfl, by simp, by simp [Stage.early]⟩
      | @ignores c m q h1 =>
        -- what is thrown away is not a `GO`
        have hm : ¬ IsGo m := fun hg => h1 (hgo m (by simp) hg)
        refine ⟨rfl, ?_, fun _ => (hf rfl).tail hm⟩
        simp [hm]
      | restored => exact ⟨rfl, by simp, by simp [Stage.early]⟩
      | _ => cases hk
    · have htol := hp e rfl hready
      generalize k.stage = st0 at hfail hk hf hready htol
      cases hfail with
      | fatal h1 => rw [h1] at htol; cases htol
      | poll => exact ⟨rfl, by simp, fun _ => hf rfl⟩
      | hello => cases htol
      | _ => cases hk

/-- A step of rank 0 once it sends its `GO`s. -/
theorem root_step (hk : k.stage.past = true) (h : k.step w 0 a = some (k', out))
    (hp : ∀ e, a = .err e → k.stage ≠ .ready → k.stage.tolerates e = true) :
    k'.stage.past = true ∧ ∀ b < w.n, (∀ i, k'.stage = .go i → b < i) →
      (∀ i, k.stage = .go i → b < i) ∨ ⟨b, token 0 TAG_GO, .go⟩ ∈ out := by
  by_cases hready : k.stage = .ready
  · have := (step_ready hready h).1
    simp [this, hready, Stage.past]
  · rcases step_early hready h with ⟨-, hu, -⟩ | ⟨-, st, q, rfl, hj⟩ | ⟨e, rfl, -, st, rfl, hfail⟩
    · rw [hu] at hk; cases hk
    · generalize k.stage = st0, k.sock = q0 at hj hk
      cases hj with
      | @go i q h1 =>
        refine ⟨rfl, fun b hb hlt => ?_⟩
        have : b < i + 1 := hlt _ rfl
        rcases Nat.lt_or_eq_of_le (Nat.le_of_lt_succ this) with h2 | rfl
        · exact .inl fun j hj => by cases hj; exact h2
        · exact .inr (by simp)
      | @went i q h1 => exact ⟨rfl, fun b hb _ => .inl fun j hj => by cases hj; omega⟩
      | restored => exact ⟨rfl, fun b hb _ => .inl (by simp)⟩
      | _ => cases hk
    · have htol := hp e rfl hready
      generalize k.stage = st0 at hfail hk htol
      cases hfail with
      | fatal h1 => rw [h1] at htol; cases htol
      | go => cases htol
      | _ => cases hk

end

/-! ## From rank 0's decision on -/

def GoTo (b : Nat) (p : Packet) : Prop := p.dst = b ∧ IsGo p.msg

def RootAppTo (b : Nat) (p : Packet) : Prop := p.dst = b ∧ IsApp p.msg ∧ p.msg.origin.sender = 0

/-- Rank 0 has decided. Every other rank's `GO` comes before any message of a
call that rank could throw away. -/
structure Going (w : World) (s : Sys) : Prop where
  root : (s.rank 0).stage.past = true
  spoke : ∀ b, 0 < b → b < w.n → (s.rank b).stage.spoke = true
  first : ∀ b, 0 < b → b < w.n → (s.rank b).stage.early = true → Follows IsApp IsGo (s.rank b).sock
  sent : ∀ b, 0 < b → b < w.n → (∀ i, (s.rank 0).stage = .go i → b < i) →
    (s.rank b).goArrived = true ∨ ∃ p ∈ s.net, GoTo b p
  order : ∀ b, 0 < b → b < w.n → (s.rank b).goArrived = true ∨ Follows (RootAppTo b) (GoTo b) s.net

section
variable {w : World} {s s' : Sys} {l : Label}

theorem held_go (hl : Labelled w s) {b : Nat} {m : Msg} (hm : m ∈ (s.rank b).sock) (hg : IsGo m) :
    m.frame.hdr.tag = TAG_GO := by
  have := hl.held b m (by simp [Sys.held, Rank.mail, hm])
  simpa only [MsgOk, show m.origin = .go from hg] using this

theorem patient_err {r : Nat} {a : Do} (hp : patient s (.rank r a) = true) (e : Int) (he : a = .err e)
    (hr : (s.rank r).stage ≠ .ready) : (s.rank r).stage.tolerates e = true := by
  subst he
  simpa [patient, hr] using hp

theorem going_rank (hg : Going w s) (hl : Labelled w s) {r : Nat} {a : Do} (h : step w s (.rank r a) = some s')
    (hp : patient s (.rank r a) = true) : Going w s' := by
  obtain ⟨hr, k, out, hk, rfl⟩ := step_rank h
  have happ := out_app hk
  have herr := patient_err hp
  have hspoke : ∀ b, 0 < b → b < w.n → (Function.update s.rank r k b).stage.spoke = true ∧
      ((s.rank b).goArrived = true → (Function.update s.rank r k b).goArrived = true) ∧
      ((Function.update s.rank r k b).stage.early = true → Follows IsApp IsGo (Function.update s.rank r k b).sock) := by
    intro b h0 hb
    by_cases hbr : b = r
    · subst hbr
      simpa using spoke_step h0 hb (hg.spoke b h0 hb) hk herr (fun m hm => held_go hl hm) (hg.first b h0 hb)
    · simpa [hbr] using ⟨hg.spoke b h0 hb, hg.first b h0 hb⟩
  have hroot : (Function.update s.rank r k 0).stage.past = true ∧ ∀ b < w.n,
      (∀ i, (Function.update s.rank r k 0).stage = .go i → b < i) →
      (∀ i, (s.rank 0).stage = .go i → b < i) ∨ ⟨b, token 0 TAG_GO, .go⟩ ∈ out := by
    by_cases h0 : r = 0
    · subst h0
      simpa using root_step hg.root hk herr
    · simpa [Ne.symm h0] using ⟨hg.root, fun b _ hi => .inl hi⟩
  refine ⟨hroot.1, fun b h0 hb => (hspoke b h0 hb).1, fun b h0 hb => (hspoke b h0 hb).2.2, fun b h0 hb hi => ?_,
    fun b h0 hb => ?_⟩
  · rcases hroot.2 b hb hi with h1 | h1
    · rcases hg.sent b h0 hb h1 with h2 | ⟨p, hp, hgo⟩
      · exact .inl ((hspoke b h0 hb).2.1 h2)
      · exact .inr ⟨p, List.mem_append_left _ hp, hgo⟩
    · exact .inr ⟨_, List.mem_append_right _ h1, rfl, rfl⟩
  · rcases hg.order b h0 hb with h1 | h1
    · exact .inl ((hspoke b h0 hb).2.1 h1)
    · by_cases hnew : ∃ p ∈ out, RootAppTo b p
      · -- rank 0 is started, so it has sent all its `GO`s
        obtain ⟨p, hp, -, hpa, hps⟩ := hnew
        obtain ⟨hready, hsend⟩ := happ p hp hpa
        obtain rfl : r = 0 := by rw [← hsend, hps]
        rcases hg.sent b h0 hb (by simp [hready]) with h2 | h2
        · exact .inl ((hspoke b h0 hb).2.1 h2)
        · exact .inr (h1.append (.inl h2))
      · exact .inr (h1.append (.inr fun p hp hP => hnew ⟨p, hp, hP⟩))

/-- From rank 0's decision on every rank's socket is bound. -/
theorem Going.bound (hg : Going w s) {b : Nat} (hb : b < w.n) : (s.rank b).open? = true := by
  rcases Nat.eq_zero_or_pos b with rfl | h0
  · have := hg.root
    cases hst : (s.rank 0).stage <;> simp_all [Rank.open?, Stage.past]
  · have := hg.spoke b h0 hb
    cases hst : (s.rank b).stage <;> simp_all [Rank.open?, Stage.spoke]

/-- A message of a call finds the `GO` already there. -/
theorem Going.arrived (hg : Going w s) {i : Nat} {p : Packet} (hp : s.net[i]? = some p)
    (ho : inOrder s (.deliver i) = true) (hv : noOvertake s (.deliver i) = true) (h0 : 0 < p.dst) (hb : p.dst < w.n)
    (ha : IsApp p.msg) : (s.rank p.dst).goArrived = true := by
  simp only [inOrder, hp, List.all_eq_true, decide_eq_true_eq, not_and] at ho
  simp only [noOvertake, hp, decide_eq_true_eq] at hv
  by_cases hs : p.msg.origin.sender = 0
  · rcases hg.order p.dst h0 hb with h1 | h1
    · exact h1
    · obtain ⟨g, hg1, hg2, hg3⟩ := h1.take hp ⟨rfl, ha, hs⟩
      refine absurd ?_ (ho g hg1 hg2)
      rw [hs, show g.msg.origin = .go from hg3]
      rfl
  · exact hv ha hs (by omega)

theorem goArrived_append {k : Rank} {q : List Msg} (h : k.goArrived = true ∨ ∃ g ∈ q, IsGo g) :
    ({ k with sock := k.sock ++ q } : Rank).goArrived = true := by
  simp only [goArrived_iff, List.mem_append] at h ⊢
  rcases h with (h | h | ⟨g, hg, hgo⟩) | ⟨g, hg, hgo⟩
  · exact .inl h
  · exact .inr (.inl h)
  · exact .inr (.inr ⟨g, .inl hg, hgo⟩)
  · exact .inr (.inr ⟨g, .inr hg, hgo⟩)

/-- A `GO` that has arrived, or that this step delivers, has arrived after the step. -/
theorem Going.deliver_go (hg : Going w s) {i : Nat} {p : Packet} (hp : s.net[i]? = some p)
    (h : step w s (.deliver i) = some s') {b : Nat} (hb : b < w.n) (hgo : (s.rank b).goArrived = true ∨ GoTo b p) :
    (s'.rank b).goArrived = true := by
  obtain ⟨p', hp', -, hrank⟩ := deliver_spec h
  obtain rfl : p' = p := Option.some.inj (hp'.symm.trans hp)
  rcases hrank b with ⟨hb', hopen⟩ | ⟨rfl, hb'⟩ <;> rw [hb']
  · refine hgo.resolve_right fun hto => ?_
    have := hopen hto.1.symm
    rw [hg.bound hb] at this
    cases this
  · exact goArrived_append (hgo.imp_right fun hto => ⟨_, List.mem_singleton_self _, hto.2⟩)

theorem going_deliver (hg : Going w s) {i : Nat} (h : step w s (.deliver i) = some s')
    (ho : inOrder s (.deliver i) = true) (hv : noOvertake s (.deliver i) = true) : Going w s' := by
  have hstage := deliver_stage h
  obtain ⟨p, hp, hnet, hrank⟩ := deliver_spec h
  have hgo : ∀ {b}, b < w.n → (s.rank b).goArrived = true ∨ GoTo b p → (s'.rank b).goArrived = true :=
    fun hb => hg.deliver_go hp h hb
  refine ⟨by rw [hstage]; exact hg.root, fun b h0 hb => by rw [hstage]; exact hg.spoke b h0 hb,
    fun b h0 hb he => ?_, fun b h0 hb hi => ?_, fun b h0 hb => ?_⟩
  · rw [hstage] at he
    have hf := hg.first b h0 hb he
    rcases hrank b with ⟨h2, -⟩ | ⟨rfl, h2⟩ <;> rw [h2]
    · exact hf
    · by_cases ha : IsApp p.msg
      · refine hf.append (.inl ?_)
        rcases (goArrived_iff _).1 (hg.arrived hp ho hv h0 hb ha) with h3 | h3 | h3
        · rw [h3] at he; cases he
        · rw [h3] at he; cases he
        · exact h3
      · exact hf.append (.inr (by simpa using ha))
  · rw [hstage] at hi
    rcases hg.sent b h0 hb hi with h1 | ⟨q, hq, hgq⟩
    · exact .inl (hgo hb (.inl h1))
    · by_cases hqp : GoTo b p
      · exact .inl (hgo hb (.inr hqp))
      · refine .inr ⟨q, ?_, hgq⟩
        rw [hnet]
        refine List.mem_eraseIdx_iff_getElem?.2 ?_
        obtain ⟨j, hj⟩ := List.getElem?_of_mem hq
        refine ⟨j, ?_, hj⟩
        rintro rfl
        rw [hp] at hj
        cases hj
        exact hqp hgq
  · rcases hg.order b h0 hb with h1 | h1
    · exact .inl (hgo hb (.inl h1))
    · by_cases hqp : GoTo b p
      · exact .inl (hgo hb (.inr hqp))
      · exact .inr (by rw [hnet]; exact h1.eraseIdx hp hqp)

/-! ## Runs -/

/-- Nothing has failed in this rank's `MPI_Init`. -/
def Rank.sound (k : Rank) : Prop := k.stage ≠ .failed ∧ (k.didBind = true → k.stage ≠ .unbound)

theorem step_sound {r : Nat} {a : Do} {k k' : Rank} {out : List Packet}
    (h : k.step w r a = some (k', out))
    (hp : ∀ e, a = .err e → k.stage ≠ .ready → k.stage.tolerates e = true) : k'.sound := by
  by_cases hready : k.stage = .ready
  · simp [Rank.sound, (step_ready hready h).1]
  · rcases step_early hready h with ⟨-, -, rfl, -⟩ | ⟨-, st, q, rfl, hj⟩ | ⟨e, rfl, -, st, rfl, hfail⟩
    · simp [Rank.sound]
    · generalize k.stage = st0, k.sock = q0 at hj
      cases hj <;> simp [Rank.sound]
    · have htol := hp e rfl hready
      generalize k.stage = st0 at hfail htol
      cases hfail with
      | fatal h1 => rw [h1] at htol; cases htol
      | _ => simp [Rank.sound]

theorem sound_step (hs : ∀ x, (s.rank x).sound) (h : step w s l = some s') (hp : patient s l = true) (x : Nat) :
    (s'.rank x).sound := by
  refine step_each (fun _ _ hk => hk) h x (fun a k' out hl hk => ?_) (hs x)
  subst hl
  exact step_sound hk (patient_err hp)

theorem Greeting.not_app {m : Msg} (h : Greeting w s m) : ¬ IsApp m := by
  obtain ⟨x, -, rfl, -⟩ := h
  simp [IsApp, Origin.app]

theorem going_of_decides (hw : Waiting w s) (hs : ∀ x, (s.rank x).sound) (hd : Decides w s s') : Going w s' := by
  obtain ⟨hb, st, hst, rfl⟩ := hd
  have hother : ∀ b, 0 < b → Function.update s.rank 0 { s.rank 0 with stage := st } b = s.rank b := fun b h0 => by
    simp [show b ≠ 0 by omega]
  refine ⟨?_, fun b h0 hbn => ?_, fun b h0 hbn _ => ?_, fun b h0 hbn hi => ?_, fun b h0 hbn => ?_⟩
  · rcases hst with rfl | ⟨-, rfl⟩ <;> simp [Stage.past]
  · simp only [hother b h0]
    have h1 := hw.stage b
    have h2 := hs b
    have h3 := hw.seen b
    have h4 := hb b hbn
    cases hk : (s.rank b).stage with
    | collect seen i => have := (h3 seen i hk).1; omega
    | _ => simp_all [Stage.spoke, Stage.early, Rank.sound]
  · simp only [hother b h0]
    exact follows_of_not fun m hm => (hw.sock b m hm).not_app
  · rcases hst with rfl | ⟨h1, -⟩
    · have := hi 1 (by simp)
      omega
    · omega
  · exact .inr (follows_of_not fun p hp hP => (hw.net p hp).not_app hP.2.1)

/-- What holds throughout start-up and after it. -/
structure Orderly (w : World) (s : Sys) : Prop where
  labelled : Labelled w s
  sound : ∀ x, (s.rank x).sound
  going : Waiting w s ∨ Going w s

theorem orderly_step (hi : Orderly w s) (h : step w s l = some s') (hp : patient s l = true)
    (ho : inOrder s l = true) (hv : noOvertake s l = true) : Orderly w s' := by
  refine ⟨labelled_step hi.labelled h, sound_step hi.sound h hp, ?_⟩
  rcases hi.going with hw | hg
  · rcases waiting_step hw h with hd | hw'
    · exact .inr (going_of_decides hw hi.sound hd)
    · exact .inl hw'
  · cases l with
    | rank r a => exact .inr (going_rank hg hi.labelled h hp)
    | deliver i => exact .inr (going_deliver hg h ho hv)

theorem start_orderly (w : World) : Orderly w start :=
  ⟨run_labelled (.nil : Run (step w) (fun _ _ _ => True) start start), fun x => by simp [start, Rank.sound],
    .inl (start_waiting w)⟩

/-- A call sends to a rank of the world. -/
theorem Labelled.dst_lt (hl : Labelled w s) {p : Packet} (hp : p ∈ s.net) (happ : IsApp p.msg) : p.dst < w.n := by
  have hok := hl.held p.dst p.msg (List.mem_append_left _ (List.mem_append_left _ (mem_msgsTo.2 hp)))
  unfold MsgOk at hok
  split at hok
  · obtain ⟨-, op, -, -, hf, -⟩ := hok
    exact hf
  · obtain ⟨-, op, -, -, hf, -⟩ := hok
    exact hf
  · rename_i heq
    simp [IsApp, heq, Origin.app] at happ
  · rename_i heq
    simp [IsApp, heq, Origin.app] at happ

/-- A delivery drops no message of a call. -/
theorem Orderly.delivered (hi : Orderly w s) (i x : Nat) : ∀ m ∈ s.lost x (.deliver i), ¬ IsApp m := by
  intro m hm happ
  simp only [Sys.lost] at hm
  split at hm
  · rename_i p hp
    have hmem := List.mem_of_getElem? hp
    split at hm <;> simp only [List.mem_singleton, List.not_mem_nil] at hm
    rename_i hclosed
    subst hm
    rcases hi.going with hw | hg
    · exact (hw.net p hmem).not_app happ
    · have hopen := hg.bound (hi.labelled.dst_lt hmem happ)
      obtain ⟨rfl, hclosed⟩ := hclosed
      simp [hopen] at hclosed
  · cases hm

/-- The loops of the handshake read no message of a call. -/
theorem Orderly.read (hi : Orderly w s) {r : Nat} (hr : r < w.n) (he : (s.rank r).stage.early = true) :
    ∀ m ∈ (s.rank r).sock.take 1, ¬ IsApp m := by
  intro m hm
  rcases hi.going with hw | hg
  · exact (hw.sock r m (List.mem_of_mem_take hm)).not_app
  · rcases Nat.eq_zero_or_pos r with rfl | h0
    · have := hg.root
      cases hst : (s.rank 0).stage <;> simp_all [Stage.past, Stage.early]
    · have hf := hg.first r h0 hr he
      cases hq : (s.rank r).sock with
      | nil => simp [hq] at hm
      | cons m' q =>
        rw [hq] at hf hm
        simp only [List.take_succ_cons, List.take_zero, List.mem_singleton] at hm
        exact hm ▸ hf.head

theorem lost_apps_eq_nil (hi : Orderly w s) (h : step w s l = some s') (hr : roomy s l = true) (x : Nat) :
    apps (s.lost x l) = [] := by
  have hno : ∀ l : List Msg, (∀ m ∈ l, ¬ IsApp m) → apps l = [] := fun l hl => by
    simpa [apps, List.filter_eq_nil_iff, IsApp] using hl
  refine hno _ ?_
  cases l with
  | deliver i => exact hi.delivered i x
  | rank r a =>
    simp only [Sys.lost]
    split
    · cases a with
      | recv =>
        simp only [roomy, decide_eq_true_eq] at hr
        simp [hr]
      | init =>
        have hread := hi.read (step_rank h).1
        simp only [Rank.lost]
        split
        · rename_i hst
          split
          · simp
          · exact hread (by rw [hst]; rfl)
        · rename_i hst
          exact hread (by rw [hst]; rfl)
        · simp
      | _ => simp [Rank.lost]
    · simp

/-- The conditions under which start-up loses nothing. -/
def Delivers (s : Sys) (l : Label) : Prop :=
  patient s l = true ∧ inOrder s l = true ∧ noOvertake s l = true ∧ roomy s l = true

theorem run_orderly {ok : Sys → Label → Sys → Prop} (hok : ∀ s l s', ok s l s' → Delivers s l)
    (h : Run (step w) ok start s) : Orderly w s :=
  h.inv (Orderly w) (start_orderly w) fun s l s' hi hl hst =>
    orderly_step hi hst (hok s l s' hl).1 (hok s l s' hl).2.1 (hok s l s' hl).2.2.1

theorem run_held_perm {ok : Sys → Label → Sys → Prop} (hok : ∀ s l s', ok s l s' → Delivers s l)
    (h : Run (step w) ok start s) (x : Nat) : (apps (s.held x)).Perm (msgsTo x s.sent) := by
  have hrun := h.with_inv (Orderly w) (start_orderly w) fun s l s' hi hl hst =>
    orderly_step hi hst (hok s l s' hl).1 (hok s l s' hl).2.1 (hok s l s' hl).2.2.1
  have hstep : ∀ s l s', Orderly w s ∧ ok s l s' → step w s l = some s' → ∀ x, apps (s.lost x l) = [] :=
    fun s l s' hl hst => lost_apps_eq_nil hl.1 hst (hok s l s' hl.2).2.2.2
  exact held_perm hstep hrun x

/-- If no message between two ranks other than rank 0 overtakes the receiver's
`GO` and the unexpected queue never overflows, every message a call has sent is
in flight to its receiver, in its socket or on its queue, or one of its
receives has taken it; and it is in one of these places only. -/
theorem startup_keeps_messages (w : World) {s : Sys} (h : Run (step w) (fun s l _ => Delivers s l) start s) (x : Nat) :
    (apps (s.held x)).Perm (msgsTo x s.sent) :=
  run_held_perm (fun _ _ _ hl => hl) h x

end

/-- Three ranks; rank 1 sends one byte to rank 2. -/
def trio : World :=
  ⟨3, fun r => if r = 1 then [.send [7] 1 MPI_BYTE 2 5 MPI_COMM_WORLD] else [], by decide, by decide⟩

/-- All ranks bind and greet, rank 0 has sent its `GO`s, rank 1 has got its own,
returned from `MPI_Init` and sent. The `GO` for rank 2 and the message of rank 1
are in flight. -/
def trioInit : List Label :=
  [.rank 0 .bind, .rank 1 .bind, .rank 2 .bind, .rank 0 .init, .rank 1 .init, .rank 1 .init, .rank 2 .init,
    .rank 2 .init, .deliver 0, .deliver 0, .rank 0 .init, .rank 0 .init, .rank 0 .init, .rank 0 .init, .rank 0 .init,
    .deliver 0, .rank 1 .init, .rank 1 .init, .rank 1 .call, .rank 1 .exec]

/-- The message rank 1 sends. -/
def trioMsg : Msg := ⟨⟨⟨1, 5, 1, MPI_BYTE⟩, [7], by decide⟩, .user 1 0⟩

theorem startup_keeps_messages_trio :
    ∃ s, Run (step trio) (fun s l _ => Delivers s l) start s ∧ trioMsg ∈ (s.rank 2).sock ∧
      (apps (s.held 2)).Perm (msgsTo 2 s.sent) := by
  have h : ((exec (step trio) (fun s l => patient s l && inOrder s l && noOvertake s l && roomy s l) start
      (trioInit ++ ([.deliver 0, .deliver 0] : List Label))).map fun s => decide (trioMsg ∈ (s.rank 2).sock)) =
        some true := by
    decide +kernel
  obtain ⟨s, hrun, hm⟩ := exec_reaches h fun s l s' hb => by simpa [Delivers, and_assoc] using hb
  exact ⟨s, hrun, hm, startup_keeps_messages trio hrun 2⟩

/-- No system call fails, the queues are empty and messages of one sender
arrive in order, but rank 2 reads rank 1's message in the loop of `rendezvous`. -/
theorem rendezvous_discards_message :
    ∃ s, Run (step trio) (fun s l _ => patient s l = true ∧ inOrder s l = true ∧ roomy s l = true) start s ∧
      (s.rank 1).stage = .ready ∧ ⟨2, trioMsg⟩ ∈ s.sent ∧ trioMsg ∉ s.held 2 := by
  have h : ((exec (step trio) (fun s l => patient s l && inOrder s l && roomy s l) start
      (trioInit ++ ([.deliver 1, .rank 2 .init] : List Label))).map fun s =>
        decide ((s.rank 1).stage = .ready ∧ ⟨2, trioMsg⟩ ∈ s.sent ∧ trioMsg ∉ s.held 2)) = some true := by
    decide +kernel
  exact exec_reaches h fun s l s' hb => by simpa [and_assoc] using hb

end LibNeoos.Mpi
