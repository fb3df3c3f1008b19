import LibNeoos.Mpi.Completion
import LibNeoos.Mpi.UserRecv
/-!
# When a receive returns

A rank that waits in `recv_match` reads what its socket has, keeps what it did not ask for
and goes round, until a message matches. No other rank has to do anything for that: if a
message the receive accepts has been sent and not been taken, it can return after some
deliveries and some of its own steps, however many other messages come first and whether or
not the queue has room for them. If there is none, it cannot by these steps
(`receive_returns_iff`).
-/

namespace LibNeoos.Mpi

open LibNeoos.Lib

/-- A step of rank `r` in a receive, which may be an interrupted call, or a delivery. -/
def OwnReceive (r : Nat) : Label → Prop
  | .rank x a => x = r ∧ (a = .exec ∨ a = .recv ∨ a = .err (-EINTR))
  | .deliver _ => True

/-- The rank is in a call of `recv_match` for these arguments, and has taken `taken` before. -/
structure Receiving (source tag : Int) (f : Except Int Datagram → Prog Ret) (taken : List Msg) (k : Rank) :
    Prop where
  ready : k.stage = .ready
  prog : k.prog? = some (.recv_match source tag f)
  taken : k.taken = taken

/-- The call has ended with a message it accepts. -/
def Received (source tag : Int) (f : Except Int Datagram → Prog Ret) (taken : List Msg) (k : Rank) : Prop :=
  ∃ m, accepts source tag m = true ∧ k.ctl = .run (f (.ok m.frame)) ∧ k.taken = taken ++ [m]

section
variable {w : World} {r : Nat} {source tag : Int} {f : Except Int Datagram → Prog Ret} {taken : List Msg} {k k' : Rank}
  {out : List Packet}

theorem Rank.receiving (hready : k.stage = .ready) (h : k.wanted = some (source, tag)) :
    ∃ f, Receiving source tag f k.taken k := by
  unfold Rank.wanted at h
  split at h
  · cases h
    exact ⟨_, hready, ‹_›, rfl⟩
  · cases h

/-- The two places of a receive: at the queue, and in the loop. -/
theorem Receiving.ctl (h : Receiving source tag f taken k) :
    k.ctl = .run (.recv_match source tag f) ∨ k.ctl = .recvLoop source tag f := by
  have hp := h.prog
  unfold Rank.prog? at hp
  split at hp
  · cases hp
  · cases hp
    exact .inl ‹_›
  · cases hp
    exact .inr ‹_›

theorem Rank.taken_take (m : Msg) (p : Prog Ret) : (k.take w r m p).taken = k.taken ++ [m] := by
  simp [Rank.taken, Rank.take]

/-- The queue is looked at: the receive ends, or it goes into the loop and nothing on the queue matches. -/
theorem Receiving.exec (h : Receiving source tag f taken k) (hctl : k.ctl = .run (.recv_match source tag f)) :
    ∃ k', k.step w r .exec = some (k', []) ∧
      ((∃ m ∈ k.pool.queue, accepts source tag m = true) ∧ Received source tag f taken k' ∨
        (∀ m ∈ k.pool.queue, accepts source tag m = false) ∧ Receiving source tag f taken k' ∧
          k'.ctl = .recvLoop source tag f ∧ k'.mail = k.mail) := by
  obtain ⟨hfind, herase⟩ := k.pool.take_spec (accepts source tag)
  have hstep : k.step w r .exec = k.exec w r := if_pos h.ready
  rw [hstep]
  unfold Rank.exec
  rw [hctl]
  dsimp only
  cases hq : k.pool.take (accepts source tag) with
  | mk o pool =>
    rw [hq] at hfind herase
    dsimp only at hfind herase
    cases o with
    | some m =>
      have hacc := List.find?_some hfind.symm
      refine ⟨_, rfl, .inl ⟨⟨m, List.mem_of_find?_eq_some hfind.symm, hacc⟩, m, hacc, rfl, ?_⟩⟩
      rw [Rank.taken_take]
      exact congrArg (· ++ [m]) h.taken
    | none =>
      have hnone : ∀ m ∈ k.pool.queue, accepts source tag m = false := by
        simpa using List.find?_eq_none.1 hfind.symm
      refine ⟨_, rfl, .inr ⟨hnone, ⟨h.ready, rfl, h.taken⟩, rfl, ?_⟩⟩
      show pool.queue ++ k.sock = k.pool.queue ++ k.sock
      rw [herase, List.eraseP_of_forall_not (by simpa using hnone)]

/-- One message is read: the receive ends with it, or it is kept or dropped. -/
theorem Receiving.recv (h : Receiving source tag f taken k) (hctl : k.ctl = .recvLoop source tag f) {m : Msg}
    {sock : List Msg} (hsock : k.sock = m :: sock) :
    ∃ k', k.step w r .recv = some (k', []) ∧ k'.sock = sock ∧
      (accepts source tag m = true ∧ Received source tag f taken k' ∨
        Receiving source tag f taken k' ∧ k'.ctl = .recvLoop source tag f ∧
          ∀ x, accepts source tag x = true → (x ∈ k'.mail ↔ x ∈ k.mail)) := by
  have hstep : k.step w r .recv = { k with sock := sock }.recvfrom w r (.frame m) := by
    simp only [Rank.step, h.ready, if_true, hsock]
  rw [hstep]
  unfold Rank.recvfrom
  simp only [hctl, recv_match_body, recv_match_pass]
  by_cases hacc : accepts source tag m = true
  · rw [if_pos hacc]
    refine ⟨_, rfl, rfl, .inl ⟨hacc, m, hacc, rfl, ?_⟩⟩
    rw [Rank.taken_take]
    exact congrArg (· ++ [m]) h.taken
  · rw [if_neg hacc]
    have hput := k.pool.put_spec m
    cases hp : k.pool.put m with
    | none =>
      refine ⟨_, rfl, rfl, .inr ⟨⟨h.ready, rfl, h.taken⟩, rfl, fun x hx => ?_⟩⟩
      have hne : x ≠ m := fun hxm => hacc (hxm ▸ hx)
      simp [Rank.mail, hsock, hne]
    | some pool =>
      have hqueue : pool.queue = k.pool.queue ++ [m] := by
        split at hput
        · rw [hput] at hp
          cases hp
        · obtain ⟨p', hp', hq⟩ := hput
          rw [hp'] at hp
          cases hp
          exact hq
      refine ⟨_, rfl, rfl, .inr ⟨⟨h.ready, rfl, h.taken⟩, rfl, fun x hx => ?_⟩⟩
      have hne : x ≠ m := fun hxm => hacc (hxm ▸ hx)
      simp [Rank.mail, hsock, hqueue, hne]

/-- Every step of a receive: it ends with a message at hand, or goes on with the same messages to match. -/
theorem Receiving.own {a : Do} (h : Receiving source tag f taken k) (ha : a = .exec ∨ a = .recv ∨ a = .err (-EINTR))
    (hstep : k.step w r a = some (k', out)) :
    out = [] ∧ ((∃ m ∈ k.mail, accepts source tag m = true) ∧ Received source tag f taken k' ∨
      Receiving source tag f taken k' ∧ ∀ x, accepts source tag x = true → (x ∈ k'.mail ↔ x ∈ k.mail)) := by
  rcases ha with rfl | rfl | rfl
  · rcases h.ctl with hctl | hctl
    · obtain ⟨k₁, h₁, hcase⟩ := h.exec (w := w) (r := r) hctl
      obtain ⟨rfl, rfl⟩ : k₁ = k' ∧ [] = out := by simpa [h₁] using hstep
      refine ⟨rfl, hcase.imp ?_ ?_⟩
      · rintro ⟨⟨m, hm, hacc⟩, hdone⟩
        exact ⟨⟨m, List.mem_append_left _ hm, hacc⟩, hdone⟩
      · rintro ⟨-, hgo, -, hmail⟩
        exact ⟨hgo, fun x _ => by rw [hmail]⟩
    · simp [Rank.step, h.ready, Rank.exec, hctl] at hstep
  · cases hsock : k.sock with
    | nil => simp [Rank.step, h.ready, hsock] at hstep
    | cons m sock =>
      rcases h.ctl with hctl | hctl
      · simp [Rank.step, h.ready, hsock, Rank.recvfrom, hctl] at hstep
      · obtain ⟨k₁, h₁, -, hcase⟩ := h.recv (w := w) (r := r) hctl hsock
        obtain ⟨rfl, rfl⟩ : k₁ = k' ∧ [] = out := by simpa [h₁] using hstep
        refine ⟨rfl, hcase.imp ?_ fun hc => ⟨hc.1, hc.2.2⟩⟩
        rintro ⟨hacc, hdone⟩
        exact ⟨⟨m, by simp [Rank.mail, hsock], hacc⟩, hdone⟩
  · -- an interrupted `recvfrom` is made again
    rcases h.ctl with hctl | hctl
    · simp [Rank.step, h.ready, Rank.recvfrom, hctl] at hstep
    · have hneg : ¬ (0 : Int) ≤ -EINTR := by decide
      simp only [Rank.step, h.ready, hneg, if_false, if_true, Rank.recvfrom, hctl, recv_match_body, recv_match_pass,
        Option.some.injEq, Prod.mk.injEq] at hstep
      obtain ⟨rfl, rfl⟩ := hstep
      exact ⟨rfl, .inr ⟨⟨rfl, rfl, h.taken⟩, fun x _ => Iff.rfl⟩⟩

end

/-! ## The system -/

/-- A message that the receive accepts is on its way to rank `r`, in its socket or on its queue. -/
def Outstanding (r : Nat) (source tag : Int) (s : Sys) : Prop :=
  ∃ m ∈ (s.rank r).mail ++ msgsTo r s.net, accepts source tag m = true

section
variable {w : World} {s s' : Sys} {r : Nat} {source tag : Int} {f : Except Int Datagram → Prog Ret} {taken : List Msg}
  {ok : Sys → Label → Sys → Prop}

/-- A step of a rank that sends nothing is one of the system. -/
theorem step_quiet {a : Do} {k : Rank} (hr : r < w.n) (h : (s.rank r).step w r a = some (k, [])) :
    ∃ s', step w s (.rank r a) = some s' ∧ s'.rank r = k ∧ s'.net = s.net := by
  refine ⟨_, by simp only [step, if_pos hr, h, Option.map_some]; rfl, by simp, by simp⟩

/-- A delivery moves a message from the network to the socket. -/
theorem Receiving.deliver {i : Nat} (h : Receiving source tag f taken (s.rank r))
    (hst : step w s (.deliver i) = some s') :
    Receiving source tag f taken (s'.rank r) ∧ (s'.rank r).ctl = (s.rank r).ctl ∧
      ∀ m, m ∈ (s'.rank r).mail ++ msgsTo r s'.net ↔ m ∈ (s.rank r).mail ++ msgsTo r s.net := by
  obtain ⟨q, hq⟩ := deliver_keeps hst r
  have htaken : (s'.rank r).taken = (s.rank r).taken := by rw [hq]; rfl
  have hopen : (s.rank r).open? = true := by simp [Rank.open?, h.ready]
  have hlost : s.lost r (.deliver i) = [] := by
    simp only [Sys.lost, hopen]
    split <;> simp
  refine ⟨?_, by rw [hq], fun m => ?_⟩
  · rw [hq]
    exact ⟨h.ready, h.prog, h.taken⟩
  · have hcount := (step_held hst r).count_eq m
    simp only [Sys.held, hlost, htaken, news, msgsTo, List.count_append, List.filter_nil, List.map_nil, List.count_nil,
      Nat.add_zero] at hcount
    simp only [msgsTo, ← List.count_pos_iff, List.count_append]
    omega

/-- In the loop, with something outstanding, the receive reads or the network delivers, and there is less to go. -/
theorem Receiving.advance (hrun : Run (step w) ok start s) (hr : r < w.n) (h : Receiving source tag f taken (s.rank r))
    (hctl : (s.rank r).ctl = .recvLoop source tag f) (hout : Outstanding r source tag s) :
    ∃ s' l, OwnReceive r l ∧ step w s l = some s' ∧
      (Received source tag f taken (s'.rank r) ∨
        Receiving source tag f taken (s'.rank r) ∧ (s'.rank r).ctl = .recvLoop source tag f ∧
          Outstanding r source tag s' ∧
          2 * s'.net.length + (s'.rank r).sock.length < 2 * s.net.length + (s.rank r).sock.length) := by
  obtain ⟨m, hm, hacc⟩ := hout
  cases hsock : (s.rank r).sock with
  | cons m' rest =>
    obtain ⟨k, hk, hrest, hcase⟩ := h.recv (w := w) (r := r) hctl hsock
    obtain ⟨s', hst, hrank, hnet⟩ := step_quiet hr hk
    refine ⟨s', .rank r .recv, ⟨rfl, .inr (.inl rfl)⟩, hst, ?_⟩
    rw [hrank]
    rcases hcase with ⟨-, hdone⟩ | ⟨hgo, hloop, hmail⟩
    · exact .inl hdone
    · refine .inr ⟨hgo, hloop, ⟨m, ?_, hacc⟩, ?_⟩
      · rw [hrank, hnet, List.mem_append, hmail m hacc]
        exact List.mem_append.1 hm
      · rw [hnet, hrest]
        simp
  | nil =>
    -- the queue has been searched, so what is outstanding is in flight
    have hflight : m ∈ msgsTo r s.net := by
      rcases List.mem_append.1 hm with hmail | hnet
      · rw [Rank.mail, hsock, List.append_nil] at hmail
        rw [run_searched hrun r source tag f hctl m hmail] at hacc
        cases hacc
      · exact hnet
    obtain ⟨p, rest, hnet⟩ := List.exists_cons_of_ne_nil (List.ne_nil_of_mem (mem_msgsTo.1 hflight))
    obtain ⟨s', hst, hnet', -⟩ := deliver_first (w := w) hnet
    obtain ⟨hgo, hloop, hmem⟩ := h.deliver hst
    refine ⟨s', .deliver 0, trivial, hst, .inr ⟨hgo, hloop.trans hctl, ⟨m, (hmem m).2 hm, hacc⟩, ?_⟩⟩
    obtain ⟨p', -, -, hrank⟩ := deliver_spec hst
    rcases hrank r with ⟨hsame, -⟩ | ⟨-, hsame⟩
    · simp [hsame, hsock, hnet, hnet']
    · simp only [hsame, hsock, hnet, hnet', List.nil_append, List.length_cons, List.length_nil]
      omega

/-- From the loop, the receive can return. -/
theorem Receiving.returns (hrun : Run (step w) ok start s) (hr : r < w.n) (h : Receiving source tag f taken (s.rank r))
    (hctl : (s.rank r).ctl = .recvLoop source tag f) (hout : Outstanding r source tag s) :
    Can (step w) (fun _ l _ => OwnReceive r l) (fun s => Received source tag f taken (s.rank r)) s := by
  refine Can.mono (Can.of_measure (G := fun s => Received source tag f taken (s.rank r))
    (I := fun s => Run (step w) (fun _ _ _ => True) start s ∧ (Received source tag f taken (s.rank r) ∨
      Receiving source tag f taken (s.rank r) ∧ (s.rank r).ctl = .recvLoop source tag f ∧ Outstanding r source tag s))
    (fun s => 2 * s.net.length + (s.rank r).sock.length) ?_ ?_) fun s hs => hs.2
  · rintro s ⟨hrun, hs⟩ hno
    obtain ⟨hin, hctl, hout⟩ := hs.resolve_left hno
    obtain ⟨s', l, hown, hst, hcase⟩ := hin.advance hrun hr hctl hout
    refine Can.one hown hst ⟨⟨.snoc hrun trivial hst, ?_⟩, ?_⟩
    · exact hcase.imp id fun hc => ⟨hc.1, hc.2.1, hc.2.2.1⟩
    · exact hcase.imp id fun hc => hc.2.2.2
  · exact ⟨hrun.mono fun _ _ _ _ => trivial, .inr ⟨h, hctl, hout⟩⟩

/-- A step of the receive with nothing outstanding. -/
theorem Receiving.stays {l : Label} (h : Receiving source tag f taken (s.rank r)) (hnone : ¬ Outstanding r source tag s)
    (hown : OwnReceive r l) (hst : step w s l = some s') :
    Receiving source tag f taken (s'.rank r) ∧ ¬ Outstanding r source tag s' := by
  cases l with
  | deliver i =>
    obtain ⟨hgo, -, hmem⟩ := h.deliver hst
    refine ⟨hgo, ?_⟩
    rintro ⟨m, hm, hacc⟩
    exact hnone ⟨m, (hmem m).1 hm, hacc⟩
  | rank x a =>
    obtain ⟨rfl, ha⟩ := hown
    obtain ⟨-, k, out, hk, rfl⟩ := step_rank hst
    obtain ⟨rfl, ⟨⟨m, hm, hacc⟩, -⟩ | ⟨hgo, hmail⟩⟩ := h.own ha hk
    · exact absurd ⟨m, List.mem_append_left _ hm, hacc⟩ hnone
    · refine ⟨by simpa using hgo, ?_⟩
      rintro ⟨m, hm, hacc⟩
      simp only [Function.update_self, List.append_nil, List.mem_append, hmail m hacc] at hm
      exact hnone ⟨m, List.mem_append.2 hm, hacc⟩

/-- A receive can return a message, by its own steps and deliveries alone, exactly when a
message it accepts is outstanding. -/
theorem receive_returns_iff (hrun : Run (step w) ok start s) (hr : r < w.n)
    (h : Receiving source tag f taken (s.rank r)) :
    Can (step w) (fun _ l _ => OwnReceive r l) (fun s => Received source tag f taken (s.rank r)) s ↔
      Outstanding r source tag s := by
  constructor
  · rintro ⟨s', hgo, m, -, -, htaken⟩
    by_contra hnone
    have hkeep : ∀ s l s', Receiving source tag f taken (s.rank r) ∧ ¬ Outstanding r source tag s → OwnReceive r l →
        step w s l = some s' → Receiving source tag f taken (s'.rank r) ∧ ¬ Outstanding r source tag s' :=
      fun _ _ _ hs hown hst => hs.1.stays hs.2 hown hst
    have hstill := hgo.inv _ ⟨h, hnone⟩ hkeep
    rw [hstill.1.taken] at htaken
    simp at htaken
  · intro hout
    rcases h.ctl with hctl | hctl
    · obtain ⟨k, hk, hcase⟩ := h.exec (w := w) (r := r) hctl
      obtain ⟨s', hst, hrank, hnet⟩ := step_quiet hr hk
      have hown : OwnReceive r (.rank r .exec) := ⟨rfl, .inl rfl⟩
      rw [← hrank] at hcase
      rcases hcase with ⟨-, hdone⟩ | ⟨-, hgo, hloop, hmail⟩
      · exact .one hown hst hdone
      · have hrun' : Run (step w) (fun _ _ _ => True) start s' := .snoc (hrun.mono fun _ _ _ _ => trivial) trivial hst
        have hout' : Outstanding r source tag s' := by
          rw [Outstanding, hmail, hnet]
          exact hout
        obtain ⟨s₂, hrest, hdone⟩ := hgo.returns hrun' hr hloop hout'
        exact ⟨s₂, (Run.one hown hst).trans hrest, hdone⟩
    · exact h.returns hrun hr hctl hout

/-- Rank 1 sends a message that rank 0 does not ask for, and then the one it does. -/
def duoBehind : World :=
  duo [.recv [0] 1 MPI_BYTE 1 9 MPI_COMM_WORLD]
    [.send [7] 1 MPI_BYTE 0 5 MPI_COMM_WORLD, .send [8] 1 MPI_BYTE 0 9 MPI_COMM_WORLD]

/-- Both are in flight, the other one first, and the receive can return. -/
theorem receive_returns_iff_behind :
    ∃ s f, Run (step duoBehind) (fun _ _ _ => True) start s ∧
      (msgsTo 0 s.net).map (·.frame.data) = [[7], [8]] ∧ Receiving 1 9 f [] (s.rank 0) ∧
      Can (step duoBehind) (fun _ l _ => OwnReceive 0 l) (fun s => Received 1 9 f [] (s.rank 0)) s := by
  have h : ((exec (step duoBehind) (fun _ _ => true) start
      (duoInit ++ ([.rank 0 .call, .rank 0 .exec, .rank 1 .call, .rank 1 .exec, .rank 1 .exec, .rank 1 .call,
        .rank 1 .exec] :
        List Label))).map fun s =>
      decide ((msgsTo 0 s.net).map (·.frame.data) = [[7], [8]] ∧
        (s.rank 0).stage = .ready ∧ (s.rank 0).wanted = some (1, 9) ∧ (s.rank 0).taken = [] ∧
        ∃ m ∈ (s.rank 0).mail ++ msgsTo 0 s.net, accepts 1 9 m = true)) = some true := by
    decide +kernel
  obtain ⟨s, hrun, hnet, hready, hwanted, htaken, hout⟩ := exec_reaches h fun _ _ _ _ => trivial
  obtain ⟨f, hf⟩ := Rank.receiving hready hwanted
  rw [htaken] at hf
  exact ⟨s, f, hrun, hnet, hf, (receive_returns_iff hrun (by decide) hf).2 hout⟩

end

end LibNeoos.Mpi
