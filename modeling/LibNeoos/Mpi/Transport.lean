import LibNeoos.Mpi.World
/-!
# Where messages are

What a step can do, said once for all later proofs. `step_move` lists what a
rank's step does to the call it is in (`Move`); `step_held` accounts for
messages: those a step sends, those it loses, and where the others are. A
message a call has sent is in flight, in its receiver's socket, on its
unexpected queue or taken by one of its receives, unless a step lost it, and
it is never in two of these places (`held_subperm`, `held_perm`).
-/

namespace LibNeoos.Mpi

open LibNeoos.Lib

/-! ## Steps of the system -/

section
variable {w : World} {s s' : Sys}

theorem step_rank {r : Nat} {a : Do} (h : step w s (.rank r a) = some s') :
    r < w.n ∧ ∃ k out, (s.rank r).step w r a = some (k, out) ∧
      s' = { rank := Function.update s.rank r k, net := s.net ++ out,
             sent := s.sent ++ out.filter (·.msg.origin.app) } := by
  simp only [step] at h
  split at h
  · rename_i hr
    obtain ⟨⟨k, out⟩, h1, h2⟩ := Option.map_eq_some_iff.1 h
    exact ⟨hr, k, out, h1, h2.symm⟩
  · cases h

theorem step_deliver {i : Nat} (h : step w s (.deliver i) = some s') :
    ∃ p, s.net[i]? = some p ∧
      s' = if (s.rank p.dst).open? then
          { s with rank := Function.update s.rank p.dst { s.rank p.dst with sock := (s.rank p.dst).sock ++ [p.msg] },
                   net := s.net.eraseIdx i }
        else { s with net := s.net.eraseIdx i } := by
  simp only [step, Sys.deliver] at h
  split at h
  · cases h
  · rename_i p hp
    refine ⟨p, hp, ?_⟩
    split at h <;> rename_i ho <;> cases h <;> simp [ho]

/-- A delivery takes one packet out of the network. It adds the message to its
receiver's socket if that is bound, and changes nothing else. -/
theorem deliver_spec {i : Nat} (h : step w s (.deliver i) = some s') :
    ∃ p, s.net[i]? = some p ∧ s'.net = s.net.eraseIdx i ∧ ∀ x,
      s'.rank x = s.rank x ∧ (x = p.dst → (s.rank x).open? = false) ∨
      x = p.dst ∧ s'.rank x = { s.rank x with sock := (s.rank x).sock ++ [p.msg] } := by
  obtain ⟨p, hp, rfl⟩ := step_deliver h
  refine ⟨p, hp, by split <;> rfl, fun x => ?_⟩
  split
  · by_cases hx : x = p.dst
    · subst hx
      exact .inr ⟨rfl, by simp⟩
    · exact .inl ⟨by simp [hx], fun h => absurd h hx⟩
  · rename_i ho
    exact .inl ⟨rfl, fun hx => by simpa [hx] using ho⟩

theorem deliver_keeps {i : Nat} (h : step w s (.deliver i) = some s') (x : Nat) :
    ∃ q, s'.rank x = { s.rank x with sock := q } := by
  obtain ⟨p, -, -, hrank⟩ := deliver_spec h
  rcases hrank x with ⟨hx, -⟩ | ⟨-, hx⟩
  · exact ⟨(s.rank x).sock, hx⟩
  · exact ⟨_, hx⟩

/-- A property of a rank that says nothing about its socket and that its own
steps keep is kept by every step of the system. -/
theorem step_each {P : Rank → Prop} {l : Label} (hsock : ∀ k q, P k → P { k with sock := q }) (h : step w s l = some s')
    (x : Nat) (hrank : ∀ a k' out, l = .rank x a → (s.rank x).step w x a = some (k', out) → P k') (hx : P (s.rank x)) :
    P (s'.rank x) := by
  cases l with
  | rank r a =>
    obtain ⟨-, k, out, hk, rfl⟩ := step_rank h
    by_cases hxr : x = r
    · subst hxr
      simpa using hrank a k out rfl hk
    · simpa [hxr] using hx
  | deliver i =>
    obtain ⟨q, hq⟩ := deliver_keeps h x
    rw [hq]
    exact hsock _ q hx

end

/-! ## Steps of `MPI_Init` -/

/-- What a step of `MPI_Init` does: stage and socket before, stage and socket
after, packets sent. -/
inductive Join (n r : Nat) : Stage → List Msg → Stage → List Msg → List Packet → Prop
  | alone {q : List Msg} : n = 1 → Join n r .bound q .ready q []
  | root {q : List Msg} : n ≠ 1 → r = 0 → Join n r .bound q (.collect [0] (n - 1)) q []
  | other {q : List Msg} : n ≠ 1 → r ≠ 0 → Join n r .bound q (.hello 0) q []
  | all {seen : List Nat} {q : List Msg} : Join n r (.collect seen 0) q (.go 1) q []
  | yield {seen : List Nat} {i : Nat} : i ≠ 0 → Join n r (.collect seen i) [] (.collect seen i) [] []
  | hears {seen : List Nat} {i : Nat} {m : Msg} {q : List Msg} : i ≠ 0 → m.frame.hdr.tag = TAG_HELLO →
      0 ≤ m.frame.hdr.src → m.frame.hdr.src < n → m.frame.hdr.src.toNat ∉ seen →
      Join n r (.collect seen i) (m :: q) (.collect (m.frame.hdr.src.toNat :: seen) (i - 1)) q []
  | skips {seen : List Nat} {i : Nat} {m : Msg} {q : List Msg} : i ≠ 0 →
      Join n r (.collect seen i) (m :: q) (.collect seen i) q []
  | go {i : Nat} {q : List Msg} : i < n → Join n r (.go i) q (.go (i + 1)) q [⟨i, token r TAG_GO, .go⟩]
  | went {i : Nat} {q : List Msg} : n ≤ i → Join n r (.go i) q .restore q []
  | hello {c : Nat} {q : List Msg} : Join n r (.hello c) q (.poll ((c + 1) % 64)) q
      (if c = 0 then [⟨0, token r TAG_HELLO, .hello r⟩] else [])
  | empty {c : Nat} : Join n r (.poll c) [] (.hello c) [] []
  | acked {c : Nat} {m : Msg} {q : List Msg} : m.frame.hdr.tag = TAG_GO → Join n r (.poll c) (m :: q) .restore q []
  | ignores {c : Nat} {m : Msg} {q : List Msg} : m.frame.hdr.tag ≠ TAG_GO →
      Join n r (.poll c) (m :: q) (.hello c) q []
  | restored {q : List Msg} : Join n r .restore q .ready q []

/-- The errors `try_recv` takes for an empty socket. -/
def Stage.tolerates : Stage → Int → Bool
  | .collect .., e => e = -EAGAIN ∨ e = -EINTR
  | .poll _, e => e = -EAGAIN ∨ e = -EINTR
  | _, _ => false

/-- What a failed system call of `MPI_Init` does to the stage. -/
inductive Fails : Stage → Int → Stage → Prop
  | fatal {st : Stage} {e : Int} : st.tolerates e = false → Fails st e .failed
  | go {i : Nat} {e : Int} : Fails (.go i) e (.go (i + 1))
  | hello {c : Nat} {e : Int} : Fails (.hello c) e (.poll 1)
  | collect {seen : List Nat} {i : Nat} {e : Int} : Fails (.collect seen i) e (.collect seen i)
  | poll {c : Nat} {e : Int} : Fails (.poll c) e (.hello c)

theorem rendezvous_join {n r : Nat} {k k' : Rank} {out : List Packet} (h : rendezvous n r k = some (k', out)) :
    ∃ st q, k' = { k with stage := st, sock := q } ∧ Join n r k.stage k.sock st q out := by
  unfold rendezvous at h
  cases hst : k.stage with simp only [hst] at h
  | bound =>
    split_ifs at h with h1 h2 <;> cases h
    · exact ⟨_, _, rfl, .alone h1⟩
    · exact ⟨_, _, rfl, .root h1 h2⟩
    · exact ⟨_, _, rfl, .other h1 h2⟩
  | collect seen i =>
    split_ifs at h with h0
    · cases h; subst h0; exact ⟨_, _, rfl, .all⟩
    · split at h <;> rename_i hs
      · cases h
        exact ⟨.collect seen i, [], by rw [← hst, ← hs], by rw [hs]; exact .yield h0⟩
      · rw [hs]
        split_ifs at h with h1 <;> cases h
        · exact ⟨_, _, rfl, .hears h0 h1.1 h1.2.1 h1.2.2.1 h1.2.2.2⟩
        · exact ⟨.collect seen i, _, by rw [← hst], .skips h0⟩
  | go i =>
    split_ifs at h with h1 <;> cases h
    · exact ⟨_, _, rfl, .go h1⟩
    · exact ⟨_, _, rfl, .went (by omega)⟩
  | hello c => cases h; exact ⟨_, _, rfl, .hello⟩
  | poll c =>
    split at h <;> rename_i hs
    · cases h; exact ⟨_, _, rfl, by rw [hs]; exact .empty⟩
    · rw [hs]
      split_ifs at h with h1 <;> cases h
      · exact ⟨_, _, rfl, .acked h1⟩
      · exact ⟨_, _, rfl, .ignores h1⟩
  | restore => cases h; exact ⟨_, _, rfl, .restored⟩
  | unbound => cases h
  | ready => cases h
  | failed => cases h

theorem rendezvous_err_fails {n : Nat} {k k' : Rank} {out : List Packet} {e : Int}
    (h : rendezvous_err n k e = some (k', out)) :
    out = [] ∧ ∃ st, k' = { k with stage := st } ∧ Fails k.stage e st := by
  unfold rendezvous_err at h
  cases hst : k.stage with simp only [hst] at h
  | go i =>
    split_ifs at h <;> cases h
    · exact ⟨rfl, _, rfl, .go⟩
    · exact ⟨rfl, _, rfl, .fatal rfl⟩
  | hello c =>
    split_ifs at h
    cases h
    exact ⟨rfl, _, rfl, .hello⟩
  | collect seen i =>
    split_ifs at h with _ he <;> cases h
    · exact ⟨rfl, .collect seen i, by rw [← hst], .collect⟩
    · exact ⟨rfl, _, rfl, .fatal (by simpa [Stage.tolerates] using he)⟩
  | poll c =>
    split_ifs at h with he <;> cases h
    · exact ⟨rfl, _, rfl, .poll⟩
    · exact ⟨rfl, _, rfl, .fatal (by simpa [Stage.tolerates] using he)⟩
  | unbound => cases h; exact ⟨rfl, _, rfl, .fatal rfl⟩
  | bound =>
    split_ifs at h
    cases h
    exact ⟨rfl, _, rfl, .fatal rfl⟩
  | restore => cases h; exact ⟨rfl, _, rfl, .fatal rfl⟩
  | ready => cases h
  | failed => cases h

/-! ## The call a rank is in -/

/-- What a rank knows about its calls. -/
structure Core where
  prog? : Option (Prog Ret)
  rets : List Ret
  ticks : Nat
  done : Nat
  got : List Got
  coll_seq : Nat

def Rank.core (k : Rank) : Core := ⟨k.prog?, k.rets, k.ticks, k.done, k.got, k.coll_seq⟩

/-- The messages a rank has at hand. -/
def Rank.mail (k : Rank) : List Msg := k.pool.queue ++ k.sock

/-- The number of acts done, after one more of the current call. -/
def Core.bump (w : World) (r : Nat) (c : Core) : Nat := if w.isColl r c.rets.length then c.done + 1 else c.done

def Core.origin (w : World) (r : Nat) (c : Core) : Origin :=
  if w.isColl r c.rets.length then .coll r c.rets.length c.ticks else .user r c.rets.length

/-- The messages of the handshake that rank `r` sends. -/
def Handshake (r : Nat) (m : Msg) : Prop := m = ⟨token r TAG_GO, .go⟩ ∨ m = ⟨token r TAG_HELLO, .hello r⟩

theorem Handshake.not_app {r : Nat} {m : Msg} (h : Handshake r m) : m.origin.app = false := by
  rcases h with rfl | rfl <;> rfl

/-- What a step of rank `r` does to its calls. A system call of the step can
fail only if `calm` is false. -/
inductive Move (w : World) (r : Nat) (calm : Bool) (mail : List Msg) (c : Core) : Core → List Packet → Prop
  | quiet {out : List Packet} : (∀ p ∈ out, Handshake r p.msg) → Move w r calm mail c c out
  | call {op : Op} : c.prog? = none → (w.prog r)[c.rets.length]? = some op →
      Move w r calm mail c { c with prog? := some (op.code (w.env r)) } []
  | ret {a : Ret} : c.prog? = some (.ret a) → Move w r calm mail c { c with prog? := none, rets := c.rets ++ [a] } []
  | tick {f : Nat → Prog Ret} : c.prog? = some (.coll_seq f) →
      Move w r calm mail c
        { c with
          prog? := some (f ((c.coll_seq + 1) % 2 ^ 32))
          coll_seq := (c.coll_seq + 1) % 2 ^ 32
          ticks := c.ticks + 1
          done := 0 } []
  | send {d : Nat} {m : Datagram} {f : Int → Prog Ret} : c.prog? = some (.sendto d m f) →
      Move w r calm mail c { c with prog? := some (f (16 + m.data.length)), done := c.bump w r } [⟨d, m, c.origin w r⟩]
  | take {source tag : Int} {f : Except Int Datagram → Prog Ret} {m : Msg} :
      c.prog? = some (.recv_match source tag f) → m ∈ mail → accepts source tag m = true →
      Move w r calm mail c
        { c with
          prog? := some (f (.ok m.frame))
          done := c.bump w r
          got := c.got ++ [⟨c.rets.length, c.ticks, m⟩] } []
  | failSend {d : Nat} {m : Datagram} {f : Int → Prog Ret} {e : Int} : calm = false → e < 0 →
      c.prog? = some (.sendto d m f) → Move w r calm mail c { c with prog? := some (f e) } []
  | failRecv {source tag : Int} {f : Except Int Datagram → Prog Ret} : calm = false →
      c.prog? = some (.recv_match source tag f) →
      Move w r calm mail c { c with prog? := some (f (.error MPI_ERR_INTERN)) } []

/-- No system call of a started rank fails; one that waits for a message may be
interrupted. -/
def Rank.calm (k : Rank) : Do → Bool
  | .err e => k.stage ≠ .ready ∨ (e = -EINTR ∧ k.waiting)
  | _ => true

section
variable {w : World} {r : Nat} {k k' : Rank} {out : List Packet}

theorem Move.mono {b : Bool} {mail mail' : List Msg} {c c' : Core} (hm : mail ⊆ mail') (h : Move w r b mail c c' out) :
    Move w r b mail' c c' out := by
  cases h with
  | quiet hq => exact .quiet hq
  | call h1 h2 => exact .call h1 h2
  | ret h1 => exact .ret h1
  | tick h1 => exact .tick h1
  | send h1 => exact .send h1
  | take h1 h2 h3 => exact .take h1 (hm h2) h3
  | failSend h1 h2 h3 => exact .failSend h1 h2 h3
  | failRecv h1 h2 => exact .failRecv h1 h2

theorem rendezvous_core (h : rendezvous w.n r k = some (k', out)) :
    k'.core = k.core ∧ ∀ p ∈ out, Handshake r p.msg := by
  obtain ⟨st, q, rfl, hj⟩ := rendezvous_join h
  refine ⟨rfl, ?_⟩
  generalize k.stage = st0, k.sock = q0 at hj
  cases hj with
  | go => simp [Handshake]
  | hello => split <;> simp [Handshake]
  | _ => simp

theorem exec_move (h : k.exec w r = some (k', out)) (b : Bool) : Move w r b k.mail k.core k'.core out := by
  unfold Rank.exec at h
  split at h
  · rename_i a hc
    cases h
    exact .ret (by simp [Rank.core, Rank.prog?, hc])
  · rename_i f hc
    cases h
    exact .tick (by simp [Rank.core, Rank.prog?, hc])
  · rename_i d m f hc
    cases h
    exact .send (by simp [Rank.core, Rank.prog?, hc])
  · rename_i source tag f hc
    have hp : k.core.prog? = some (.recv_match source tag f) := by simp [Rank.core, Rank.prog?, hc]
    have htake := (k.pool.take_spec (accepts source tag)).1
    split at h <;> rename_i pool hq <;> cases h <;> rw [hq] at htake
    · -- found on the unexpected queue
      have hf := htake.symm
      exact .take hp (List.mem_append_left _ (List.mem_of_find?_eq_some hf)) (List.find?_some hf)
    · have he : Rank.core { k with pool := pool, ctl := .recvLoop source tag f } = k.core := by
        simp [Rank.core, Rank.prog?, hc]
      rw [he]
      exact .quiet (by simp)
  · cases h

theorem recvfrom_move {m : Msg} (h : k.recvfrom w r (.frame m) = some (k', out)) (b : Bool) :
    Move w r b (k.mail ++ [m]) k.core k'.core out := by
  unfold Rank.recvfrom at h
  split at h
  · rename_i source tag f hc
    have hp : k.core.prog? = some (.recv_match source tag f) := by simp [Rank.core, Rank.prog?, hc]
    unfold recv_match_body recv_match_pass at h
    by_cases ha : accepts source tag m = true
    · simp only [ha, if_true] at h
      cases h
      exact .take hp (by simp) ha
    · simp only [ha, if_false, Bool.false_eq_true] at h
      split at h <;> rename_i hb <;> split at hb <;> cases hb <;> cases h
      · exact .quiet (by simp)
      · exact .quiet (by simp)
  · cases h

theorem err_move {e : Int} (hr : k.stage = .ready) (h : k.step w r (.err e) = some (k', out)) :
    Move w r (k.calm (.err e)) k.mail k.core k'.core out := by
  have hcalm : k.calm (.err e) = decide (e = -EINTR ∧ k.waiting = true) := by simp [Rank.calm, hr]
  simp only [Rank.step, hr, if_true] at h
  split_ifs at h with he
  cases hk : k.ctl with simp only [hk] at h
  | idle => simp [Rank.recvfrom, hk] at h
  | run p =>
    split at h
    · rename_i d m f hp
      cases hp
      cases h
      have hp : k.core.prog? = some (.sendto d m f) := by simp [Rank.core, Rank.prog?, hk]
      exact .failSend (by simp [hcalm, Rank.waiting, hk]) (Int.not_le.1 he) hp
    · simp [Rank.recvfrom, hk] at h
  | recvLoop source tag f =>
    simp only [Rank.recvfrom, hk, recv_match_body, recv_match_pass] at h
    split_ifs at h with hi <;> cases h
    · have hsame : Rank.core { k with ctl := .recvLoop source tag f } = k.core := by
        simp [Rank.core, Rank.prog?, hk]
      rw [hsame]
      exact .quiet (by simp)
    · have hp : k.core.prog? = some (.recv_match source tag f) := by simp [Rank.core, Rank.prog?, hk]
      exact .failRecv (by simpa [hcalm] using fun h => absurd h hi) hp

/-- Every step of a rank is one of the moves. -/
theorem step_move {a : Do} (h : k.step w r a = some (k', out)) :
    Move w r (k.calm a) k.mail k.core k'.core out := by
  cases a with
  | bind =>
    simp only [Rank.step] at h
    split at h <;> cases h
    exact .quiet (by simp)
  | init =>
    obtain ⟨h1, h2⟩ := rendezvous_core h
    rw [h1]
    exact .quiet h2
  | call =>
    simp only [Rank.step] at h
    split at h
    · split at h <;> cases h
      rename_i hi hop
      exact .call (by simp [Rank.core, Rank.prog?, hi]) hop
    · cases h
  | exec =>
    simp only [Rank.step] at h
    split at h
    · exact exec_move h _
    · cases h
  | recv =>
    simp only [Rank.step] at h
    split at h
    · split at h
      · rename_i m sock hs
        refine (recvfrom_move h _).mono ?_
        intro x hx
        simp only [Rank.mail, hs, List.mem_append, List.mem_cons, List.not_mem_nil, or_false] at hx ⊢
        tauto
      · cases h
    · cases h
  | err e =>
    by_cases hr : k.stage = .ready
    · exact err_move hr h
    · simp only [Rank.step, hr, if_false] at h
      split_ifs at h
      obtain ⟨rfl, st, rfl, -⟩ := rendezvous_err_fails h
      exact .quiet (by simp)

end

/-! ## Messages of a rank -/

/-- The messages a rank's receives have taken. -/
def Rank.taken (k : Rank) : List Msg := k.got.map (·.msg)

/-- The messages a step of a rank reads and keeps nowhere: what the loops of
the handshake read, and what `recv_match` reads while no slot is free. -/
def Rank.lost (k : Rank) : Do → List Msg
  | .init =>
    match k.stage with
    | .collect _ remaining => if remaining = 0 then [] else k.sock.take 1
    | .poll _ => k.sock.take 1
    | _ => []
  | .recv =>
    match k.ctl, k.sock with
    | .recvLoop source tag _, m :: _ =>
      if accepts source tag m = false ∧ k.pool.queue.length = PENDING_SLOTS then [m] else []
    | _, _ => []
  | _ => []

section
variable {w : World} {r : Nat} {k k' : Rank} {out : List Packet}

theorem rendezvous_mail (h : rendezvous w.n r k = some (k', out)) :
    k'.pool = k.pool ∧ k'.got = k.got ∧ k.sock = k.lost .init ++ k'.sock := by
  obtain ⟨st, q, rfl, hj⟩ := rendezvous_join h
  refine ⟨rfl, rfl, ?_⟩
  unfold Rank.lost
  generalize k.stage = st0, k.sock = q0 at hj
  cases hj with
  | hears h0 => simp [h0]
  | skips h0 => simp [h0]
  | yield h0 => simp [h0]
  | _ => simp

/-- What is on the queue or taken after a `recvfrom` was before, or is the
message it read. -/
theorem recvfrom_mail {m : Msg} {sock : List Msg} (hs : k.sock = m :: sock)
    (h : { k with sock := sock }.recvfrom w r (.frame m) = some (k', out)) :
    k'.sock = sock ∧ (m :: (k.pool.queue ++ k.taken)).Perm (k'.pool.queue ++ k'.taken ++ k.lost .recv) := by
  unfold Rank.recvfrom at h
  split at h
  · rename_i source tag f hc
    replace hc : k.ctl = .recvLoop source tag f := hc
    have hput := k.pool.put_spec m
    unfold recv_match_body recv_match_pass at h
    by_cases ha : accepts source tag m = true
    · simp only [ha, if_true] at h
      cases h
      refine ⟨rfl, ?_⟩
      simp only [Rank.taken, Rank.take, Rank.lost, hc, hs, ha, Bool.true_eq_false, false_and, if_false,
        List.append_nil, List.map_append, List.map_cons, List.map_nil, ← List.append_assoc]
      exact (List.perm_append_singleton _ _).symm
    · have ha' : accepts source tag m = false := by simpa using ha
      by_cases hfull : k.pool.queue.length = PENDING_SLOTS
      · rw [if_pos hfull] at hput
        simp only [ha', if_false, Bool.false_eq_true, hput] at h
        cases h
        refine ⟨rfl, ?_⟩
        simp only [Rank.taken, Rank.lost, hc, hs, ha', hfull, and_self, if_true]
        exact (List.perm_append_singleton _ _).symm
      · rw [if_neg hfull] at hput
        obtain ⟨pool, hp, hq⟩ := hput
        simp only [ha', if_false, Bool.false_eq_true, hp] at h
        cases h
        refine ⟨rfl, ?_⟩
        simp only [Rank.taken, Rank.lost, hc, hs, hfull, and_false, if_false, List.append_nil, hq,
          List.append_assoc, List.singleton_append]
        exact List.perm_middle.symm
  · cases h

theorem exec_mail (h : k.exec w r = some (k', out)) :
    k'.sock = k.sock ∧ (k.pool.queue ++ k.taken).Perm (k'.pool.queue ++ k'.taken) := by
  unfold Rank.exec at h
  split at h
  · cases h; exact ⟨rfl, .refl _⟩
  · cases h; exact ⟨rfl, .refl _⟩
  · cases h; exact ⟨rfl, .refl _⟩
  · rename_i source tag f hc
    obtain ⟨htake, hleft⟩ := k.pool.take_spec (accepts source tag)
    split at h <;> rename_i hq <;> cases h <;> rw [hq] at htake hleft <;> refine ⟨rfl, ?_⟩
    · rename_i m pool
      simp only [Rank.taken, Rank.take, List.map_append, List.map_cons, List.map_nil]
      have hp := Mailbox.find_perm htake.symm
      rw [← hleft] at hp
      calc (k.pool.queue ++ k.got.map (·.msg)).Perm (m :: pool.queue ++ k.got.map (·.msg)) :=
            (hp.symm.append_right _)
        _ |>.Perm (pool.queue ++ k.got.map (·.msg) ++ [m]) := (List.perm_append_singleton _ _).symm
        _ = pool.queue ++ (k.got.map (·.msg) ++ [m]) := List.append_assoc _ _ _
    · rename_i pool
      have hno := List.find?_eq_none.1 htake.symm
      rw [List.eraseP_of_forall_not (by simpa using hno)] at hleft
      show (k.pool.queue ++ k.taken).Perm (pool.queue ++ k.taken)
      rw [show pool.queue = k.pool.queue from hleft]
  · cases h

/-- A rank's messages after a step are those before it, less those it lost. -/
theorem step_mail {a : Do} (h : k.step w r a = some (k', out)) :
    (k.mail ++ k.taken).Perm (k'.mail ++ k'.taken ++ k.lost a) := by
  cases a with
  | bind =>
    simp only [Rank.step] at h
    split at h <;> cases h
    simp [Rank.lost, Rank.mail, Rank.taken]
  | init =>
    obtain ⟨h1, h2, h3⟩ := rendezvous_mail h
    simp only [Rank.mail, Rank.taken, h1, h2]
    rw [h3]
    generalize k.lost .init = l
    simp only [List.append_assoc]
    refine List.Perm.append_left _ ?_
    simpa using @List.perm_append_comm _ l (k'.sock ++ k.got.map (·.msg))
  | call =>
    simp only [Rank.step] at h
    split at h
    · split at h <;> cases h
      simp [Rank.lost, Rank.mail, Rank.taken]
    · cases h
  | exec =>
    simp only [Rank.step] at h
    split at h
    · obtain ⟨h1, h2⟩ := exec_mail h
      simp only [Rank.mail, h1, Rank.lost, List.append_nil]
      refine List.perm_iff_count.2 fun x => ?_
      have := h2.count_eq x
      simp only [List.count_append] at this ⊢
      omega
    · cases h
  | recv =>
    simp only [Rank.step] at h
    split at h
    · split at h
      · rename_i m sock hs
        obtain ⟨h1, h2⟩ := recvfrom_mail hs h
        simp only [Rank.mail, h1, hs]
        refine List.perm_iff_count.2 fun x => ?_
        have := h2.count_eq x
        simp only [List.count_append, List.count_cons] at this ⊢
        omega
      · cases h
    · cases h
  | err e =>
    have hsame : k'.pool = k.pool ∧ k'.got = k.got ∧ k'.sock = k.sock := by
      simp only [Rank.step] at h
      split at h
      · cases h
      · split at h
        · split at h
          · cases h; exact ⟨rfl, rfl, rfl⟩
          · unfold Rank.recvfrom at h
            split at h
            · unfold recv_match_body recv_match_pass at h
              simp only at h
              split_ifs at h <;> cases h <;> exact ⟨rfl, rfl, rfl⟩
            · cases h
        · obtain ⟨-, st, rfl, -⟩ := rendezvous_err_fails h
          exact ⟨rfl, rfl, rfl⟩
    simp [Rank.mail, Rank.taken, Rank.lost, hsame]

end

/-! ## Messages of the system -/

/-- The messages for `x` among some packets. -/
def msgsTo (x : Nat) (ps : List Packet) : List Msg := (ps.filter (·.dst = x)).map (·.msg)

@[simp] theorem msgsTo_append (x : Nat) (ps qs : List Packet) : msgsTo x (ps ++ qs) = msgsTo x ps ++ msgsTo x qs := by
  simp [msgsTo]

theorem mem_msgsTo {x : Nat} {ps : List Packet} {m : Msg} : m ∈ msgsTo x ps ↔ ⟨x, m⟩ ∈ ps := by
  simp only [msgsTo, List.mem_map, List.mem_filter, decide_eq_true_eq]
  constructor
  · rintro ⟨⟨d, m'⟩, ⟨hp, rfl⟩, rfl⟩; exact hp
  · intro h; exact ⟨_, ⟨h, rfl⟩, rfl⟩

/-- All messages for `x` that are not lost: in flight, at hand, or taken. -/
def Sys.held (s : Sys) (x : Nat) : List Msg := msgsTo x s.net ++ (s.rank x).mail ++ (s.rank x).taken

/-- The messages for `x` that a step of the system loses. -/
def Sys.lost (s : Sys) (x : Nat) : Label → List Msg
  | .rank r a => if r = x then (s.rank r).lost a else []
  | .deliver i =>
    match s.net[i]? with
    | some p => if p.dst = x ∧ (s.rank x).open? = false then [p.msg] else []
    | none => []

/-- The packets a step sends. -/
def news (w : World) (s : Sys) : Label → List Packet
  | .rank r a => (((s.rank r).step w r a).map (·.2)).getD []
  | .deliver _ => []

def Sys.core (s : Sys) (x : Nat) : Core := (s.rank x).core

section
variable {w : World} {s s' : Sys} {l : Label}

/-- What a step of the system does to the calls. -/
theorem sys_move (h : step w s l = some s') :
    (∃ r a c', l = .rank r a ∧ r < w.n ∧ Move w r ((s.rank r).calm a) (s.rank r).mail (s.core r) c' (news w s l) ∧
      s'.core = Function.update s.core r c') ∨ (s'.core = s.core ∧ news w s l = []) := by
  cases l with
  | rank r a =>
    obtain ⟨hr, k, out, hk, rfl⟩ := step_rank h
    have hnews : news w s (.rank r a) = out := by simp [news, hk]
    refine .inl ⟨r, a, k.core, rfl, hr, by rw [hnews]; exact step_move hk, funext fun x => ?_⟩
    by_cases hx : x = r
    · subst hx; simp [Sys.core]
    · simp [Sys.core, hx]
  | deliver i =>
    refine .inr ⟨funext fun x => ?_, rfl⟩
    obtain ⟨q, hq⟩ := deliver_keeps h x
    rw [Sys.core, Sys.core, hq]
    rfl

theorem step_sent (h : step w s l = some s') : s'.sent = s.sent ++ (news w s l).filter (·.msg.origin.app) := by
  cases l with
  | rank r a =>
    obtain ⟨hr, k, out, hk, rfl⟩ := step_rank h
    simp [news, hk]
  | deliver i =>
    obtain ⟨p, hp, rfl⟩ := step_deliver h
    split <;> simp [news]

/-- The messages held for a rank after a step: those before it and those the
step sends, less those it loses. -/
theorem step_held (h : step w s l = some s') (x : Nat) :
    (s.held x ++ msgsTo x (news w s l)).Perm (s'.held x ++ s.lost x l) := by
  cases l with
  | rank r a =>
    obtain ⟨hr, k, out, hk, rfl⟩ := step_rank h
    refine List.perm_iff_count.2 fun m => ?_
    simp only [news, hk, Option.map_some, Option.getD_some, Sys.held, Sys.lost, msgsTo_append, List.count_append]
    by_cases hx : r = x
    · subst hx
      have := (step_mail hk).count_eq m
      simp only [List.count_append] at this
      simp only [Function.update_self, if_true]
      omega
    · simp only [Function.update_of_ne (Ne.symm hx), hx, if_false, List.count_nil]
      omega
  | deliver i =>
    obtain ⟨p, hp, rfl⟩ := step_deliver h
    obtain ⟨hi, rfl⟩ := List.getElem?_eq_some_iff.1 hp
    -- the packet leaves the net for its receiver's socket, or is dropped
    have hnet : (msgsTo x s.net).Perm (msgsTo x [s.net[i]] ++ msgsTo x (s.net.eraseIdx i)) := by
      rw [← msgsTo_append]
      exact ((List.getElem_cons_eraseIdx_perm hi).symm.filter _).map _
    refine List.perm_iff_count.2 fun m => ?_
    have := hnet.count_eq m
    simp only [List.count_append] at this
    simp only [news, Sys.held, Sys.lost, hp, List.count_append, this]
    by_cases hx : s.net[i].dst = x
    · subst hx
      by_cases ho : (s.rank s.net[i].dst).open? = true
      · simp [ho, msgsTo, Rank.mail, Rank.taken]
        omega
      · simp [ho, msgsTo]
        omega
    · split <;> simp [hx, Function.update_of_ne (Ne.symm hx), msgsTo]

end

/-! ## Runs -/

/-- The messages of calls among some. -/
def apps (l : List Msg) : List Msg := l.filter (·.origin.app)

section
variable {w : World} {s : Sys} {ok : Sys → Label → Sys → Prop}

theorem msgsTo_apps (x : Nat) (ps : List Packet) :
    msgsTo x (ps.filter (·.msg.origin.app)) = apps (msgsTo x ps) := by
  simp only [msgsTo, apps, List.filter_map, List.filter_filter]
  congr 1
  exact List.filter_congr fun p _ => Bool.and_comm _ _

theorem step_apps {s' : Sys} {l : Label} (h : step w s l = some s') (x : Nat) :
    (apps (s'.held x) ++ apps (s.lost x l)).Perm (apps (s.held x) ++ apps (msgsTo x (news w s l))) ∧
      msgsTo x s'.sent = msgsTo x s.sent ++ apps (msgsTo x (news w s l)) := by
  refine ⟨?_, by rw [step_sent h, msgsTo_append, msgsTo_apps]⟩
  have := (step_held h x).symm.filter (·.origin.app)
  simpa only [apps, List.filter_append] using this

/-- No message of a call appears from nowhere or twice. -/
theorem held_subperm (h : Run (step w) ok start s) (x : Nat) : (apps (s.held x)).Subperm (msgsTo x s.sent) := by
  refine h.inv (fun s => (apps (s.held x)).Subperm (msgsTo x s.sent)) ?_ ?_
  · simp [start, Sys.held, msgsTo, Rank.mail, Rank.taken, apps]
  · intro s l s' hi _ hst
    obtain ⟨h1, h2⟩ := step_apps hst x
    rw [h2]
    have hsub : (apps (s'.held x)).Subperm (apps (s.held x) ++ apps (msgsTo x (news w s l))) :=
      (List.sublist_append_left _ _).subperm.trans h1.subperm
    exact hsub.trans ((List.subperm_append_right _).2 hi)

/-- If no step loses a message of a call, all of them are still held. -/
theorem held_perm (hok : ∀ s l s', ok s l s' → step w s l = some s' → ∀ x, apps (s.lost x l) = [])
    (h : Run (step w) ok start s) (x : Nat) :
    (apps (s.held x)).Perm (msgsTo x s.sent) := by
  refine h.inv (fun s => (apps (s.held x)).Perm (msgsTo x s.sent)) ?_ ?_
  · simp [start, Sys.held, msgsTo, Rank.mail, Rank.taken, apps]
  · intro s l s' hi hl hst
    obtain ⟨h1, h2⟩ := step_apps hst x
    rw [hok _ _ _ hl hst x, List.append_nil] at h1
    rw [h2]
    exact h1.trans (hi.append_right _)

end

end LibNeoos.Mpi
