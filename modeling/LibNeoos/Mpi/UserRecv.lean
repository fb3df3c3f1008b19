import LibNeoos.Mpi.Delivery
/-!
# What a user-level receive delivers

Messages of calls, of collectives and of the handshake come through one socket
and one queue, and `matches` looks at source and tag only. A receive with a tag
the application may use never meets a message of the library, since those have
tags above `MPI_TAG_UB`. A receive with `MPI_ANY_TAG` takes whatever is first.
-/

namespace LibNeoos.Mpi

open LibNeoos.Lib

/-! ## `MPI_Recv` -/

/-- What `MPI_Recv` hands back for the message `m`. -/
def Delivered (buf : List UInt8) (m : Datagram) (a : Ret) : Prop :=
  a.buf = m.data ++ buf.drop m.data.length ∧ a.status = some ⟨m.hdr.src, m.hdr.tag, MPI_SUCCESS, m.data.length⟩

/-- A receive that is over: it succeeds only with a message. -/
def RecvEnds (buf : List UInt8) (x : Except Int Datagram) (p : Prog Ret) : Prop :=
  p = .fault ∨ ∃ a, p = .ret a ∧ (a.rc = MPI_SUCCESS → ∃ m, x = .ok m ∧ Delivered buf m a)

/-- `MPI_Recv` returns an error or waits for one message of its source and tag. -/
theorem MPI_Recv_cases (e : Env) (buf : List UInt8) (count type source tag comm : Int) :
    (∃ a, MPI_Recv e buf count type source tag comm = .ret a ∧ a.rc ≠ MPI_SUCCESS) ∨
    ∃ f, MPI_Recv e buf count type source tag comm = .recv_match source tag f ∧
      ∀ x, (∀ rc, x = .error rc → rc ≠ MPI_SUCCESS) → RecvEnds buf x (f x) := by
  unfold MPI_Recv
  dsimp only
  split
  · exact .inl ⟨_, rfl, by simp⟩
  split
  · exact .inl ⟨_, rfl, by simp⟩
  split
  · exact .inl ⟨_, rfl, by simp⟩
  split
  · exact .inl ⟨_, rfl, by simp⟩
  split
  · exact .inl ⟨_, rfl, by simp⟩
  refine .inr ⟨_, rfl, fun x hx => ?_⟩
  cases x with
  | error rc => exact .inr ⟨_, rfl, fun h => absurd h (hx rc rfl)⟩
  | ok m =>
    dsimp only
    split
    · exact .inr ⟨_, rfl, by simp⟩
    · split
      · rename_i buf' hc
        refine .inr ⟨_, rfl, fun _ => ⟨m, rfl, ?_, rfl⟩⟩
        unfold memcpy at hc
        split at hc <;> cases hc
        simp
      · exact .inl rfl

/-! ## Runs -/

/-- Call number `i` of rank `r` is a receive that fills `buf`. -/
def World.recvOp (w : World) (r i : Nat) : Option (List UInt8 × Int × Int) :=
  match (w.prog r)[i]? with
  | some (.recv buf _ _ source tag _) => some (buf, source, tag)
  | _ => none

/-- The message a receive took in call `i`. -/
def TookIn (c : Core) (i : Nat) (m : Msg) : Prop := ∃ g ∈ c.got, g.call = i ∧ g.msg = m

/-- The receives of a rank that are over, and the one in progress. -/
structure Receives (w : World) (r : Nat) (c : Core) : Prop where
  past : ∀ i buf source tag a, w.recvOp r i = some (buf, source, tag) → c.rets[i]? = some a → a.rc = MPI_SUCCESS →
    ∃ m, TookIn c i m ∧ Delivered buf m.frame a
  now : ∀ buf source tag p, w.recvOp r c.rets.length = some (buf, source, tag) → c.prog? = some p →
    (∃ f, p = .recv_match source tag f ∧ ∀ x, (∀ rc, x = .error rc → rc ≠ MPI_SUCCESS) → RecvEnds buf x (f x)) ∨
    p = .fault ∨ ∃ a, p = .ret a ∧ (a.rc = MPI_SUCCESS → ∃ m, TookIn c c.rets.length m ∧ Delivered buf m.frame a)

section
variable {w : World} {r : Nat} {b : Bool} {mail : List Msg} {c c' : Core} {out : List Packet}

theorem recvOp_eq {i : Nat} {op : Op} {buf : List UInt8} {source tag : Int} (ho : (w.prog r)[i]? = some op)
    (h : w.recvOp r i = some (buf, source, tag)) : ∃ count type comm, op = .recv buf count type source tag comm := by
  unfold World.recvOp at h
  rw [ho] at h
  cases op <;> simp at h
  obtain ⟨rfl, rfl, rfl⟩ := h
  exact ⟨_, _, _, rfl⟩

/-- A step that neither ends the call nor takes a message. -/
theorem Receives.progress (hi : Receives w r c) (hr : c'.rets = c.rets) (hg : c'.got = c.got)
    (hn : ∀ buf source tag p, w.recvOp r c.rets.length = some (buf, source, tag) → c'.prog? = some p →
      (∃ f, p = .recv_match source tag f ∧ ∀ x, (∀ rc, x = .error rc → rc ≠ MPI_SUCCESS) → RecvEnds buf x (f x)) ∨
      p = .fault ∨ ∃ a, p = .ret a ∧ (a.rc = MPI_SUCCESS → ∃ m, TookIn c c.rets.length m ∧ Delivered buf m.frame a)) :
    Receives w r c' := by
  refine ⟨?_, ?_⟩
  · simpa only [TookIn, hr, hg] using hi.past
  · simpa only [TookIn, hr, hg] using hn

theorem receives_move (hi : Receives w r c) (hm : Move w r b mail c c' out) : Receives w r c' := by
  cases hm with
  | quiet => exact hi
  | @call op h1 h2 =>
    refine hi.progress rfl rfl fun buf source tag p ho hp => ?_
    cases hp
    obtain ⟨count, type, comm, rfl⟩ := recvOp_eq h2 ho
    rcases MPI_Recv_cases (w.env r) buf count type source tag comm with ⟨a, h3, h4⟩ | ⟨f, h3, h4⟩
    · exact .inr (.inr ⟨a, h3, fun h => absurd h h4⟩)
    · exact .inl ⟨f, h3, h4⟩
  | @ret a h1 =>
    refine ⟨fun i buf source tag a' ho ha hs => ?_, by simp⟩
    rcases Nat.lt_trichotomy i c.rets.length with hlt | rfl | hgt
    · exact hi.past i buf source tag a' ho (by simpa [List.getElem?_append_left hlt] using ha) hs
    · simp only [List.getElem?_append_right (Nat.le_refl _), Nat.sub_self, List.getElem?_cons_zero,
        Option.some.injEq] at ha
      subst ha
      rcases hi.now buf source tag _ ho h1 with ⟨f, h3, -⟩ | h3 | ⟨a', h3, h4⟩
      · cases h3
      · cases h3
      · cases h3; exact h4 hs
    · rw [List.getElem?_eq_none (by simp; omega)] at ha
      cases ha
  | tick h1 =>
    refine hi.progress rfl rfl fun buf source tag p ho hp => ?_
    rcases hi.now buf source tag _ ho h1 with ⟨f, h3, -⟩ | h3 | ⟨a', h3, -⟩ <;> cases h3
  | send h1 =>
    refine hi.progress rfl rfl fun buf source tag p ho hp => ?_
    rcases hi.now buf source tag _ ho h1 with ⟨f, h3, -⟩ | h3 | ⟨a', h3, -⟩ <;> cases h3
  | @take source tag f m h1 h2 h3 =>
    refine ⟨fun i buf source tag a ho ha hs => ?_, fun buf source tag p ho hp => ?_⟩
    · obtain ⟨m', ⟨g, hg, he⟩, hd⟩ := hi.past i buf source tag a ho ha hs
      exact ⟨m', ⟨g, List.mem_append_left _ hg, he⟩, hd⟩
    · cases hp
      rcases hi.now buf source tag _ ho h1 with ⟨f', h4, h5⟩ | h4 | ⟨a', h4, -⟩ <;> cases h4
      rcases h5 (.ok m.frame) (by simp) with h6 | ⟨a, h6, h7⟩
      · exact .inr (.inl h6)
      · refine .inr (.inr ⟨a, h6, fun hs => ?_⟩)
        obtain ⟨_, h8, h9⟩ := h7 hs
        cases h8
        exact ⟨m, ⟨⟨_, _, m⟩, List.mem_append_right _ (List.mem_singleton_self _), rfl, rfl⟩, h9⟩
  | failSend _ _ h1 =>
    refine hi.progress rfl rfl fun buf source tag p ho hp => ?_
    rcases hi.now buf source tag _ ho h1 with ⟨f, h3, -⟩ | h3 | ⟨a', h3, -⟩ <;> cases h3
  | failRecv _ h1 =>
    refine hi.progress rfl rfl fun buf source tag p ho hp => ?_
    cases hp
    rcases hi.now buf source tag _ ho h1 with ⟨f', h4, h5⟩ | h4 | ⟨a', h4, -⟩ <;> cases h4
    rcases h5 (.error MPI_ERR_INTERN) (by simp) with h6 | ⟨a, h6, h7⟩
    · exact .inr (.inl h6)
    · refine .inr (.inr ⟨a, h6, fun hs => ?_⟩)
      obtain ⟨_, h8, -⟩ := h7 hs
      cases h8

end

/-- Sent by a user-level `MPI_Send`. -/
def Origin.isUser : Origin → Bool
  | .user .. => true
  | _ => false

/-- Source and tag that the rank's `recv_match` looks for. Only a call gets there, so a rank
in `MPI_Init` looks for nothing. -/
def Rank.wanted (k : Rank) : Option (Int × Int) :=
  match k.prog? with
  | some (.recv_match source tag _) => some (source, tag)
  | _ => none

/-- A user-level receive in progress asks for a tag the application may use,
or no message of the library that it would match is at hand. -/
def screened (w : World) (s : Sys) : Label → Bool
  | .rank r _ =>
    match w.recvOp r (s.rank r).rets.length, (s.rank r).wanted with
    | some _, some (source, tag) =>
      (tag ≠ MPI_ANY_TAG ∧ tag ≤ MPI_TAG_UB) ∨
        (s.rank r).mail.all fun m => !accepts source tag m || m.origin.isUser
    | _, _ => true
  | .deliver _ => true

section
variable {w : World} {s s' : Sys} {l : Label}

/-- A message with a tag the application may use is the application's. -/
theorem isUser_of_tag {x : Nat} {m : Msg} (hm : MsgOk w x m) (ht : m.frame.hdr.tag ≤ MPI_TAG_UB) :
    m.origin.isUser = true := by
  unfold MsgOk at hm
  split at hm
  · rename_i h; rw [h]; rfl
  · obtain ⟨-, op, -, hc, -, -, htag⟩ := hm
    cases op with
    | send => cases hc
    | recv => cases hc
    | _ => have := CollTag.range htag; omega
  · rw [hm] at ht; simp [token] at ht
  · rw [hm] at ht; simp at ht

/-- Every user-level receive has taken only messages of user-level sends. -/
def UserOnly (w : World) (s : Sys) : Prop :=
  ∀ r, ∀ g ∈ (s.core r).got, (w.recvOp r g.call).isSome → g.msg.origin.isUser = true

theorem userOnly_step (hi : UserOnly w s) (hl : Labelled w s) (h : step w s l = some s')
    (hs : screened w s l = true) : UserOnly w s' := by
  rcases sys_move h with ⟨r, a, c', rfl, hr, hm, hc⟩ | ⟨hc, -⟩
  · intro x g hg ho
    rw [hc] at hg
    by_cases hx : x = r
    · subst hx
      rw [Function.update_self] at hg
      have hold := hi x
      have hmail : ∀ m ∈ (s.rank x).mail, MsgOk w x m := fun m hm => hl.held x m (by simp [Sys.held, hm])
      have hscr : ∀ op source tag f, w.recvOp x (s.core x).rets.length = some op →
          (s.core x).prog? = some (.recv_match source tag f) → (tag ≠ MPI_ANY_TAG ∧ tag ≤ MPI_TAG_UB) ∨
            ∀ m ∈ (s.rank x).mail, accepts source tag m = true → m.origin.isUser = true := by
        intro op source tag f h1 h2
        replace h1 : w.recvOp x (s.rank x).rets.length = some op := h1
        replace h2 : (s.rank x).wanted = some (source, tag) := by
          rw [Rank.wanted, show (s.rank x).prog? = _ from h2]
        simpa only [screened, h1, h2, decide_eq_true_eq, List.all_eq_true, Bool.or_eq_true, Bool.not_eq_true',
          Bool.decide_or, Bool.decide_and, Bool.and_eq_true, ← Bool.not_eq_true, ← imp_iff_not_or] using hs
      generalize s.core x = c, news w s (.rank x a) = out at hm hold hscr
      cases hm with
      | @take source tag f m h1 h2 h3 =>
        rcases List.mem_append.1 hg with hg | hg
        · exact hold g hg ho
        · simp only [List.mem_singleton] at hg
          subst hg
          obtain ⟨op, ho⟩ := Option.isSome_iff_exists.1 ho
          rcases hscr op source tag f ho h1 with ⟨ht1, ht2⟩ | h4
          · refine isUser_of_tag (hmail m h2) ?_
            have htag : m.frame.hdr.tag = tag := (accepts_iff.1 h3).2.resolve_left ht1
            rw [htag]
            exact ht2
          · exact h4 m h2 h3
      | _ => exact hold g hg ho
    · rw [Function.update_of_ne hx] at hg
      exact hi x g hg ho
  · intro x g hg
    rw [hc] at hg
    exact hi x g hg

theorem run_receives {ok : Sys → Label → Sys → Prop} (h : Run (step w) ok start s) :
    ∀ r, Receives w r (s.core r) := by
  refine h.inv (fun s => ∀ r, Receives w r (s.core r)) (fun r => ⟨?_, ?_⟩) fun s l s' hi _ hst x => ?_
  · intro i buf source tag a _ ha
    cases ha
  · intro buf source tag p _ hp
    cases hp
  · rcases sys_move hst with ⟨r, a, c', rfl, hr, hm, hc⟩ | ⟨hc, -⟩ <;> rw [hc]
    · by_cases hx : x = r
      · subst hx; simpa using receives_move (hi x) hm
      · simpa [hx] using hi x
    · exact hi x

theorem run_userOnly (h : Run (step w) (fun s l _ => screened w s l = true) start s) : UserOnly w s :=
  h.inv_reach (UserOnly w) (fun r g hg => by cases hg) fun s l s' hr hi hl hst =>
    userOnly_step hi (run_labelled hr) hst hl

/-- In a run in which every user-level receive asks for a tag of the application
or meets no message of the library, each one that returns `MPI_SUCCESS` has
delivered a message of a user-level `MPI_Send` to this rank. -/
theorem user_recv_delivers_user_send (w : World) {s : Sys}
    (h : Run (step w) (fun s l _ => screened w s l = true) start s) {r i : Nat} {buf : List UInt8}
    {count type source tag comm : Int} (hop : (w.prog r)[i]? = some (.recv buf count type source tag comm)) {a : Ret}
    (ha : (s.rank r).rets[i]? = some a) (hs : a.rc = MPI_SUCCESS) :
    ∃ m x j op, ⟨r, m⟩ ∈ s.sent ∧ m.origin = .user x j ∧ (w.prog x)[j]? = some op ∧ op.call = none ∧
      FrameOf (w.env x) op r m.frame ∧ Delivered buf m.frame a := by
  have hr : w.recvOp r i = some (buf, source, tag) := by simp [World.recvOp, hop]
  obtain ⟨m, ⟨g, hg, rfl, rfl⟩, hd⟩ := (run_receives h r).past i buf source tag a hr ha hs
  have huser := run_userOnly h r g hg (by simp [hr])
  have hheld : g.msg ∈ s.held r := by
    simp only [Sys.held, List.mem_append]
    exact .inr (List.mem_map_of_mem hg)
  have hok := (run_labelled h).held r g.msg hheld
  cases ho : g.msg.origin with
  | user x j =>
    simp only [MsgOk, ho] at hok
    obtain ⟨-, op, h1, h2, h3⟩ := hok
    have hsent : g.msg ∈ msgsTo r s.sent :=
      (held_subperm h r).subset (List.mem_filter.2 ⟨hheld, by simp [ho, Origin.app]⟩)
    exact ⟨g.msg, x, j, op, mem_msgsTo.1 hsent, ho, h1, h2, h3, hd⟩
  | hello x => simp [ho, Origin.isUser] at huser
  | go => simp [ho, Origin.isUser] at huser
  | coll x j q => simp [ho, Origin.isUser] at huser

end

/-- Rank 0 receives with the given tag from anyone, rank 1 makes the given
calls, and both enter a barrier. -/
def talk (tag : Int) (ops : List Op) : World :=
  duo [.recv [0] 1 MPI_BYTE MPI_ANY_SOURCE tag MPI_COMM_WORLD, .barrier MPI_COMM_WORLD]
    (ops ++ [.barrier MPI_COMM_WORLD])

/-- Rank 1 sends a byte before the barrier. -/
def talkByte : World := talk 5 [.send [7] 1 MPI_BYTE 0 5 MPI_COMM_WORLD]

/-- The same, but rank 0 receives with `MPI_ANY_TAG`. -/
def talkAny : World := talk MPI_ANY_TAG [.send [7] 1 MPI_BYTE 0 5 MPI_COMM_WORLD]

/-- With the tag 5, rank 1's token for the barrier arrives before its message and rank 0 sets
it aside. With `MPI_ANY_TAG`, the token is still in flight when rank 0 receives. -/
theorem user_recv_delivers_user_send_talk :
    (∃ s a m, Run (step talkByte) (fun s l _ => screened talkByte s l = true) start s ∧
      (s.rank 0).rets[0]? = some a ∧ ⟨0, m⟩ ∈ s.sent ∧ Delivered [0] m.frame a) ∧
    ∃ s a m, Run (step talkAny) (fun s l _ => screened talkAny s l = true) start s ∧
      (s.rank 0).rets[0]? = some a ∧ ⟨0, m⟩ ∈ s.sent ∧ Delivered [0] m.frame a := by
  have htag : ((exec (step talkByte) (screened talkByte) start
      (duoInit ++ ([.rank 1 .call, .rank 1 .exec, .rank 1 .exec, .rank 1 .call, .rank 1 .exec, .rank 1 .exec,
        .deliver 1, .deliver 0, .rank 0 .call, .rank 0 .exec, .rank 0 .recv, .rank 0 .recv, .rank 0 .exec] :
          List Label))).map
      fun s => decide ((s.rank 0).rets[0]? = some ⟨0, [7], some ⟨1, 5, 0, 1⟩⟩)) = some true := by
    decide +kernel
  have hany : ((exec (step talkAny) (screened talkAny) start
      (duoInit ++ ([.rank 1 .call, .rank 1 .exec, .rank 1 .exec, .rank 1 .call, .rank 1 .exec, .rank 1 .exec,
        .deliver 0, .rank 0 .call, .rank 0 .exec, .rank 0 .recv, .rank 0 .exec] : List Label))).map
      fun s => decide ((s.rank 0).rets[0]? = some ⟨0, [7], some ⟨1, 5, 0, 1⟩⟩)) = some true := by
    decide +kernel
  obtain ⟨s, hrun, ha⟩ := exec_reaches htag fun _ _ _ hb => hb
  obtain ⟨s', hrun', ha'⟩ := exec_reaches hany fun _ _ _ hb => hb
  obtain ⟨m, x, j, op, hm, -, -, -, -, hd⟩ := user_recv_delivers_user_send talkByte hrun (r := 0) (i := 0) rfl ha rfl
  obtain ⟨m', x', j', op', hm', -, -, -, -, hd'⟩ := user_recv_delivers_user_send talkAny hrun' (r := 0)
    (i := 0) rfl ha' rfl
  exact ⟨⟨s, _, m, hrun, ha, hm, hd⟩, s', _, m', hrun', ha', hm', hd'⟩

/-- Rank 0's receive with `MPI_ANY_SOURCE` and `MPI_ANY_TAG` succeeds although
no user-level send was ever made: it takes rank 1's token for the barrier. -/
theorem any_tag_recv_takes_barrier_token :
    ∃ s, Run (step (talk MPI_ANY_TAG [])) (fun s l _ => patient s l = true ∧ inOrder s l = true ∧ roomy s l = true)
        start s ∧
      ((s.rank 0).rets.map (·.rc) = [MPI_SUCCESS] ∧ (s.rank 0).taken.map (·.origin) = [.coll 1 0 1] ∧
        ∀ p ∈ s.sent, p.msg.origin.isUser = false) := by
  have h : ((exec (step (talk MPI_ANY_TAG [])) (fun s l => patient s l && inOrder s l && roomy s l) start
      (duoInit ++ ([.rank 1 .call, .rank 1 .exec, .rank 1 .exec, .deliver 0, .rank 0 .call, .rank 0 .exec,
        .rank 0 .recv, .rank 0 .exec] : List Label))).map fun s => decide ((s.rank 0).rets.map (·.rc) = [MPI_SUCCESS] ∧
          (s.rank 0).taken.map (·.origin) = [.coll 1 0 1] ∧ ∀ p ∈ s.sent, p.msg.origin.isUser = false)) =
            some true := by
    decide +kernel
  exact exec_reaches h fun s l s' hb => by simpa [and_assoc] using hb

end LibNeoos.Mpi
