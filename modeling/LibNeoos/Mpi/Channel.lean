import LibNeoos.Mpi.Progress
/-!
# Messages of one sender and tag stay in order

A receive searches the unexpected queue from its head before it reads the socket, and
what it reads and does not want goes to the queue's end. So two messages with one
sender and one tag are never taken in the wrong order, whatever the receives in between
ask for, wildcards included, and whether or not messages are lost
(`messages_never_overtake`). If none is lost, a rank has taken exactly the first
messages of every channel, and the others wait in order (`channels_fifo`).

The network is asked only to keep the messages of one rank to another in order.
-/

namespace LibNeoos.Mpi

open LibNeoos.Lib Mailbox

/-- A message of a call of rank `x` with the tag `t`. -/
def onChannel (x : Nat) (t : Int) (m : Msg) : Bool :=
  m.origin.app && (m.origin.sender = x && m.frame.hdr.tag = t)

/-- The messages on the way from any rank to `y`, from those taken first to those sent last. -/
def Sys.pipe (s : Sys) (y : Nat) : List Msg := (s.rank y).taken ++ (s.rank y).mail ++ msgsTo y s.net

def Rank.inbox (k : Rank) : Inbox Msg := ⟨k.taken, k.pool.queue, k.sock⟩

/-- The predicates receives select by. -/
def Selects (p : Msg → Bool) : Prop := ∃ source tag, p = accepts source tag

section
variable {x y : Nat} {t : Int}

theorem onChannel_iff {m : Msg} :
    onChannel x t m = true ↔ m.origin.app = true ∧ m.origin.sender = x ∧ m.frame.hdr.tag = t := by
  simp [onChannel]

/-- A message of a call names its sender. -/
theorem MsgOk.src {w : World} {d : Nat} {m : Msg} (h : MsgOk w d m) (ha : m.origin.app = true) :
    m.frame.hdr.src = m.origin.sender := by
  unfold MsgOk at h
  split at h
  · rename_i s i ho
    obtain ⟨-, op, -, -, hf⟩ := h
    rw [hf.2.1, ho]
    rfl
  · rename_i s i q ho
    obtain ⟨-, op, -, -, hf⟩ := h
    rw [hf.2.1, ho]
    rfl
  · rename_i ho
    simp [ho, Origin.app] at ha
  · rename_i ho
    simp [ho, Origin.app] at ha

/-- No receive tells the messages of a channel apart. -/
theorem Selects.alike {w : World} {d : Nat} {p : Msg → Bool} {m m' : Msg} (hp : Selects p) (hm : MsgOk w d m)
    (hm' : MsgOk w d m') (hc : onChannel x t m = true) (hc' : onChannel x t m' = true) (h : p m = true) :
    p m' = true := by
  obtain ⟨source, tag, rfl⟩ := hp
  obtain ⟨ha, hs, ht⟩ := onChannel_iff.1 hc
  obtain ⟨ha', hs', ht'⟩ := onChannel_iff.1 hc'
  have hsrc : m'.frame.hdr.src = m.frame.hdr.src := by rw [hm.src ha, hm'.src ha', hs, hs']
  rw [accepts_iff] at h ⊢
  show (source = MPI_ANY_SOURCE ∨ m'.frame.hdr.src = source) ∧ (tag = MPI_ANY_TAG ∨ m'.frame.hdr.tag = tag)
  rw [hsrc, ht', ← ht]
  exact h

theorem msgsTo_kind (c : Msg → Bool) (ps : List Packet) :
    (msgsTo y ps).filter c = (ps.filter fun p => p.dst = y && c p.msg).map (·.msg) := by
  simp only [msgsTo, List.filter_map, List.filter_filter]
  congr 1
  exact List.filter_congr fun p _ => Bool.and_comm _ _

end

/-! ## Steps of a rank -/

section
variable {w : World} {r : Nat} {k k' : Rank} {out : List Packet}

theorem exec_inbox (h : k.exec w r = some (k', out)) : k.inbox.Step Selects k'.inbox := by
  unfold Rank.exec at h
  split at h
  · cases h; exact .keeps
  · cases h; exact .keeps
  · cases h; exact .keeps
  · rename_i source tag f hc
    obtain ⟨htake, hleft⟩ := k.pool.take_spec (accepts source tag)
    split at h <;> rename_i hq <;> cases h <;> rw [hq] at htake hleft
    · rename_i m pool
      have hstep := Inbox.Step.finds (P := Selects) (T := k.taken) (S := k.sock) ⟨source, tag, rfl⟩ htake.symm
      rw [← hleft] at hstep
      simpa [Rank.inbox, Rank.taken, Rank.take] using hstep
    · rename_i pool
      have hno := List.find?_eq_none.1 htake.symm
      rw [List.eraseP_of_forall_not (by simpa using hno)] at hleft
      have hsame : pool.queue = k.pool.queue := hleft
      simp only [Rank.inbox, Rank.taken, hsame]
      exact .keeps
  · cases h

theorem recvfrom_inbox {m : Msg} {sock : List Msg} (hk : k.Searched) (hs : k.sock = m :: sock)
    (h : { k with sock := sock }.recvfrom w r (.frame m) = some (k', out)) : k.inbox.Step Selects k'.inbox := by
  have hbox : k.inbox = ⟨k.taken, k.pool.queue, m :: sock⟩ := by rw [Rank.inbox, hs]
  rw [hbox]
  unfold Rank.recvfrom at h
  split at h
  · rename_i source tag f hc
    replace hc : k.ctl = .recvLoop source tag f := hc
    have hput := k.pool.put_spec m
    unfold recv_match_body recv_match_pass at h
    by_cases ha : accepts source tag m = true
    · simp only [ha, if_true] at h
      cases h
      have hstep := Inbox.Step.reads (P := Selects) (T := k.taken)
        (S := sock) ⟨source, tag, rfl⟩ ha (hk source tag f hc)
      simpa [Rank.inbox, Rank.taken, Rank.take] using hstep
    · by_cases hfull : k.pool.queue.length = PENDING_SLOTS
      · rw [if_pos hfull] at hput
        simp only [ha, if_false, Bool.false_eq_true, hput] at h
        cases h
        exact .drops
      · rw [if_neg hfull] at hput
        obtain ⟨pool, hp, hq⟩ := hput
        simp only [ha, if_false, Bool.false_eq_true, hp] at h
        cases h
        simp only [Rank.inbox, hq]
        exact .stores
  · cases h

theorem recvfrom_err_inbox {e : Int} (h : k.recvfrom w r (.err e) = some (k', out)) : k'.inbox = k.inbox := by
  unfold Rank.recvfrom at h
  split at h
  · unfold recv_match_body recv_match_pass at h
    simp only at h
    split_ifs at h <;> cases h <;> rfl
  · cases h

theorem step_inbox {a : Do} (hk : k.Searched) (h : k.step w r a = some (k', out)) : k.inbox.Step Selects k'.inbox := by
  by_cases hready : k.stage = .ready
  · cases a with
    | bind => simp [Rank.step, hready] at h
    | init => simp [Rank.step, rendezvous, hready] at h
    | call =>
      simp only [Rank.step, if_pos hready] at h
      split at h <;> cases h
      exact .keeps
    | exec => exact exec_inbox (by simpa [Rank.step, hready] using h)
    | recv =>
      simp only [Rank.step, if_pos hready] at h
      split at h
      · rename_i m sock hs
        exact recvfrom_inbox hk hs h
      · cases h
    | err e =>
      simp only [Rank.step, if_pos hready] at h
      split_ifs at h
      split at h
      · cases h; exact .keeps
      · rw [recvfrom_err_inbox h]
        exact .keeps
  · -- `MPI_Init` reads from the socket and keeps nothing of what it reads
    rcases step_early hready h with ⟨-, -, rfl, -⟩ | ⟨-, st, q, rfl, hj⟩ | ⟨e, rfl, -, st, rfl, -⟩
    · exact .keeps
    · have hsock : q = k.sock ∨ ∃ m, k.sock = m :: q := by
        generalize k.stage = st0, k.sock = q0 at hj
        cases hj <;> simp
      rcases hsock with rfl | ⟨m, hm⟩
      · exact .keeps
      · simp only [Rank.inbox, hm]
        exact .drops
    · exact .keeps

end

/-! ## Steps of the system -/

section
variable {w : World} {s s' : Sys} {l : Label} {x y : Nat} {t : Int}

theorem Sys.pipe_eq (s : Sys) (y : Nat) : s.pipe y = (s.rank y).inbox.all ++ msgsTo y s.net := by
  simp [Sys.pipe, Inbox.all, Rank.inbox, Rank.mail]

theorem pipe_perm (s : Sys) (y : Nat) : (s.pipe y).Perm (s.held y) := by
  refine List.perm_iff_count.2 fun m => ?_
  simp only [Sys.pipe, Sys.held, List.count_append]
  omega

theorem rank_pipe {r : Nat} {a : Do} (hl : Labelled w s) (hk : ∀ r, (s.rank r).Searched)
    (h : step w s (.rank r a) = some s') :
    ((s'.pipe y).filter (onChannel x t)).Sublist
      ((s.pipe y).filter (onChannel x t) ++ (msgsTo y (news w s (.rank r a))).filter (onChannel x t)) := by
  obtain ⟨-, k, out, hst, rfl⟩ := step_rank h
  have hnews : news w s (.rank r a) = out := by simp [news, hst]
  rw [hnews, Sys.pipe_eq, Sys.pipe_eq]
  simp only [msgsTo_append, List.filter_append, ← List.append_assoc]
  apply List.Sublist.append_right
  apply List.Sublist.append_right
  by_cases hr : y = r
  · subst hr
    simp only [Function.update_self]
    refine (step_inbox (hk y) hst).in_order fun p hp m hm m' hm' => hp.alike (hl.held y m ?_) (hl.held y m' ?_)
    · exact List.mem_append_left _ (List.mem_append_right _ hm)
    · exact List.mem_append_left _ (List.mem_append_right _ hm')
  · simp [Function.update_of_ne hr]

theorem deliver_pipe {i : Nat} (ho : inOrder s (.deliver i) = true) (h : step w s (.deliver i) = some s') :
    ((s'.pipe y).filter (onChannel x t)).Sublist ((s.pipe y).filter (onChannel x t)) := by
  obtain ⟨p, hp, hnet, hrank⟩ := deliver_spec h
  -- the packet is the first one of its channel in flight
  have hkind := eraseIdx_kind (c := fun q : Packet => q.dst = y && onChannel x t q.msg) hp fun hc q hq => by
    simp only [inOrder, hp, List.all_eq_true, decide_eq_true_eq] at ho
    have hfirst := ho q hq
    by_contra hcq
    simp only [Bool.and_eq_true, decide_eq_true_eq, Bool.not_eq_false] at hc hcq
    exact hfirst ⟨hcq.1.trans hc.1.symm, (onChannel_iff.1 hcq.2).2.1.trans (onChannel_iff.1 hc.2).2.1.symm⟩
  have hmsgs : (msgsTo y [p]).filter (onChannel x t) ++ (msgsTo y s'.net).filter (onChannel x t) =
      (msgsTo y s.net).filter (onChannel x t) := by
    rw [hnet, msgsTo_kind, msgsTo_kind, msgsTo_kind, ← List.map_append, hkind]
  simp only [Sys.pipe, List.filter_append]
  rw [← hmsgs]
  rcases hrank y with ⟨hsame, -⟩ | ⟨rfl, hsock⟩
  · rw [hsame]
    exact (List.sublist_append_right _ _).append_left _
  · rw [hsock]
    simp [Rank.mail, Rank.taken, msgsTo]

theorem step_pipe (hl : Labelled w s) (hk : ∀ r, (s.rank r).Searched) (ho : inOrder s l = true)
    (h : step w s l = some s') : ((s'.pipe y).filter (onChannel x t)).Sublist
      ((s.pipe y).filter (onChannel x t) ++ (msgsTo y (news w s l)).filter (onChannel x t)) := by
  cases l with
  | rank r a => exact rank_pipe hl hk h
  | deliver i => exact (deliver_pipe ho h).trans (List.sublist_append_left _ _)

theorem apps_kind (l : List Msg) : (apps l).filter (onChannel x t) = l.filter (onChannel x t) := by
  rw [apps, List.filter_filter]
  refine List.filter_congr fun m _ => ?_
  by_cases hc : onChannel x t m = true
  · simp [hc, (onChannel_iff.1 hc).1]
  · simp [hc]

/-! ## Runs -/

variable {ok : Sys → Label → Sys → Prop}

theorem run_pipe (hok : ∀ s l s', ok s l s' → inOrder s l = true) (h : Run (step w) ok start s) :
    ((s.pipe y).filter (onChannel x t)).Sublist ((msgsTo y s.sent).filter (onChannel x t)) := by
  refine h.inv_reach (fun s => ((s.pipe y).filter (onChannel x t)).Sublist
    ((msgsTo y s.sent).filter (onChannel x t))) ?_ ?_
  · simp [start, Sys.pipe, Rank.taken, Rank.mail, msgsTo]
  · intro s l s' hr hi hl hst
    rw [(step_apps hst y).2, List.filter_append, apps_kind]
    exact (step_pipe (run_labelled hr) (run_searched hr) (hok s l s' hl) hst).trans (hi.append_right _)

/-- In every run in which the network keeps the messages of one rank to another in
order, whatever else fails or is lost: what `y` has taken from `x` with the tag `t` is
in the order in which `x` has sent it, and nothing is taken twice. -/
theorem messages_never_overtake (w : World) {s : Sys} (h : Run (step w) (fun s l _ => inOrder s l = true) start s)
    (x y : Nat) (t : Int) :
    ((s.rank y).taken.filter (onChannel x t)).Sublist ((msgsTo y s.sent).filter (onChannel x t)) := by
  refine List.Sublist.trans ?_ (run_pipe (fun _ _ _ hl => hl) h)
  rw [Sys.pipe, List.append_assoc, List.filter_append]
  exact List.sublist_append_left _ _

/-- Three ranks; rank 1 sends two bytes to rank 2, one after the other. -/
def trioTwice : World :=
  { trio with
    prog := fun r =>
      if r = 1 then [.send [7] 1 MPI_BYTE 2 5 MPI_COMM_WORLD, .send [8] 1 MPI_BYTE 2 5 MPI_COMM_WORLD]
      else if r = 2 then [.recv [0] 1 MPI_BYTE 1 5 MPI_COMM_WORLD] else [] }

/-- Rank 2 reads the first message while it waits for its `GO`, and loses it. Its
receive then takes the second. -/
theorem messages_never_overtake_lost :
    ∃ s, Run (step trioTwice) (fun s l _ => inOrder s l = true) start s ∧
      ((s.rank 2).taken.map (·.frame.data) = [[8]] ∧ (msgsTo 2 s.sent).map (·.frame.data) = [[7], [8]]) ∧
      ((s.rank 2).taken.filter (onChannel 1 5)).Sublist ((msgsTo 2 s.sent).filter (onChannel 1 5)) := by
  have h : ((exec (step trioTwice) inOrder start
      (trioInit ++ ([.deliver 1, .rank 2 .init, .deliver 0, .rank 2 .init, .rank 2 .init, .rank 2 .init, .rank 1 .exec,
        .rank 1 .call, .rank 1 .exec, .deliver 0, .rank 2 .call, .rank 2 .exec, .rank 2 .recv] : List Label))).map
        fun s =>
      decide ((s.rank 2).taken.map (·.frame.data) = [[8]] ∧ (msgsTo 2 s.sent).map (·.frame.data) = [[7], [8]])) =
        some true := by
    decide +kernel
  obtain ⟨s, hrun, hs⟩ := exec_reaches h fun _ _ _ hb => hb
  exact ⟨s, hrun, hs, messages_never_overtake trioTwice hrun 1 2 5⟩

/-- If no message is lost, `y` has taken the first messages `x` has sent it with the tag
`t`, each once, and the others are in its queue, its socket or the network in order. -/
theorem channels_fifo (w : World) {s : Sys} (h : Run (step w) (fun s l _ => Delivers s l) start s) (x y : Nat)
    (t : Int) :
    (s.rank y).taken.filter (onChannel x t) ++ ((s.rank y).mail ++ msgsTo y s.net).filter (onChannel x t) =
      (msgsTo y s.sent).filter (onChannel x t) := by
  rw [← List.filter_append, ← List.append_assoc]
  have hperm := (run_held_perm (fun _ _ _ hl => hl) h y).filter (onChannel x t)
  rw [apps_kind] at hperm
  have hlen := ((pipe_perm s y).filter (onChannel x t)).length_eq.trans hperm.length_eq
  exact (run_pipe (fun _ _ _ hl => hl.2.1) h).eq_of_length hlen

/-- Rank 1 sends two bytes with one tag and a third with another; rank 0 asks for the
third, and then for any. -/
def duoTags : World :=
  duo [.recv [0] 1 MPI_BYTE 1 6 MPI_COMM_WORLD, .recv [0] 1 MPI_BYTE MPI_ANY_SOURCE MPI_ANY_TAG MPI_COMM_WORLD]
    [.send [7] 1 MPI_BYTE 0 5 MPI_COMM_WORLD, .send [8] 1 MPI_BYTE 0 5 MPI_COMM_WORLD,
      .send [9] 1 MPI_BYTE 0 6 MPI_COMM_WORLD]

/-- The first two messages wait on the queue while the third is received. -/
theorem channels_fifo_tags :
    ∃ s, Run (step duoTags) (fun s l _ => Delivers s l) start s ∧
      ((s.rank 0).taken.map (·.frame.data) = [[9], [7]] ∧ (s.rank 0).mail.map (·.frame.data) = [[8]]) ∧
      (s.rank 0).taken.filter (onChannel 1 5) ++ ((s.rank 0).mail ++ msgsTo 0 s.net).filter (onChannel 1 5) =
        (msgsTo 0 s.sent).filter (onChannel 1 5) := by
  have h : ((exec (step duoTags) (fun s l => patient s l && inOrder s l && noOvertake s l && roomy s l) start
      (duoInit ++ ([.rank 1 .call, .rank 1 .exec, .rank 1 .exec, .rank 1 .call, .rank 1 .exec, .rank 1 .exec,
        .rank 1 .call, .rank 1 .exec, .deliver 0, .deliver 0, .deliver 0, .rank 0 .call, .rank 0 .exec, .rank 0 .recv,
        .rank 0 .recv, .rank 0 .recv, .rank 0 .exec, .rank 0 .call, .rank 0 .exec] : List Label))).map fun s =>
      decide ((s.rank 0).taken.map (·.frame.data) = [[9], [7]] ∧ (s.rank 0).mail.map (·.frame.data) = [[8]])) =
        some true := by
    decide +kernel
  obtain ⟨s, hrun, hs⟩ := exec_reaches h fun s l s' hb => by simpa [Delivers, and_assoc] using hb
  exact ⟨s, hrun, hs, channels_fifo duoTags hrun 1 0 5⟩

end

end LibNeoos.Mpi
