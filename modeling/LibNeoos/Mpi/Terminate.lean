import LibNeoos.Lib.Terminate
import LibNeoos.Mpi.Completion
import LibNeoos.Mpi.Residue
import Mathlib.Algebra.BigOperators.Group.Finset.Piecewise
/-!
# Calls come to an end

Once all ranks are started, no sequence of steps goes on for ever, whatever the ranks
call and whichever system calls fail (`calls_terminate`): a rank that sends, counts,
returns or takes a message has less of its program left, and the others cannot send it
more than they have left themselves; `recv_match` reads every message once. Only an
interrupted wait changes nothing, and may be repeated.

A program of collectives therefore comes to a state in which nothing moves unless a system
call fails, and that is the one in which every call has returned and every message has been
received (`collectives_complete`).
-/

namespace LibNeoos.Mpi

open LibNeoos.Lib LibNeoos.Lib.Phased

/-! ## What is left of a program -/

/-- `Next q p`: after its next act, `q` is left of `p`. -/
inductive Prog.Next {α : Type} : Prog α → Prog α → Prop
  | coll_seq {k : Nat → Prog α} {n : Nat} : Next (k n) (.coll_seq k)
  | sendto {d : Nat} {m : Datagram} {k : Int → Prog α} {n : Int} : Next (k n) (.sendto d m k)
  | recv_match {source tag : Int} {k : Except Int Datagram → Prog α} {x : Except Int Datagram} :
      Next (k x) (.recv_match source tag k)

theorem Prog.next_wf {α : Type} : WellFounded (Prog.Next (α := α)) := by
  refine ⟨fun p => ?_⟩
  induction p with
  | ret a =>
    constructor
    intro q hq
    cases hq
  | fault =>
    constructor
    intro q hq
    cases hq
  | coll_seq k ih =>
    constructor
    intro q hq
    cases hq
    exact ih _
  | sendto d m k ih =>
    constructor
    intro q hq
    cases hq
    exact ih _
  | recv_match source tag k ih =>
    constructor
    intro q hq
    cases hq
    exact ih _

/-- Less is left of the call in progress than before it, and less after each act. -/
inductive Left : Option (Prog Ret) → Option (Prog Ret) → Prop
  | next {p q : Prog Ret} : q.Next p → Left (some q) (some p)
  | call {p : Prog Ret} : Left (some p) none

theorem left_wf : WellFounded Left := by
  have hsome : ∀ p, Acc Left (some p) := by
    intro p
    induction p using Prog.next_wf.induction with
    | _ p ih =>
      constructor
      intro x hx
      cases hx with
      | next hq => exact ih _ hq
  refine ⟨fun x => ?_⟩
  cases x with
  | some p => exact hsome p
  | none =>
    constructor
    intro y hy
    cases hy
    exact hsome _

/-- The calls a rank has not returned from, and what is left of the current one. -/
def Rank.place (l : Nat) (k : Rank) : Nat × Option (Prog Ret) := (l - k.rets.length, k.prog?)

/-- What a rank can still read before it waits; a receive searches the queue once. -/
def Rank.toRead (k : Rank) : Nat :=
  k.sock.length +
    match k.ctl with
    | .run (.recv_match ..) => 1
    | _ => 0

def Below : Nat × Option (Prog Ret) → Nat × Option (Prog Ret) → Prop := Prod.Lex (· < ·) Left

theorem below_wf : WellFounded Below := Nat.lt_wfRel.wf.prod_lex left_wf

/-! ## Steps of a started rank -/

/-- A step goes on in the program, or only reads; an interrupted wait does neither. -/
inductive Rank.Gets (l : Nat) (a : Do) (k k' : Rank) (out : List Packet) : Prop
  | on : Below (k'.place l) (k.place l) → Gets l a k k' out
  | reads : k'.place l = k.place l → out = [] → k'.toRead < k.toRead → Gets l a k k' out
  | waits : a = .err (-EINTR) → k.waiting = true → k' = k → out = [] → Gets l a k k' out

section
variable {w : World} {r l : Nat} {k k' : Rank} {out : List Packet} {a : Do}

theorem below_next {p q : Prog Ret} (hrets : k'.rets = k.rets) (hp : k.prog? = some p) (hq : k'.prog? = some q)
    (h : q.Next p) : Below (k'.place l) (k.place l) := by
  unfold Rank.place
  rw [hrets, hp, hq]
  exact Prod.Lex.right _ (.next h)

theorem prog_run {p : Prog Ret} (hc : k.ctl = .run p) : k.prog? = some p := by simp [Rank.prog?, hc]

theorem prog_loop {source tag : Int} {f : Except Int Datagram → Prog Ret} (hc : k.ctl = .recvLoop source tag f) :
    k.prog? = some (.recv_match source tag f) := by simp [Rank.prog?, hc]

theorem exec_gets (hlen : k.prog?.isSome = true → k.rets.length < l) (h : k.exec w r = some (k', out)) :
    k.Gets l .exec k' out := by
  unfold Rank.exec at h
  split at h
  · rename_i a hc
    cases h
    have hlt := hlen (by simp [prog_run hc])
    refine .on (Prod.Lex.left _ _ ?_)
    simp only [List.length_append, List.length_cons, List.length_nil]
    omega
  · rename_i f hc
    cases h
    exact .on (below_next rfl (prog_run hc) rfl .coll_seq)
  · rename_i d m f hc
    cases h
    exact .on (below_next rfl (prog_run hc) rfl .sendto)
  · rename_i source tag f hc
    split at h <;> cases h
    · exact .on (below_next rfl (prog_run hc) rfl .recv_match)
    · exact .reads (by simp [Rank.place, Rank.prog?, hc]) rfl (by simp [Rank.toRead, hc])
  · cases h

theorem recvfrom_gets {m : Msg} {sock : List Msg} (hs : k.sock = m :: sock)
    (h : { k with sock := sock }.recvfrom w r (.frame m) = some (k', out)) : k.Gets l .recv k' out := by
  unfold Rank.recvfrom at h
  split at h
  · rename_i source tag f hc
    replace hc : k.ctl = .recvLoop source tag f := hc
    split at h <;> cases h
    · refine .reads (by simp [Rank.place, Rank.prog?]) rfl ?_
      simp [Rank.toRead, hs, hc]
    · exact .on (below_next rfl (prog_loop hc) rfl .recv_match)
    · exact .on (below_next rfl (prog_loop hc) rfl .recv_match)
  · cases h

theorem recvfrom_err_gets {e : Int} (h : k.recvfrom w r (.err e) = some (k', out)) : k.Gets l (.err e) k' out := by
  unfold Rank.recvfrom at h
  split at h
  · rename_i source tag f hc
    unfold recv_match_body recv_match_pass at h
    simp only at h
    split_ifs at h with he <;> cases h
    · exact .waits (by rw [he]) (by simp [Rank.waiting, hc]) rfl rfl
    · exact .on (below_next rfl (prog_loop hc) rfl .recv_match)
  · cases h

theorem step_gets (hready : k.stage = .ready) (hlen : k.prog?.isSome = true → k.rets.length < l)
    (h : k.step w r a = some (k', out)) : k.Gets l a k' out := by
  cases a with
  | bind => simp [Rank.step, hready] at h
  | init => simp [Rank.step, rendezvous, hready] at h
  | call =>
    simp only [Rank.step, if_pos hready] at h
    split at h <;> cases h
    rename_i hc _
    refine .on ?_
    unfold Rank.place
    rw [show k.prog? = none by simp [Rank.prog?, hc]]
    exact Prod.Lex.right _ .call
  | exec => exact exec_gets hlen (by simpa [Rank.step, hready] using h)
  | recv =>
    simp only [Rank.step, if_pos hready] at h
    split at h
    · rename_i m sock hs
      exact recvfrom_gets hs h
    · cases h
  | err e =>
    simp only [Rank.step, if_pos hready] at h
    split_ifs at h
    split at h
    · rename_i d m f hc
      cases h
      exact .on (below_next rfl (prog_run hc) rfl .sendto)
    · exact recvfrom_err_gets h

end

/-! ## Steps of the system -/

def places (w : World) (s : Sys) (r : Fin w.n) : Nat × Option (Prog Ret) := (s.rank r).place (w.prog r).length

/-- A packet in flight is still to be delivered and then to be read. -/
def toRead (w : World) (s : Sys) : Nat := 2 * s.net.length + ∑ r ∈ Finset.range w.n, (s.rank r).toRead

section
variable {w : World} {s s' : Sys} {l : Label} {ok : Sys → Label → Sys → Prop}

/-- A rank in a call has not returned from all of them. -/
theorem run_in_call (h : Run (step w) ok start s) (r : Nat) (hp : (s.rank r).prog?.isSome = true) :
    (s.rank r).rets.length < (w.prog r).length := by
  obtain ⟨p, hp⟩ := Option.isSome_iff_exists.1 hp
  obtain ⟨op, hop, -⟩ := (run_labelled h).prog r p hp
  exact (List.getElem?_eq_some_iff.1 hop).1

theorem deliver_descends {i : Nat} (h : step w s (.deliver i) = some s') :
    Descends Below (places w) (toRead w) s' s := by
  right
  obtain ⟨p, hp, hnet, hrank⟩ := deliver_spec h
  obtain ⟨hi, -⟩ := List.getElem?_eq_some_iff.1 hp
  refine ⟨?_, ?_⟩
  · funext r
    obtain ⟨q, hq⟩ := deliver_keeps h r
    simp only [places, hq]
    rfl
  · have hlen : s'.net.length + 1 = s.net.length := by
      rw [hnet, List.length_eraseIdx_of_lt hi]
      omega
    -- one rank has one message more to read
    have hsum : ∑ r ∈ Finset.range w.n, (s'.rank r).toRead ≤ ∑ r ∈ Finset.range w.n, (s.rank r).toRead + 1 := by
      have hle : ∀ r ∈ Finset.range w.n, (s'.rank r).toRead ≤ (s.rank r).toRead + if r = p.dst then 1 else 0 := by
        intro r _
        rcases hrank r with ⟨hr, -⟩ | ⟨hr, hr'⟩
        · rw [hr]
          exact Nat.le_add_right _ _
        · rw [hr', if_pos hr]
          simp only [Rank.toRead, List.length_append, List.length_cons, List.length_nil]
          omega
      refine (Finset.sum_le_sum hle).trans ?_
      rw [Finset.sum_add_distrib, Finset.sum_ite_eq' (Finset.range w.n) p.dst fun _ => 1]
      split_ifs <;> omega
    unfold toRead
    omega

theorem rank_descends (hrun : Run (step w) ok start s) (hs : Started w s) {r : Nat} {a : Do}
    (h : step w s (.rank r a) = some s') :
    Descends Below (places w) (toRead w) s' s ∨ (a = .err (-EINTR) ∧ (s.rank r).waiting = true ∧ s' = s) := by
  obtain ⟨hr, k, out, hk, rfl⟩ := step_rank h
  have hsame : ∀ x, x ≠ r → Function.update s.rank r k x = s.rank x := fun x hx => Function.update_of_ne hx _ _
  cases step_gets (hs r hr) (run_in_call hrun r) hk with
  | on hb =>
    refine .inl (.inl ⟨⟨r, hr⟩, ?_, fun j hj => ?_⟩)
    · simpa [places] using hb
    · have hne : (j : Nat) ≠ r := fun e => hj (Fin.ext e)
      simp only [places, hsame j hne]
  | reads hplace hout hlt =>
    subst hout
    refine .inl (.inr ⟨funext fun j => ?_, ?_⟩)
    · by_cases hj : (j : Nat) = r
      · simpa only [places, hj, Function.update_self] using hplace
      · simp only [places, hsame j hj]
    · have hsum := sum_ranks_lt (f := Rank.toRead) hr (by simpa using hlt) hsame
      simpa [toRead] using hsum
  | waits ha hwait hk' hout =>
    subst hk' hout
    exact .inr ⟨ha, hwait, by simp⟩

/-- Every step of a started system leads on, but an interrupted wait. -/
theorem step_descends (hrun : Run (step w) ok start s) (hs : Started w s) (h : step w s l = some s') :
    Descends Below (places w) (toRead w) s' s ∨ ∃ r, l = .rank r (.err (-EINTR)) ∧ (s.rank r).waiting = true ∧
      s' = s := by
  cases l with
  | deliver i => exact .inl (deliver_descends h)
  | rank r a =>
    rcases rank_descends hrun hs h with hdesc | ⟨rfl, hwait, hsame⟩
    · exact .inl hdesc
    · exact .inr ⟨r, rfl, hwait, hsame⟩

theorem not_descends_self : ¬ Descends Below (places w) (toRead w) s s :=
  (descends_wf below_wf (places w) (toRead w)).irrefl.irrefl s

/-- An interrupted wait is begun again. -/
theorem interrupted_wait {r : Nat} (hs : Started w s) (hr : r < w.n) (hwait : (s.rank r).waiting = true) :
    step w s (.rank r (.err (-EINTR))) = some s := by
  have hready := hs r hr
  have hneg : ¬ (0 : Int) ≤ -EINTR := by decide
  have hk : (s.rank r).step w r (.err (-EINTR)) = some (s.rank r, []) := by
    cases hk : s.rank r with
    | mk stage didBind sock pool coll_seq ctl rets ticks done got =>
      rw [hk] at hready hwait
      cases ctl with
      | recvLoop source tag f =>
        simp only at hready
        simp only [Rank.step, hneg, hready, if_false, if_true, Rank.recvfrom, recv_match_body, recv_match_pass]
      | _ => cases hwait
  simp only [step, if_pos hr, hk, Option.map_some, Function.update_eq_self, List.append_nil, List.filter_nil]

/-- After start-up, whatever the ranks call and whatever fails: there is no endless
sequence of steps that change anything, and the steps that change nothing are the waits
in `recv_match` that a signal interrupts. -/
theorem calls_terminate (w : World) :
    (WellFounded fun s' s : Sys =>
      Run (step w) (fun _ _ _ => True) start s ∧ Started w s ∧ s' ≠ s ∧ ∃ l, step w s l = some s') ∧
    ∀ s l, Run (step w) (fun _ _ _ => True) start s → Started w s →
      (step w s l = some s ↔ ∃ r < w.n, l = .rank r (.err (-EINTR)) ∧ (s.rank r).waiting = true) := by
  refine ⟨Subrelation.wf ?_ (descends_wf below_wf (places w) (toRead w)), fun s l hrun hs => ⟨fun hst => ?_, ?_⟩⟩
  · rintro s' s ⟨hrun, hs, hne, l, hst⟩
    rcases step_descends hrun hs hst with hdesc | ⟨r, -, -, hsame⟩
    · exact hdesc
    · exact absurd hsame hne
  · rcases step_descends hrun hs hst with hdesc | ⟨r, rfl, hwait, -⟩
    · exact absurd hdesc not_descends_self
    · exact ⟨r, (step_rank hst).1, rfl, hwait⟩
  · rintro ⟨r, hr, rfl, hwait⟩
    exact interrupted_wait hs hr hwait

/-! ## Where a program of collectives comes to rest -/

/-- No step changes anything, as long as no system call fails. A rank that waits for a
message which nobody has sent is at rest. -/
def AtRest (w : World) (s : Sys) : Prop := ∀ l s', (∀ r e, l ≠ .rank r (.err e)) → step w s l = some s' → s' = s

/-- A step in which no system call fails changes something. -/
theorem moves_on (hrun : Run (step w) ok start s) (hs : Started w s) (hl : ∀ r e, l ≠ .rank r (.err e))
    (h : step w s l = some s') : s' ≠ s := by
  rintro rfl
  rcases step_descends hrun hs h with hdesc | ⟨r, rfl, -⟩
  · exact not_descends_self hdesc
  · exact hl r (-EINTR) rfl

theorem step_of_rank {r : Nat} {a : Do} (hr : r < w.n) (h : ((s.rank r).step w r a).isSome = true) :
    ∃ s', step w s (.rank r a) = some s' := by
  obtain ⟨x, hx⟩ := Option.isSome_iff_exists.1 h
  simp only [step, if_pos hr, hx, Option.map_some]
  exact ⟨_, rfl⟩

/-- A started rank that can go on has a step in which no system call fails. -/
theorem exists_step {r : Nat} (hs : Started w s) (hr : r < w.n) (h : canStep w s r = true) :
    ∃ l s', step w s l = some s' ∧ ∀ x e, l ≠ .rank x (.err e) := by
  have hready := hs r hr
  have rank_step : ∀ a, ((s.rank r).step w r a).isSome = true → (∀ e, a ≠ .err e) →
      ∃ l s', step w s l = some s' ∧ ∀ x e, l ≠ .rank x (.err e) := by
    intro a ha hne
    obtain ⟨s', hst⟩ := step_of_rank hr ha
    refine ⟨_, s', hst, fun x e he => ?_⟩
    cases he
    exact hne e rfl
  simp only [canStep, if_pos hready] at h
  cases hc : (s.rank r).ctl with simp only [hc] at h
  | idle =>
    have hlt : (s.rank r).rets.length < (w.prog r).length := by simpa using h
    refine rank_step .call ?_ (by simp)
    simp [Rank.step, hready, hc, List.getElem?_eq_getElem hlt]
  | run p =>
    refine rank_step .exec ?_ (by simp)
    simp only [Rank.step, if_pos hready, Rank.exec, hc]
    cases p with
    | ret a => rfl
    | fault => cases h
    | coll_seq f => rfl
    | sendto d m f => rfl
    | recv_match source tag f =>
      dsimp only
      split <;> rfl
  | recvLoop source tag f =>
    cases hq : (s.rank r).sock with
    | cons m q =>
      refine rank_step .recv ?_ (by simp)
      simp only [Rank.step, if_pos hready, hq, Rank.recvfrom, hc]
      split <;> rfl
    | nil =>
      -- the message is in flight
      rw [hq, List.append_nil] at h
      obtain ⟨m, hm, -⟩ := List.any_eq_true.1 h
      obtain ⟨p, rest, hn⟩ := List.exists_cons_of_ne_nil (List.ne_nil_of_mem (mem_msgsTo.1 hm))
      obtain ⟨s', hst, -⟩ := deliver_first (w := w) hn
      exact ⟨.deliver 0, s', hst, by simp⟩

/-- A message that waits for a rank has not been taken: it would have been sent twice. -/
theorem not_took_of_waiting {r : Nat} (hperm : (apps (s.held r)).Perm (msgsTo r s.sent))
    (hu : (keys (msgsTo r s.sent)).Nodup) {m : Msg} {x i q : Nat} (hm : m ∈ msgsTo r s.net ++ (s.rank r).mail)
    (ho : m.origin = .coll x i q) : ¬ Took (absOf w s.core) r x q := by
  rintro ⟨t, ht, rfl, rfl⟩
  obtain ⟨g, hg, -, -, j, hgo⟩ := mem_tookOf ht
  have hnd := keys_held_nodup hperm.subperm hu
  rw [Sys.held, keys_append] at hnd
  have h1 : (t.src, t.phase) ∈ keys (msgsTo r s.net ++ (s.rank r).mail) := mem_keys.2 ⟨m, hm, i, ho⟩
  have h2 : (t.src, t.phase) ∈ keys (s.rank r).taken := mem_keys.2 ⟨g.msg, List.mem_map_of_mem hg, j, hgo⟩
  exact List.disjoint_of_nodup_append hnd h1 h2

/-- A rank that is through has taken all messages the plan has sent it. -/
theorem completed_took {r x q : Nat} (hw : Lawful w) (hi : SysSim w (fun _ => True) s.core s.sent) (hr : r < w.n)
    (hx : x < w.n) (hc : completed w s r = true) (hsent : Sent w.plan (absOf w s.core) x q r) :
    Took (absOf w s.core) r x q := by
  simp only [completed, decide_eq_true_eq] at hc
  obtain ⟨-, hidle, hlen⟩ := hc
  have hnone : (s.core r).prog? = none := Option.isNone_iff_eq_none.1 hidle
  obtain ⟨hticks, hdone⟩ := (hi.rank r hr).rest fun p hp => by rw [hnone] at hp; cases hp
  obtain ⟨hq, hact⟩ := phase_of_mem hsent
  have hle : q ≤ (s.core r).ticks := by
    have hhigh := (hi.rank x hx).high.trans (phases_le hw hx _)
    rw [hticks, show w.phases r (s.core r).rets.length = w.elems.length from phases_all hw hr hlen]
    exact le_trans hq hhigh
  have hall : doneActs w.plan (absOf w s.core) q r = w.plan.acts q r := by
    rcases Nat.lt_or_eq_of_le hle with hlt | rfl
    · exact doneActs_of_lt hlt
    · refine doneActs_cur.trans ?_
      show (w.plan.acts (s.core r).ticks r).take (s.core r).done = _
      rw [hdone, List.take_length]
  have hmem : r ∈ w.plan.ranks := by simp [World.plan, plan, hr]
  refine took_all (plan_balanced (elems_rooted w)) hi.inv hmem (fun t ht hd => ?_) (congrArg recvs hall) hact
  rw [hi.exact r t ht trivial, hd]

/-- Every message of a collective has been received when all ranks are through. -/
theorem nothing_left (hw : Lawful w) (hall : w.collective) (hl : Labelled w s)
    (hi : SysSim w (fun _ => True) s.core s.sent) (hperm : ∀ x, (apps (s.held x)).Perm (msgsTo x s.sent))
    (hc : ∀ r < w.n, completed w s r = true) {r : Nat} (hr : r < w.n) :
    apps (msgsTo r s.net ++ (s.rank r).mail) = [] := by
  refine List.filter_eq_nil_iff.2 fun m hm happ => ?_
  have hheld : m ∈ s.held r := List.mem_append_left _ hm
  have hok := hl.held r m hheld
  have hsent : (⟨r, m⟩ : Packet) ∈ s.sent := mem_msgsTo.1 ((hperm r).subset (List.mem_filter.2 ⟨hheld, happ⟩))
  cases ho : m.origin with
  | hello x => simp [ho, Origin.app] at happ
  | go => simp [ho, Origin.app] at happ
  | user x i =>
    simp only [MsgOk, ho] at hok
    obtain ⟨hx, op, hop, hcall, -⟩ := hok
    have hcoll := hall x hx op (List.mem_of_getElem? hop)
    rw [hcall] at hcoll
    cases hcoll
  | coll x i q =>
    simp only [MsgOk, ho] at hok
    have htook := completed_took hw hi hr hok.1 (hc r hr) (hi.sent _ hsent x i q ho).sent
    exact not_took_of_waiting (hperm r) (hi.uniq r) hm ho htook

/-- A rank that is through does nothing more. -/
theorem atRest_of_completed (hc : ∀ r < w.n, completed w s r = true) (hn : s.net = []) : AtRest w s := by
  intro l s' _ hst
  cases l with
  | deliver i =>
    obtain ⟨p, hp, -⟩ := step_deliver hst
    simp [hn] at hp
  | rank r a =>
    exfalso
    obtain ⟨hr, k, out, hk, -⟩ := step_rank hst
    have hdone := hc r hr
    simp only [completed, decide_eq_true_eq] at hdone
    obtain ⟨hready, hidle, hlen⟩ := hdone
    have hctl : (s.rank r).ctl = .idle := by
      cases hctl : (s.rank r).ctl with
      | idle => rfl
      | run p => simp [prog_run hctl] at hidle
      | recvLoop source tag f => simp [prog_loop hctl] at hidle
    cases a with simp only [Rank.step, hready, if_true] at hk
    | bind => cases hk
    | init => simp [rendezvous, hready] at hk
    | call =>
      rw [hctl, List.getElem?_eq_none hlen] at hk
      cases hk
    | exec => simp [Rank.exec, hctl] at hk
    | recv =>
      split at hk
      · simp [Rank.recvfrom, hctl] at hk
      · cases hk
    | err e =>
      split_ifs at hk
      simp [hctl, Rank.recvfrom] at hk

/-- After start-up a program of collectives is at rest exactly where every rank has
returned from every call and nothing is in flight; no message of a call is then left in
a socket or on a queue. -/
theorem collectives_complete (hw : Lawful w) (hall : w.collective)
    (hrun : Run (step w) (fun s l _ => Reliable w s l) start s) (hs : Started w s) :
    AtRest w s ↔ s.net = [] ∧ ∀ r < w.n, completed w s r = true ∧ apps (s.rank r).mail = [] := by
  refine ⟨fun hrest => ?_, fun h => atRest_of_completed (fun r hr => (h.2 r hr).1) h.1⟩
  have ho := run_orderly (fun _ _ _ hl => hl.1) hrun
  have hi := run_exact hw (fun _ _ _ hl => hl.regular) hrun
  have hperm := run_held_perm (fun _ _ _ hl => hl.1) hrun
  have hn : s.net = [] := by
    by_contra hne
    obtain ⟨p, rest, hn⟩ := List.exists_cons_of_ne_nil hne
    obtain ⟨s', hst, -⟩ := deliver_first (w := w) hn
    exact moves_on hrun hs (by simp) hst (hrest _ s' (by simp) hst)
  have hc : ∀ r < w.n, completed w s r = true := by
    refine (never_stuck hw hall ho hi hperm (run_searched hrun)).resolve_right ?_
    rintro ⟨r, hr, hcan⟩
    obtain ⟨l, s', hst, hl⟩ := exists_step hs hr hcan
    exact moves_on hrun hs hl hst (hrest l s' hl hst)
  refine ⟨hn, fun r hr => ⟨hc r hr, ?_⟩⟩
  simpa [hn, msgsTo] using nothing_left hw hall ho.labelled hi hperm hc hr

/-- Both ranks have returned from the barrier: they are at rest. -/
theorem collectives_complete_meet :
    ∃ s, Run (step duoMeet) (fun s l _ => Reliable duoMeet s l) start s ∧ (s.rank 0).rets = [⟨MPI_SUCCESS, [], none⟩] ∧
      AtRest duoMeet s := by
  have h : ((exec (step duoMeet) (fun s l => decide (Reliable duoMeet s l)) start
      (duoInit ++ ([.rank 1 .call, .rank 1 .exec, .rank 1 .exec, .rank 1 .exec, .deliver 0, .rank 0 .call,
        .rank 0 .exec, .rank 0 .exec, .rank 0 .recv, .rank 0 .exec, .rank 0 .exec, .deliver 0, .rank 1 .recv,
        .rank 1 .exec] :
          List Label))).map fun s =>
      decide ((s.rank 0).rets = [⟨MPI_SUCCESS, [], none⟩] ∧ Started duoMeet s ∧ s.net = [] ∧
        ∀ r < duoMeet.n, completed duoMeet s r = true ∧ apps (s.rank r).mail = [])) = some true := by
    decide +kernel
  obtain ⟨s, hrun, hrets, hs, hdone⟩ := exec_reaches h fun _ _ _ hb => of_decide_eq_true hb
  exact ⟨s, hrun, hrets, (collectives_complete (show Lawful duoMeet by decide) (by decide) hrun hs).2 hdone⟩

end

end LibNeoos.Mpi
