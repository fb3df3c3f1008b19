import LibNeoos.Mpi.Pool
import Mathlib.Data.List.TakeWhile
/-!
# Receive matching

`recv_match` looks for a message on the unexpected queue and then reads the
socket until one matches, putting the others on the queue. Here `arrivals` is
what its `recvfrom` calls return, one after the other; when it is used up the
call is still waiting. The abstract mailbox of a rank is the queue followed by
the messages among the arrivals: `recv_match` takes the first match out of it,
and a run of receives serves that one mailbox in order.
-/

namespace LibNeoos.Mpi

open LibNeoos.Lib

/-! ## Putting messages on the queue -/

section
variable {α : Type}

/-- What a queue becomes when `l` is put on it message by message: what does
not find a free slot is left out. -/
def stash (queue l : List α) : List α := queue ++ l.take (PENDING_SLOTS - queue.length)

theorem stash_nil (queue : List α) : stash queue [] = queue := by simp [stash]

theorem stash_roomy {queue l : List α} (h : queue.length + l.length ≤ PENDING_SLOTS) :
    stash queue l = queue ++ l := by
  rw [stash, List.take_of_length_le (by omega)]

theorem stash_cons {queue : List α} (h : queue.length ≤ PENDING_SLOTS) (a : α) (l : List α) :
    stash (stash queue [a]) l = stash queue (a :: l) := by
  rcases Nat.lt_or_eq_of_le h with hlt | heq
  · obtain ⟨k, hk⟩ : ∃ k, PENDING_SLOTS - queue.length = k + 1 := ⟨PENDING_SLOTS - queue.length - 1, by omega⟩
    have hk' : PENDING_SLOTS - (queue.length + 1) = k := by omega
    simp only [stash, hk, List.take_succ_cons, List.take_nil, List.length_append, List.length_singleton, hk']
    simp
  · simp [stash, heq]

/-- `M'` is `M` with the block `gone` cut out. -/
def CutOut (M gone M' : List α) : Prop := ∃ K R, M = K ++ gone ++ R ∧ M' = K ++ R

theorem CutOut.sublist {M gone M' : List α} (h : CutOut M gone M') : M'.Sublist M := by
  obtain ⟨K, R, rfl, rfl⟩ := h
  exact (List.sublist_append_left K gone).append (List.Sublist.refl R)

end

variable {α : Type} [Framed α]

/-! ## The code -/

def hdrMatches (h : Header) (source tag : Int) : Bool :=
  if source ≠ MPI_ANY_SOURCE ∧ h.src ≠ source then false
  else if tag ≠ MPI_ANY_TAG ∧ h.tag ≠ tag then false
  else true

/-- The messages a receive of `(source, tag)` accepts. -/
def accepts (source tag : Int) (a : α) : Bool := hdrMatches (Framed.hdr a) source tag

theorem accepts_iff {source tag : Int} {a : α} : accepts source tag a = true ↔
    (source = MPI_ANY_SOURCE ∨ (Framed.hdr a).src = source) ∧ (tag = MPI_ANY_TAG ∨ (Framed.hdr a).tag = tag) := by
  unfold accepts hdrMatches
  by_cases h1 : source ≠ MPI_ANY_SOURCE ∧ (Framed.hdr a).src ≠ source
  · rw [if_pos h1]
    simp only [Bool.false_eq_true, false_iff, not_and]
    tauto
  · rw [if_neg h1]
    by_cases h2 : tag ≠ MPI_ANY_TAG ∧ (Framed.hdr a).tag ≠ tag
    · rw [if_pos h2]
      simp only [Bool.false_eq_true, false_iff, not_and]
      tauto
    · rw [if_neg h2]
      simp only [true_iff]
      tauto

/-- What one `recvfrom` returns: a negative number, fewer bytes than a header,
or a message. -/
inductive Recvd (α : Type) where
  | err (n : Int)
  | runt (n : Nat)
  | frame (a : α)

/-- How one pass of `recv_match`'s loop ends, for a queue `π`. -/
inductive Pass (π α : Type) where
  | again (pool : π)
  | done (rc : Int) (out : Option α) (pool : π)

/-- The body of `recv_match`'s loop, given how the queue takes a message. -/
def recv_match_pass {π : Type} (put : α → π → Option π) (source tag : Int) (pool : π) : Recvd α → Pass π α
  | .err n => if n = -EINTR then .again pool else .done MPI_ERR_INTERN none pool
  | .runt _ => .again pool
  | .frame a =>
    if accepts source tag a then .done MPI_SUCCESS (some a) pool
    else
      match put a pool with
      | some pool' => .again pool'
      | none => .again pool -- the queue is full: the message is dropped

/-- The body on a well-formed pool. -/
def recv_match_body (source tag : Int) (pool : Pool α) (x : Recvd α) : Pass (Pool α) α :=
  recv_match_pass Pool.put source tag pool x

/-- How a call of `recv_match` ends, with the arrivals it has not read. -/
inductive Outcome (α : Type) where
  | returned (rc : Int) (out : Option α) (pool : Pool α) (rest : List (Recvd α))
  | waiting (pool : Pool α)

def recv_match_loop (source tag : Int) (pool : Pool α) : List (Recvd α) → Outcome α
  | [] => .waiting pool
  | x :: xs =>
    match recv_match_body source tag pool x with
    | .again pool' => recv_match_loop source tag pool' xs
    | .done rc out pool' => .returned rc out pool' xs

def recv_match (source tag : Int) (pool : Pool α) (arrivals : List (Recvd α)) : Outcome α :=
  match pool.take (accepts source tag) with
  | (some a, pool') => .returned MPI_SUCCESS (some a) pool' arrivals
  | (none, pool') => recv_match_loop source tag pool' arrivals

/-! ## The mailbox -/

/-- The messages among what `recvfrom` returns. -/
def frames : List (Recvd α) → List α
  | [] => []
  | .frame a :: xs => a :: frames xs
  | _ :: xs => frames xs

/-- The unexpected queue, then the messages waiting in the socket. -/
def mailbox (pool : Pool α) (arrivals : List (Recvd α)) : List α := pool.queue ++ frames arrivals

/-- No `recvfrom` fails, except by being interrupted. -/
def NoError (arrivals : List (Recvd α)) : Prop := ∀ n, .err n ∈ arrivals → n = -EINTR

/-- The messages a receive reads from the socket before it has its match. -/
def passedOver (source tag : Int) (pool : Pool α) (arrivals : List (Recvd α)) : List α :=
  if pool.queue.any (accepts source tag) then [] else (frames arrivals).takeWhile (!accepts source tag ·)

/-- Those of them it reads while no slot is free. -/
def overflow (source tag : Int) (pool : Pool α) (arrivals : List (Recvd α)) : List α :=
  (passedOver source tag pool arrivals).drop (PENDING_SLOTS - pool.queue.length)

/-- One pass over a message that does not match: it goes on the queue or, if
every slot is taken, that one message is gone and nothing else changes. -/
theorem recv_match_body_skip (source tag : Int) (pool : Pool α) (a : α) (h : accepts source tag a = false) :
    ∃ pool', recv_match_body source tag pool (.frame a) = .again pool' ∧ pool'.queue = stash pool.queue [a] := by
  have hput := pool.put_spec a
  have hle := pool.length_le
  unfold recv_match_body recv_match_pass
  simp only [h, Bool.false_eq_true, if_false]
  split at hput
  · rename_i hfull
    rw [hput]
    exact ⟨pool, rfl, by simp [stash, hfull]⟩
  · obtain ⟨pool', hp, hq⟩ := hput
    rw [hp]
    exact ⟨pool', rfl, by rw [hq, stash_roomy (by simp at *; omega)]⟩

/-! ## `recv_match` serves the mailbox -/

/-- From an empty-handed look at the queue, the loop reads up to the first
match and puts what it passes over on the queue. -/
theorem recv_match_loop_spec (source tag : Int) (xs : List (Recvd α)) :
    ∀ pool : Pool α, NoError xs →
      match (frames xs).find? (accepts source tag) with
      | some a => ∃ pool' rest, recv_match_loop source tag pool xs = .returned MPI_SUCCESS (some a) pool' rest ∧
          NoError rest ∧ pool'.queue = stash pool.queue ((frames xs).takeWhile (!accepts source tag ·)) ∧
          frames xs = (frames xs).takeWhile (!accepts source tag ·) ++ a :: frames rest
      | none => ∃ pool', recv_match_loop source tag pool xs = .waiting pool' ∧
          pool'.queue = stash pool.queue ((frames xs).takeWhile (!accepts source tag ·)) := by
  induction xs with
  | nil =>
    intro pool _
    exact ⟨pool, rfl, by simp [frames, stash_nil]⟩
  | cons x xs ih =>
    intro pool hne
    have hne' : NoError xs := fun n hn => hne n (List.mem_cons_of_mem _ hn)
    cases x with
    | err n =>
      -- an interrupted call is made again
      have hn : n = -EINTR := hne n (by simp)
      simpa [recv_match_loop, recv_match_body, recv_match_pass, frames, hn] using ih pool hne'
    | runt n => simpa [recv_match_loop, recv_match_body, recv_match_pass, frames] using ih pool hne'
    | frame a =>
      by_cases ha : accepts source tag a = true
      · simp only [frames, List.find?_cons, ha, List.takeWhile_cons, Bool.not_true, Bool.false_eq_true, if_false,
          stash_nil, List.nil_append]
        exact ⟨pool, xs, by simp [recv_match_loop, recv_match_body, recv_match_pass, ha], hne', rfl, rfl⟩
      · have ha' : accepts source tag a = false := by simpa using ha
        obtain ⟨pool1, hbody, hq⟩ := recv_match_body_skip source tag pool a ha'
        have := ih pool1 hne'
        simp only [recv_match_loop, hbody, frames, List.find?_cons, ha', List.takeWhile_cons, Bool.not_false,
          if_true, hq, stash_cons pool.length_le] at this ⊢
        cases hf : (frames xs).find? (accepts source tag) with
        | none => simpa [hf] using this
        | some b => simpa [hf] using this

/-- The mailbox after a call: its arrivals are all read while it waits. -/
def Outcome.mailbox : Outcome α → List α
  | .returned _ _ pool rest => Mpi.mailbox pool rest
  | .waiting pool => pool.queue

/-- A call of `recv_match` returns the first match in the mailbox and takes it
out, or waits if there is none. Besides, it loses what it reads while no slot
is free. -/
theorem recv_match_spec (source tag : Int) (pool : Pool α) {xs : List (Recvd α)} (hne : NoError xs) :
    (match (mailbox pool xs).find? (accepts source tag) with
      | some a => ∃ pool' rest, recv_match source tag pool xs = .returned MPI_SUCCESS (some a) pool' rest ∧ NoError rest
      | none => ∃ pool', recv_match source tag pool xs = .waiting pool') ∧
    CutOut ((mailbox pool xs).eraseP (accepts source tag)) (overflow source tag pool xs)
      (recv_match source tag pool xs).mailbox := by
  obtain ⟨htake, hleft⟩ := pool.take_spec (accepts source tag)
  unfold recv_match overflow passedOver
  rw [mailbox, List.find?_append]
  cases hq : pool.queue.find? (accepts source tag) with
  | some a =>
    have hmem := List.mem_of_find?_eq_some hq
    have ha := List.find?_some hq
    have hany : pool.queue.any (accepts source tag) = true := List.any_eq_true.2 ⟨a, hmem, ha⟩
    rw [hq] at htake
    rw [show pool.take (accepts source tag) = (some a, (pool.take (accepts source tag)).2) from
      Prod.ext htake rfl]
    refine ⟨⟨_, _, rfl, hne⟩, pool.queue.eraseP (accepts source tag), frames xs, ?_, ?_⟩
    · rw [List.eraseP_append_left ha _ hmem]
      simp [hany]
    · rw [Outcome.mailbox, mailbox, hleft]
  | none =>
    have hno : ∀ b ∈ pool.queue, ¬ accepts source tag b = true := by simpa [List.find?_eq_none] using hq
    have hany : pool.queue.any (accepts source tag) = false := by simpa using hno
    rw [hq] at htake
    rw [show pool.take (accepts source tag) = (none, (pool.take (accepts source tag)).2) from
      Prod.ext htake rfl]
    have hloop := recv_match_loop_spec source tag xs (pool.take (accepts source tag)).2 hne
    rw [hleft, List.eraseP_of_forall_not hno] at hloop
    rw [List.eraseP_append_right _ hno]
    simp only [Option.none_or, hany, Bool.false_eq_true, if_false]
    -- what is read is the part on the queue and the part that finds no slot
    have hread := List.take_append_drop (PENDING_SLOTS - pool.queue.length)
      ((frames xs).takeWhile (!accepts source tag ·))
    cases hf : (frames xs).find? (accepts source tag) with
    | some a =>
      simp only [hf] at hloop
      obtain ⟨pool', rest, hr, hne', hqueue, hsplit⟩ := hloop
      rw [hr]
      refine ⟨⟨_, _, rfl, hne'⟩, pool'.queue, frames rest, ?_, rfl⟩
      obtain ⟨A, B, hAB, herase, ha, hA⟩ := Mailbox.find_split hf
      have hA' : (frames xs).takeWhile (!accepts source tag ·) = A := by
        rw [hAB, List.takeWhile_append_of_pos (by simpa using hA), List.takeWhile_cons_of_neg (by simp [ha])]
        simp
      rw [hA'] at hsplit hread hqueue ⊢
      have hB : B = frames rest := by
        have := hAB.symm.trans hsplit
        simpa using this
      rw [herase, hqueue, hB, stash, List.append_assoc pool.queue, hread, List.append_assoc]
    | none =>
      simp only [hf] at hloop
      obtain ⟨pool', hr, hqueue⟩ := hloop
      rw [hr]
      refine ⟨⟨_, rfl⟩, pool'.queue, [], ?_, by simp [Outcome.mailbox]⟩
      have hno' : ∀ b ∈ frames xs, ¬ accepts source tag b = true := by simpa [List.find?_eq_none] using hf
      have hall : (frames xs).takeWhile (!accepts source tag ·) = frames xs :=
        List.takeWhile_eq_self_iff.2 (fun b hb => by simpa using hno' b hb)
      rw [hall] at hread hqueue ⊢
      rw [List.eraseP_of_forall_not hno', hqueue, stash, List.append_assoc pool.queue, hread, List.append_nil]

/-! ## Runs of receives -/

/-- Receives for the given `(source, tag)` pairs, one after the other: what
each delivered, and the mailbox's two parts afterwards. A receive that waits
for ever ends the run. -/
def receives : List (Int × Int) → Pool α → List (Recvd α) → List ((Int × Int) × α) × Pool α × List (Recvd α)
  | [], pool, xs => ([], pool, xs)
  | (source, tag) :: reqs, pool, xs =>
    match recv_match source tag pool xs with
    | .returned _ (some a) pool' rest =>
      let r := receives reqs pool' rest
      (((source, tag), a) :: r.1, r.2)
    | .returned _ none pool' rest => receives reqs pool' rest
    | .waiting pool' => ([], pool', [])

/-- The deliveries of a run, each with the set of messages its receive accepts. -/
def served (ds : List ((Int × Int) × α)) : List ((α → Bool) × α) := ds.map fun d => (accepts d.1.1 d.1.2, d.2)

theorem receives_served (reqs : List (Int × Int)) :
    ∀ (pool : Pool α) (xs : List (Recvd α)), NoError xs →
      ∃ M', (mailbox (receives reqs pool xs).2.1 (receives reqs pool xs).2.2).Sublist M' ∧
        Mailbox.Served (mailbox pool xs) (served (receives reqs pool xs).1) M' := by
  induction reqs with
  | nil =>
    intro pool xs _
    exact ⟨_, List.Sublist.refl _, .nil⟩
  | cons req reqs ih =>
    obtain ⟨source, tag⟩ := req
    intro pool xs hne
    obtain ⟨hspec, hcut⟩ := recv_match_spec source tag pool hne
    cases hf : (mailbox pool xs).find? (accepts source tag) with
    | some a =>
      simp only [hf] at hspec
      obtain ⟨pool', rest, hr, hne'⟩ := hspec
      rw [hr] at hcut
      obtain ⟨M', hM', hserved⟩ := ih pool' rest hne'
      simp only [receives, hr]
      exact ⟨M', hM', .recv hf hcut.sublist hserved⟩
    | none =>
      simp only [hf] at hspec
      obtain ⟨pool', hr⟩ := hspec
      rw [hr] at hcut
      simp only [receives, hr]
      refine ⟨mailbox pool xs, ?_, .nil⟩
      simpa [mailbox, frames, Outcome.mailbox] using hcut.sublist.trans List.eraseP_sublist

/-- `recv_match` on the linked queue and the socket is a receive from one
ordered mailbox. A call returns the first entry that matches, as it was sent,
and waits exactly if none does; it leaves the other entries in their order,
except for those it reads while no slot is free. Over any run of receives no
entry is delivered twice, and of two entries a receive matches the later one
is never delivered first. -/
theorem recv_match_refines_mailbox (source tag : Int) (pool : Pool α) (arrivals : List (Recvd α))
    (hne : NoError arrivals) :
    (∀ a, (∃ pool' rest, recv_match source tag pool arrivals = .returned MPI_SUCCESS (some a) pool' rest) ↔
      (mailbox pool arrivals).find? (accepts source tag) = some a) ∧
    ((∃ pool', recv_match source tag pool arrivals = .waiting pool') ↔
      ∀ a ∈ mailbox pool arrivals, accepts source tag a = false) ∧
    CutOut ((mailbox pool arrivals).eraseP (accepts source tag)) (overflow source tag pool arrivals)
      (recv_match source tag pool arrivals).mailbox ∧
    (pool.queue.length + (passedOver source tag pool arrivals).length ≤ PENDING_SLOTS →
      (recv_match source tag pool arrivals).mailbox = (mailbox pool arrivals).eraseP (accepts source tag)) ∧
    ∀ reqs, (mailbox pool arrivals).Nodup → ((receives reqs pool arrivals).1.map (·.2)).Nodup ∧
      ∀ pre post s t x y, (receives reqs pool arrivals).1 = pre ++ ((s, t), y) :: post →
        Mailbox.Before (mailbox pool arrivals) x y → accepts s t x = true → x ∉ post.map (·.2) := by
  obtain ⟨hspec, hcut⟩ := recv_match_spec source tag pool hne
  refine ⟨?_, ?_, hcut, ?_, ?_⟩
  · intro a
    cases hf : (mailbox pool arrivals).find? (accepts source tag) with
    | some b =>
      simp only [hf] at hspec
      obtain ⟨pool', rest, hr, -⟩ := hspec
      rw [hr]
      constructor
      · rintro ⟨_, _, h⟩; cases h; rfl
      · intro h; cases h; exact ⟨_, _, rfl⟩
    | none =>
      simp only [hf] at hspec
      obtain ⟨pool', hr⟩ := hspec
      simp [hr]
  · cases hf : (mailbox pool arrivals).find? (accepts source tag) with
    | some b =>
      simp only [hf] at hspec
      obtain ⟨pool', rest, hr, -⟩ := hspec
      rw [hr]
      constructor
      · rintro ⟨_, h⟩; cases h
      · intro h
        have := List.find?_some hf
        rw [h b (List.mem_of_find?_eq_some hf)] at this
        cases this
    | none =>
      simp only [hf] at hspec
      have : ∀ a ∈ mailbox pool arrivals, accepts source tag a = false := by
        simpa [List.find?_eq_none] using hf
      exact ⟨fun _ => this, fun _ => hspec⟩
  · intro hroom
    obtain ⟨K, R, h1, h2⟩ := hcut
    rw [overflow, List.drop_eq_nil_of_le (by omega), List.append_nil] at h1
    rw [h1, h2]
  · intro reqs hnd
    obtain ⟨M', -, hserved⟩ := receives_served reqs pool arrivals hne
    have hsnd : ∀ ds : List ((Int × Int) × α), (served ds).map (·.2) = ds.map (·.2) := fun ds => by
      simp [served]
    refine ⟨?_, ?_⟩
    · have := hserved.nodup hnd
      rw [hsnd] at this
      exact (List.nodup_append.1 this).1
    · intro pre post s t x y hds hbefore hx hmem
      rw [hds] at hserved
      have hin : x ∉ (served post).map (·.2) ++ M' := by
        refine Mailbox.Served.in_order (p := accepts s t)
          (?_ : Mailbox.Served _ (served pre ++ _ :: _) _) hnd hbefore hx
        simpa [served] using hserved
      exact hin (List.mem_append_left _ (by rw [hsnd]; exact hmem))

/-- A receive for rank 1's tag 7 from a socket that holds a runt, a message of
rank 2 and the one it asks for. -/
theorem recv_match_refines_mailbox_two :
    ∃ pool' rest, recv_match 1 7 (Pool.empty : Pool Datagram)
      [.runt 3, .err (-4), .frame ⟨⟨2, 7, 1, 0⟩, [9], by decide⟩, .frame ⟨⟨1, 7, 1, 0⟩, [5], by decide⟩] =
        .returned 0 (some ⟨⟨1, 7, 1, 0⟩, [5], by decide⟩) pool' rest :=
  ((recv_match_refines_mailbox 1 7 Pool.empty _ (by intro n hn; simp at hn; exact hn)).1 _).2 (by decide)

end LibNeoos.Mpi
