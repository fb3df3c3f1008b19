import LibNeoos.Lib.Linked
import LibNeoos.Lib.Mailbox
import LibNeoos.Mpi.Types
import Mathlib.Data.Fintype.Card
import Mathlib.Data.List.FinRange
/-!
# The unexpected-message queue

`pending_pool`, `pending_used` and `pending_head`: a list linked through a
fixed pool of slots. `RawPool` has the four functions as the C code computes
them, loops included; a loop over the list has a fuel argument that the list's
length bounds. `Wf` is the representation invariant. A `Pool` is a `RawPool`
that satisfies it, and `queue` is the list of messages it stands for. What the
receive path does to a pool is then `take` (find, unlink, copy out, release)
and `put` (allocate, fill, link), specified by `take_spec` and `put_spec`.
-/

namespace LibNeoos.Mpi

open LibNeoos.Lib

abbrev Slot : Type := Fin PENDING_SLOTS

/-- The pool as the C code has it. `item i` is the message in slot `i`, and a
slot that was never filled has none. -/
structure RawPool (α : Type) where
  head : Option Slot
  next : Slot → Option Slot
  item : Slot → Option α
  used : Slot → Bool

namespace RawPool
variable {α : Type}

def empty : RawPool α := ⟨none, fun _ => none, fun _ => none, fun _ => false⟩

/-- `*pp`, where `pp` is `&pending_head` (`none`) or the address of a slot's `next`. -/
def link (p : RawPool α) : Option Slot → Option Slot
  | none => p.head
  | some i => p.next i

/-- `*pp = v`. -/
def setLink (p : RawPool α) (v : Option Slot) : Option Slot → RawPool α
  | none => { p with head := v }
  | some i => { p with next := Function.update p.next i v }

/-- The loop of `pending_take` from the link `pp`; `f` says which messages match. -/
def pending_take_loop (f : α → Bool) (p : RawPool α) : Nat → Option Slot → Option Slot × RawPool α
  | 0, _ => (none, p)
  | fuel + 1, pp =>
    match p.link pp with
    | none => (none, p)
    | some i =>
      if (p.item i).any f then (some i, p.setLink (p.next i) pp) else pending_take_loop f p fuel (some i)

def pending_take (f : α → Bool) (p : RawPool α) : Option Slot × RawPool α :=
  pending_take_loop f p (PENDING_SLOTS + 1) none

def pending_alloc (p : RawPool α) : Option Slot × RawPool α :=
  match (List.finRange PENDING_SLOTS).find? (fun i => !p.used i) with
  | some i => (some i, { p with used := Function.update p.used i true })
  | none => (none, p)

def pending_release (p : RawPool α) (i : Slot) : RawPool α :=
  { p with used := Function.update p.used i false }

/-- The last slot reached from `t`. -/
def pending_push_loop (p : RawPool α) : Nat → Slot → Slot
  | 0, t => t
  | fuel + 1, t =>
    match p.next t with
    | some i => pending_push_loop p fuel i
    | none => t

def pending_push (p : RawPool α) (i : Slot) : RawPool α :=
  let p := { p with next := Function.update p.next i none }
  match p.head with
  | none => { p with head := some i }
  | some t => { p with next := Function.update p.next (pending_push_loop p PENDING_SLOTS t) (some i) }

/-- The list from `pending_head` visits the slots `l`, each once; the slots in
use are the ones on it, and each holds a message. -/
structure Wf (p : RawPool α) (l : List Slot) : Prop where
  nodup : l.Nodup
  linked : Linked p.next p.head l
  used : ∀ i, p.used i = true ↔ i ∈ l
  filled : ∀ i ∈ l, (p.item i).isSome

theorem empty_wf : (empty : RawPool α).Wf [] := ⟨by simp, rfl, by simp [empty], by simp⟩

theorem Wf.length_le {p : RawPool α} {l : List Slot} (h : p.Wf l) : l.length ≤ PENDING_SLOTS := by
  simpa using h.nodup.length_le_card

/-- The slots on the list, in order. -/
def slots (p : RawPool α) : List Slot := walk p.next PENDING_SLOTS p.head

/-- The messages on the list, in order. -/
def queue (p : RawPool α) : List α := p.slots.filterMap p.item

theorem Wf.slots_eq {p : RawPool α} {l : List Slot} (h : p.Wf l) : p.slots = l :=
  h.linked.walk_eq _ h.length_le

theorem Wf.queue_eq {p : RawPool α} {l : List Slot} (h : p.Wf l) : p.queue = l.filterMap p.item := by
  rw [queue, h.slots_eq]

/-! ## `pending_take` -/

/-- What `pending_take` does: it finds the first slot whose message matches and
unlinks it, or changes nothing. -/
theorem pending_take_loop_spec (f : α → Bool) (p : RawPool α) (B : List Slot) :
    ∀ (A : List Slot) (fuel : Nat), (A ++ B).Nodup → Linked p.next p.head (A ++ B) → B.length < fuel →
      match B.find? (fun i => (p.item i).any f) with
      | none => pending_take_loop f p fuel A.getLast? = (none, p)
      | some i => ∃ p', pending_take_loop f p fuel A.getLast? = (some i, p') ∧ p'.item = p.item ∧
          p'.used = p.used ∧ Linked p'.next p'.head (A ++ B.eraseP (fun i => (p.item i).any f)) := by
  induction B with
  | nil =>
    intro A fuel hn hl hf
    obtain ⟨fuel, rfl⟩ : ∃ k, fuel = k + 1 := ⟨fuel - 1, by simp at hf; omega⟩
    have hlink : p.link A.getLast? = none := by
      rcases List.eq_nil_or_concat A with rfl | ⟨A', j, rfl⟩
      · exact hl.head_eq
      · simp only [List.concat_eq_append, List.append_nil] at hl ⊢
        rw [List.getLast?_append_of_ne_nil _ (by simp)]
        exact hl.next_eq
    simp [pending_take_loop, hlink]
  | cons i B ih =>
    intro A fuel hn hl hf
    obtain ⟨fuel, rfl⟩ : ∃ k, fuel = k + 1 := ⟨fuel - 1, by omega⟩
    have hlink : p.link A.getLast? = some i := by
      rcases List.eq_nil_or_concat A with rfl | ⟨A', j, rfl⟩
      · exact hl.head_eq
      · simp only [List.concat_eq_append, List.append_assoc, List.cons_append, List.nil_append] at hl ⊢
        rw [List.getLast?_append_of_ne_nil _ (by simp)]
        exact hl.next_eq
    simp only [pending_take_loop, hlink, List.find?_cons]
    by_cases hm : (p.item i).any f = true
    · simp only [hm, if_true, List.eraseP_cons_of_pos]
      refine ⟨_, rfl, ?_, ?_, ?_⟩
      · cases A.getLast? <;> rfl
      · cases A.getLast? <;> rfl
      · rcases List.eq_nil_or_concat A with rfl | ⟨A', j, rfl⟩
        · exact hl.2
        · simp only [List.concat_eq_append, List.append_assoc, List.cons_append, List.nil_append] at hl hn ⊢
          rw [List.getLast?_append_of_ne_nil _ (by simp)]
          exact hl.unlink_next hn
    · simp only [hm, if_false, Bool.false_eq_true]
      have := ih (A ++ [i]) fuel (by simpa using hn) (by simpa using hl) (by simpa using hf)
      rw [List.getLast?_append_of_ne_nil _ (by simp)] at this
      simpa [List.eraseP_cons_of_neg, hm] using this

theorem pending_take_spec (f : α → Bool) {p : RawPool α} {l : List Slot} (h : p.Wf l) :
    match l.find? (fun i => (p.item i).any f) with
    | none => pending_take f p = (none, p)
    | some i => ∃ p', pending_take f p = (some i, p') ∧ p'.item = p.item ∧ p'.used = p.used ∧
        Linked p'.next p'.head (l.eraseP (fun i => (p.item i).any f)) := by
  have := h.length_le
  exact pending_take_loop_spec f p l [] _ h.nodup h.linked (by omega)

/-- The messages of slots that all hold one: searching them is searching the slots. -/
theorem find_items (f : α → Bool) (item : Slot → Option α) {l : List Slot} (h : ∀ i ∈ l, (item i).isSome) :
    (l.filterMap item).find? f = (l.find? (fun i => (item i).any f)).bind item ∧
      (l.filterMap item).eraseP f = (l.eraseP (fun i => (item i).any f)).filterMap item := by
  induction l with
  | nil => simp
  | cons i l ih =>
    obtain ⟨a, ha⟩ := Option.isSome_iff_exists.1 (h i (by simp))
    obtain ⟨h1, h2⟩ := ih (fun j hj => h j (by simp [hj]))
    by_cases hf : f a = true
    · simp [ha, hf]
    · simp [ha, hf, h1, h2]

/-! ## `pending_push` -/

theorem pending_push_loop_eq (p : RawPool α) (j : Slot) (A : List Slot) :
    ∀ (fuel : Nat) (t : Slot), Linked p.next (some t) (A ++ [j]) → A.length < fuel →
      pending_push_loop p fuel t = j := by
  induction A with
  | nil =>
    intro fuel t hl hf
    obtain ⟨fuel, rfl⟩ : ∃ k, fuel = k + 1 := ⟨fuel - 1, by simp at hf; omega⟩
    obtain ⟨ht, hnone⟩ := hl
    cases ht
    have : p.next j = none := hnone
    simp [pending_push_loop, this]
  | cons a A ih =>
    intro fuel t hl hf
    obtain ⟨fuel, rfl⟩ : ∃ k, fuel = k + 1 := ⟨fuel - 1, by omega⟩
    obtain ⟨ht, hrest⟩ := hl
    cases ht
    have hn : ∃ i, p.next a = some i := by
      rw [hrest.head_eq]
      cases A <;> simp
    obtain ⟨i, hi⟩ := hn
    simp only [pending_push_loop, hi]
    exact ih fuel i (hi ▸ hrest) (by simpa using hf)

theorem pending_push_linked {p : RawPool α} {l : List Slot} {i : Slot} (hn : l.Nodup) (hi : i ∉ l)
    (hl : Linked p.next p.head l) : Linked (p.pending_push i).next (p.pending_push i).head (l ++ [i]) := by
  have hl' : Linked (Function.update p.next i none) p.head l := by
    refine hl.congr (fun k hk => Function.update_of_ne ?_ _ _)
    rintro rfl
    exact hi hk
  have hnext : Function.update p.next i none i = none := Function.update_self _ _ _
  unfold pending_push
  rcases List.eq_nil_or_concat l with rfl | ⟨A, j, rfl⟩
  · have hh : p.head = none := hl.head_eq
    simp only [hh]
    exact Linked.single hnext
  · simp only [List.concat_eq_append] at hl' hn hi ⊢
    obtain ⟨t, ht⟩ : ∃ t, p.head = some t := by
      rw [hl'.head_eq]
      cases A <;> simp
    have hA : A.length < PENDING_SLOTS := by
      have := hn.length_le_card
      simp at this ⊢
      omega
    have hlast : ∀ h, pending_push_loop ⟨h, Function.update p.next i none, p.item, p.used⟩ PENDING_SLOTS t = j :=
      fun h => pending_push_loop_eq _ j A _ t (ht ▸ hl') hA
    have hsnoc := Linked.snoc hn hi hnext hl'
    simp only [ht] at hsnoc ⊢
    rw [hlast]
    exact hsnoc

/-! ## Taking a message out and putting one in -/

/-- The first lines of `recv_match`: take, copy out, release. -/
def take (f : α → Bool) (p : RawPool α) : Option α × RawPool α :=
  match pending_take f p with
  | (some i, p') => (p'.item i, p'.pending_release i)
  | (none, p') => (none, p')

/-- The last lines of `recv_match`'s loop: allocate, fill, push. -/
def put (a : α) (p : RawPool α) : Option (RawPool α) :=
  match pending_alloc p with
  | (some i, p') => some ({ p' with item := Function.update p'.item i (some a) }.pending_push i)
  | (none, _) => none

theorem take_wf (f : α → Bool) {p : RawPool α} {l : List Slot} (h : p.Wf l) :
    ∃ l', (p.take f).2.Wf l' ∧ (p.take f).1 = p.queue.find? f ∧ (p.take f).2.queue = p.queue.eraseP f := by
  have hspec := pending_take_spec f h
  obtain ⟨hfind, herase⟩ := find_items f p.item h.filled
  rw [h.queue_eq, hfind, herase]
  unfold take
  cases hf : l.find? (fun i => (p.item i).any f) with
  | none =>
    simp only [hf] at hspec
    rw [hspec]
    have hn : ∀ i ∈ l, ¬ (p.item i).any f = true := by simpa [List.find?_eq_none] using hf
    exact ⟨l, h, rfl, by rw [h.queue_eq, List.eraseP_of_forall_not hn]⟩
  | some i =>
    simp only [hf] at hspec
    obtain ⟨p', hp', hitem, hused, hlinked⟩ := hspec
    rw [hp']
    obtain ⟨A, B, hl, he, -, -⟩ := Mailbox.find_split hf
    have hn := h.nodup
    rw [he] at hlinked ⊢
    have hwf : (p'.pending_release i).Wf (A ++ B) := by
      rw [hl] at hn
      refine ⟨hn.sublist (by simp), hlinked, ?_, ?_⟩
      · intro k
        rw [List.nodup_append, List.nodup_cons] at hn
        by_cases hk : k = i
        · subst hk
          simp only [pending_release, Function.update_self, Bool.false_eq_true, false_iff, List.mem_append,
            not_or]
          exact ⟨fun hkA => hn.2.2 k hkA k (by simp) rfl, hn.2.1.1⟩
        · simp only [pending_release, Function.update_of_ne hk, hused, h.used k, hl]
          simp [hk]
      · intro k hk
        have hkl : k ∈ l := by
          rw [hl]
          rcases List.mem_append.1 hk with hk | hk
          · exact List.mem_append_left _ hk
          · exact List.mem_append_right _ (List.mem_cons_of_mem _ hk)
        simpa [pending_release, hitem] using h.filled k hkl
    refine ⟨A ++ B, hwf, by simp [hitem], ?_⟩
    rw [hwf.queue_eq]
    simp [pending_release, hitem]

theorem put_wf (a : α) {p : RawPool α} {l : List Slot} (h : p.Wf l) :
    if p.queue.length = PENDING_SLOTS then p.put a = none
    else ∃ p' l', p.put a = some p' ∧ p'.Wf l' ∧ p'.queue = p.queue ++ [a] := by
  have hlen : p.queue.length = l.length := by
    rw [h.queue_eq]
    have hfill := h.filled
    clear h
    induction l with
    | nil => rfl
    | cons i l ih =>
      obtain ⟨b, hb⟩ := Option.isSome_iff_exists.1 (hfill i (by simp))
      simp [hb, ih (fun j hj => hfill j (by simp [hj]))]
  unfold put pending_alloc
  cases hf : (List.finRange PENDING_SLOTS).find? (fun i => !p.used i) with
  | none =>
    -- every slot is on the list, so the list has all of them
    have hall : ∀ i, i ∈ l := by
      intro i
      have := List.find?_eq_none.1 hf i (List.mem_finRange i)
      exact (h.used i).1 (by simpa using this)
    have : PENDING_SLOTS ≤ l.length := by
      have hsub := (List.nodup_finRange PENDING_SLOTS).subperm (fun i _ => hall i) |>.length_le
      simpa using hsub
    have := h.length_le
    rw [if_pos (by omega)]
  | some i =>
    have hi : i ∉ l := by
      have := List.find?_some hf
      intro hil
      rw [(h.used i).2 hil] at this
      simp at this
    have hlt : l.length < PENDING_SLOTS := by
      have := (List.nodup_cons.2 ⟨hi, h.nodup⟩).length_le_card
      simp at this ⊢
      omega
    rw [if_neg (by omega)]
    let p1 : RawPool α :=
      { p with used := Function.update p.used i true, item := Function.update p.item i (some a) }
    have hlinked := pending_push_linked (p := p1) h.nodup hi h.linked
    have hitem : (p1.pending_push i).item = Function.update p.item i (some a) := by
      unfold pending_push; cases p1.head <;> rfl
    have hused : (p1.pending_push i).used = Function.update p.used i true := by
      unfold pending_push; cases p1.head <;> rfl
    have hkeep : ∀ k ∈ l, Function.update p.item i (some a) k = p.item k := by
      intro k hk
      refine Function.update_of_ne ?_ _ _
      rintro rfl
      exact hi hk
    have hwf : (p1.pending_push i).Wf (l ++ [i]) := by
      refine ⟨List.nodup_append.2 ⟨h.nodup, by simp, ?_⟩, hlinked, ?_, ?_⟩
      · rintro x hx y hy rfl
        rw [List.mem_singleton] at hy
        exact hi (hy ▸ hx)
      · intro k
        rw [hused]
        by_cases hk : k = i
        · simp [hk]
        · simp [hk, h.used k]
      · intro k hk
        rw [hitem]
        rcases List.mem_append.1 hk with hk | hk
        · rw [hkeep k hk]; exact h.filled k hk
        · rw [List.mem_singleton] at hk; simp [hk]
    refine ⟨_, _, rfl, hwf, ?_⟩
    rw [hwf.queue_eq, h.queue_eq, hitem, List.filterMap_append, List.filterMap_congr hkeep]
    simp

end RawPool

/-! ## Pools -/

/-- A pool that satisfies the representation invariant. -/
def Pool (α : Type) : Type := { p : RawPool α // ∃ l, p.Wf l }

namespace Pool
variable {α : Type}

def empty : Pool α := ⟨.empty, [], RawPool.empty_wf⟩

def queue (p : Pool α) : List α := p.val.queue

/-- The first message that `f` accepts, and the pool without it. -/
def take (f : α → Bool) (p : Pool α) : Option α × Pool α :=
  ((p.val.take f).1, ⟨(p.val.take f).2, by
    obtain ⟨l, h⟩ := p.property
    obtain ⟨l', h', -⟩ := RawPool.take_wf f h
    exact ⟨l', h'⟩⟩)

/-- The pool with one more message, if a slot is free. -/
def put (a : α) (p : Pool α) : Option (Pool α) :=
  match h : p.val.put a with
  | none => none
  | some p' => some ⟨p', by
    obtain ⟨l, hl⟩ := p.property
    have hput := RawPool.put_wf a hl
    split at hput
    · rw [h] at hput; cases hput
    · obtain ⟨q, l', hq, hwf, -⟩ := hput
      rw [h] at hq
      cases hq
      exact ⟨l', hwf⟩⟩

@[simp] theorem queue_empty : (empty : Pool α).queue = [] := rfl

theorem take_spec (f : α → Bool) (p : Pool α) :
    (p.take f).1 = p.queue.find? f ∧ (p.take f).2.queue = p.queue.eraseP f := by
  obtain ⟨l, h⟩ := p.property
  obtain ⟨-, -, h1, h2⟩ := RawPool.take_wf f h
  exact ⟨h1, h2⟩

theorem put_spec (a : α) (p : Pool α) :
    if p.queue.length = PENDING_SLOTS then p.put a = none
    else ∃ p', p.put a = some p' ∧ p'.queue = p.queue ++ [a] := by
  obtain ⟨l, h⟩ := p.property
  have hput := RawPool.put_wf a h
  unfold put queue
  split at hput
  · rename_i hfull
    rw [if_pos hfull]
    split
    · rfl
    · rename_i q hq; rw [hput] at hq; cases hq
  · rename_i hfull
    rw [if_neg hfull]
    obtain ⟨q, l', hq, hwf, hqueue⟩ := hput
    split
    · rename_i hnone; rw [hq] at hnone; cases hnone
    · rename_i q' hq'
      rw [hq] at hq'
      cases hq'
      exact ⟨_, rfl, hqueue⟩

theorem length_le (p : Pool α) : p.queue.length ≤ PENDING_SLOTS := by
  obtain ⟨l, h⟩ := p.property
  have := h.length_le
  have h2 : p.queue.length ≤ l.length := by
    rw [queue, h.queue_eq]
    exact List.length_filterMap_le _ _
  omega

end Pool

end LibNeoos.Mpi
