import Mathlib.Data.List.Basic
import Mathlib.Data.List.Perm.Subperm
/-!
# Selective receive from one ordered mailbox

A mailbox is a list of messages in arrival order. A receive names a set of
messages by a predicate, gets the first one in it (`List.find?`) and removes
that entry only (`List.eraseP`). `Served` is a run of receives; between two of
them the mailbox may lose entries, which is all a bounded buffer can do to it.

`Served.nodup`: no entry is delivered twice. `Served.in_order`: a receive that
takes `y` leaves no earlier entry behind that it could have taken, so two
messages a receive both matches are never delivered in the wrong order.

`Follows`: in a mailbox or a channel, entries of one kind come only after one
of another kind.

`Inbox`: a receiver with a queue in front of the channel it reads. However its
receives select, entries that no receive tells apart are taken in the order they
came in (`Inbox.Step.in_order`).
-/

namespace LibNeoos.Lib.Mailbox

variable {α : Type}

/-- `Served M ds M'`: receives from the mailbox `M` delivered the entries
`ds`, each with the predicate of its receive, and left `M'`. -/
inductive Served : List α → List ((α → Bool) × α) → List α → Prop
  | nil {M : List α} : Served M [] M
  | recv {M N M' : List α} {p : α → Bool} {a : α} {ds : List ((α → Bool) × α)} :
      M.find? p = some a → N.Sublist (M.eraseP p) → Served N ds M' → Served M ((p, a) :: ds) M'

/-- The first match splits the mailbox; removing it keeps the order of the rest. -/
theorem find_split {p : α → Bool} {M : List α} {a : α} (h : M.find? p = some a) :
    ∃ A B, M = A ++ a :: B ∧ M.eraseP p = A ++ B ∧ p a = true ∧ ∀ b ∈ A, p b = false := by
  obtain ⟨hp, A, B, rfl, hA⟩ := List.find?_eq_some_iff_append.1 h
  have hA' : ∀ b ∈ A, p b = false := fun b hb => by simpa using hA b hb
  refine ⟨A, B, rfl, ?_, hp, hA'⟩
  rw [List.eraseP_append_right _ (fun b hb => by simp [hA' b hb]), List.eraseP_cons_of_pos hp]

theorem find_perm {p : α → Bool} {M : List α} {a : α} (h : M.find? p = some a) :
    (a :: M.eraseP p).Perm M := by
  obtain ⟨A, B, rfl, he, -, -⟩ := find_split h
  rw [he]
  exact List.perm_middle.symm

/-- What was delivered and what is left were there at the start, as often. -/
theorem Served.subperm {M M' : List α} {ds : List ((α → Bool) × α)} (h : Served M ds M') :
    (ds.map (·.2) ++ M').Subperm M := by
  induction h with
  | nil => exact List.Subperm.refl _
  | @recv M N M' p a ds hf hs _ ih =>
    have h1 : (a :: (ds.map (·.2) ++ M')).Subperm (a :: M.eraseP p) :=
      (List.subperm_cons a).2 (ih.trans hs.subperm)
    simpa using h1.trans (find_perm hf).subperm

/-- In a mailbox of distinct entries none is delivered twice, and none that is
still there has been delivered. -/
theorem Served.nodup {M M' : List α} {ds : List ((α → Bool) × α)} (h : Served M ds M') (hn : M.Nodup) :
    (ds.map (·.2) ++ M').Nodup := by
  obtain ⟨l, hp, hs⟩ := h.subperm
  exact hp.nodup_iff.1 (hn.sublist hs)

/-- `x` arrived before `y`. -/
def Before (M : List α) (x y : α) : Prop := [x, y].Sublist M

theorem before_left {A B : List α} {x y : α} (hn : (A ++ y :: B).Nodup) (h : Before (A ++ y :: B) x y) :
    x ∈ A := by
  obtain ⟨r1, r2, he, h1, h2⟩ := List.sublist_append_iff.1 h
  rcases r1 with _ | ⟨a, r1⟩
  · -- both `x` and `y` would come from `y :: B`, which holds `y` once
    have hyB : y ∉ B := (List.nodup_cons.1 (List.nodup_append.1 hn).2.1).1
    rw [List.nil_append] at he
    subst he
    cases h2 with
    | cons _ h' => exact absurd (h'.subset (by simp)) hyB
    | cons_cons _ h' => exact absurd (h'.subset (by simp)) hyB
  · simp only [List.cons_append, List.cons.injEq] at he
    exact h1.subset (by simp [he.1])

theorem before_right {A B : List α} {x y : α} (hn : (A ++ y :: B).Nodup) (h : Before (A ++ y :: B) y x) :
    x ∈ B := by
  obtain ⟨r1, r2, he, h1, h2⟩ := List.sublist_append_iff.1 h
  rcases r1 with _ | ⟨a, r1⟩
  · rw [List.nil_append] at he
    subst he
    cases h2 with
    | cons _ h' => exact h'.subset (by simp)
    | cons_cons _ h' => exact h'.subset (by simp)
  · simp only [List.cons_append, List.cons.injEq] at he
    have hyA : y ∈ A := h1.subset (by simp [he.1])
    exact absurd rfl ((List.nodup_append.1 hn).2.2 y hyA y (by simp))

/-- Losing entries does not reorder the ones that stay. -/
theorem Before.sublist {M N : List α} {x y : α} (hn : M.Nodup) (hs : N.Sublist M) (hb : Before M x y)
    (hx : x ∈ N) (hy : y ∈ N) : Before N x y := by
  obtain ⟨A, B, rfl⟩ := List.append_of_mem hy
  have hN : (A ++ y :: B).Nodup := hn.sublist hs
  rcases List.mem_append.1 hx with hA | hB
  · obtain ⟨A1, A2, rfl⟩ := List.append_of_mem hA
    unfold Before
    simp
  · exfalso
    -- if `x` came after `y` in `N` it would in `M` too
    obtain ⟨A', B', rfl⟩ := List.append_of_mem (hs.subset hy)
    have h1 : x ∈ A' := before_left hn hb
    have h2 : x ∈ B' := by
      refine before_right hn (List.Sublist.trans ?_ hs)
      rcases List.mem_cons.1 hB with rfl | hB
      · exact absurd rfl ((List.nodup_append.1 hn).2.2 x h1 x (by simp))
      · exact (List.Sublist.cons_cons y (List.singleton_sublist.2 hB)).trans (List.sublist_append_right _ _)
    exact (List.nodup_append.1 hn).2.2 x h1 x (List.mem_cons_of_mem _ h2) rfl

/-- If a receive takes `y` although it matches the earlier `x`, then `x` is
gone by then: it is neither delivered later nor still waiting. -/
theorem Served.in_order {M M' : List α} {pre post : List ((α → Bool) × α)} {p : α → Bool} {x y : α}
    (h : Served M (pre ++ (p, y) :: post) M') (hn : M.Nodup) (hb : Before M x y) (hx : p x = true) :
    x ∉ post.map (·.2) ++ M' := by
  induction pre generalizing M with
  | nil =>
    cases h with
    | recv hf _ _ =>
      -- the receive takes the first match, and `x` is an earlier one
      obtain ⟨A, B, rfl, -, -, hA⟩ := find_split hf
      rw [hA x (before_left hn hb)] at hx
      cases hx
  | cons d pre ih =>
    cases h with
    | @recv _ N _ _ _ _ hf hs hrest =>
      intro hmem
      have hsub := hrest.subperm.subset
      have hNM : N.Sublist M := hs.trans List.eraseP_sublist
      have hxN : x ∈ N := hsub (by
        rcases List.mem_append.1 hmem with h | h
        · exact List.mem_append_left _ (by simp [List.map_append] at h ⊢; exact .inr (.inr h))
        · exact List.mem_append_right _ h)
      have hyN : y ∈ N := hsub (by simp)
      exact ih hrest (hn.sublist hNM) (hb.sublist hn hNM hxN hyN) hmem

/-! ## Entries that come after another -/

/-- Before every entry in `P` there is one in `Q`. -/
def Follows (P Q : α → Prop) (l : List α) : Prop := ∀ A a B, l = A ++ a :: B → P a → ∃ g ∈ A, Q g

section
variable {P Q : α → Prop} {l l' : List α} {a : α}

theorem follows_of_not (h : ∀ x ∈ l, ¬ P x) : Follows P Q l := by
  rintro A a B rfl ha
  exact absurd ha (h a (by simp))

theorem Follows.head (h : Follows P Q (a :: l)) : ¬ P a := fun ha => by
  obtain ⟨g, hg, -⟩ := h [] a l rfl ha
  cases hg

theorem Follows.tail (h : Follows P Q (a :: l)) (ha : ¬ Q a) : Follows P Q l := by
  rintro A b B rfl hb
  obtain ⟨g, hg, hq⟩ := h (a :: A) b B rfl hb
  rcases List.mem_cons.1 hg with rfl | hg
  · exact absurd hq ha
  · exact ⟨g, hg, hq⟩

theorem Follows.append (h : Follows P Q l) (h' : (∃ g ∈ l, Q g) ∨ ∀ x ∈ l', ¬ P x) : Follows P Q (l ++ l') := by
  intro A a B he ha
  rcases List.append_eq_append_iff.1 he with ⟨C, rfl, hC⟩ | ⟨C, hC, hl'⟩
  · -- the entry is among the new ones
    rcases h' with ⟨g, hg, hq⟩ | hno
    · exact ⟨g, List.mem_append_left _ hg, hq⟩
    · exact absurd ha (hno a (by rw [hC]; simp))
  · rcases C with _ | ⟨c, C⟩
    · rcases h' with ⟨g, hg, hq⟩ | hno
      · exact ⟨g, by simpa [hC] using hg, hq⟩
      · exact absurd ha (hno a (by simp at hl'; simp [← hl']))
    · simp only [List.cons_append, List.cons.injEq] at hl'
      obtain ⟨rfl, -⟩ := hl'
      exact h A a C hC ha

/-- The entry at `i` has its predecessor among those before it. -/
theorem Follows.take {i : Nat} (h : Follows P Q l) (hi : l[i]? = some a) (ha : P a) : ∃ g ∈ l.take i, Q g := by
  obtain ⟨hlt, rfl⟩ := List.getElem?_eq_some_iff.1 hi
  exact h (l.take i) _ (l.drop (i + 1)) (by simp) ha

/-- An entry that is no predecessor can be taken out. -/
theorem Follows.eraseIdx {i : Nat} (h : Follows P Q l) (hi : l[i]? = some a) (ha : ¬ Q a) :
    Follows P Q (l.eraseIdx i) := by
  obtain ⟨hlt, rfl⟩ := List.getElem?_eq_some_iff.1 hi
  have hl : l = l.take i ++ l[i] :: l.drop (i + 1) := by simp
  rw [List.eraseIdx_eq_take_drop_succ]
  generalize l.take i = X, l.drop (i + 1) = Y, l[i] = a at hl ha
  subst hl
  intro A b B he hb
  rcases List.append_eq_append_iff.1 he with ⟨C, rfl, hC⟩ | ⟨C, rfl, hY⟩
  · obtain ⟨g, hg, hq⟩ := h (X ++ a :: C) b B (by simp [hC]) hb
    rcases List.mem_append.1 hg with hg | hg
    · exact ⟨g, List.mem_append_left _ hg, hq⟩
    · rcases List.mem_cons.1 hg with rfl | hg
      · exact absurd hq ha
      · exact ⟨g, List.mem_append_right _ hg, hq⟩
  · rcases C with _ | ⟨c, C⟩
    · simp only [List.nil_append] at hY
      subst hY
      obtain ⟨g, hg, hq⟩ := h (A ++ [a]) b B (by simp) hb
      rcases List.mem_append.1 hg with hg | hg
      · exact ⟨g, hg, hq⟩
      · simp only [List.mem_singleton] at hg
        exact absurd (hg ▸ hq) ha
    · simp only [List.cons_append, List.cons.injEq] at hY
      obtain ⟨rfl, -⟩ := hY
      exact h A b (C ++ a :: Y) (by simp) hb

end

/-! ## Entries of one kind -/

section
variable {c p : α → Bool} {l : List α} {a : α}

/-- Taking out the first entry of a kind, or one of no such kind, keeps the order of that kind. -/
theorem filter_middle {A B : List α} (h : c a = true → ∀ b ∈ A, c b = false) :
    [a].filter c ++ (A ++ B).filter c = (A ++ a :: B).filter c := by
  by_cases ha : c a = true
  · have hA : A.filter c = [] := List.filter_eq_nil_iff.2 fun b hb => by simp [h ha b hb]
    simp [hA, ha]
  · simp [ha]

theorem find_kind (h : l.find? p = some a) (hu : c a = true → ∀ b ∈ l, c b = true → p b = true) :
    [a].filter c ++ (l.eraseP p).filter c = l.filter c := by
  obtain ⟨A, B, rfl, he, -, hA⟩ := find_split h
  rw [he]
  apply filter_middle
  intro ha b hb
  by_contra hc
  have hp := hu ha b (by simp [hb]) (by simpa using hc)
  rw [hA b hb] at hp
  cases hp

theorem eraseIdx_kind {i : Nat} (h : l[i]? = some a) (hu : c a = true → ∀ b ∈ l.take i, c b = false) :
    [a].filter c ++ (l.eraseIdx i).filter c = l.filter c := by
  obtain ⟨hlt, rfl⟩ := List.getElem?_eq_some_iff.1 h
  have hl : l = l.take i ++ l[i] :: l.drop (i + 1) := by simp
  rw [List.eraseIdx_eq_take_drop_succ, filter_middle hu, ← hl]

end

/-! ## A queue in front of a channel -/

/-- What a receiver has taken, what it has put aside, and what it has yet to read. -/
structure Inbox (α : Type) where
  taken : List α
  queue : List α
  sock : List α

/-- All that has reached the receiver, in the order in which it is offered. -/
def Inbox.all (b : Inbox α) : List α := b.taken ++ (b.queue ++ b.sock)

/-- A step of a receiver whose receives select by predicates in `P`: it takes the first
match on the queue or, if there is none, off the channel; it puts an entry aside, or
reads one and drops it. -/
inductive Inbox.Step (P : (α → Bool) → Prop) : Inbox α → Inbox α → Prop
  | keeps {b : Inbox α} : Step P b b
  | drops {T Q S : List α} {m : α} : Step P ⟨T, Q, m :: S⟩ ⟨T, Q, S⟩
  | stores {T Q S : List α} {m : α} : Step P ⟨T, Q, m :: S⟩ ⟨T, Q ++ [m], S⟩
  | finds {T Q S : List α} {p : α → Bool} {m : α} : P p → Q.find? p = some m →
      Step P ⟨T, Q, S⟩ ⟨T ++ [m], Q.eraseP p, S⟩
  | reads {T Q S : List α} {p : α → Bool} {m : α} : P p → p m = true → (∀ b ∈ Q, p b = false) →
      Step P ⟨T, Q, m :: S⟩ ⟨T ++ [m], Q, S⟩

/-- Entries that all receives accept or refuse alike stay in order; some may be dropped. -/
theorem Inbox.Step.in_order {P : (α → Bool) → Prop} {c : α → Bool} {b b' : Inbox α} (h : b.Step P b')
    (hu : ∀ p, P p → ∀ x ∈ b.queue ++ b.sock, ∀ y ∈ b.queue ++ b.sock, c x = true → c y = true → p x = true →
      p y = true) :
    (b'.all.filter c).Sublist (b.all.filter c) := by
  cases h with
  | keeps => exact List.Sublist.refl _
  | drops =>
    apply List.Sublist.filter
    simp [Inbox.all]
  | stores => simp [Inbox.all]
  | @finds T Q S p m hp hf =>
    have hkind := find_kind (c := c) hf fun hm b hb hc =>
      hu p hp m (by simp [List.mem_of_find?_eq_some hf]) b (by simp [hb]) hm hc (List.find?_some hf)
    simp only [Inbox.all, List.filter_append] at hkind ⊢
    rw [← hkind]
    simp
  | @reads T Q S p m hp hm hno =>
    have hmid : [m].filter c ++ (Q ++ S).filter c = (Q ++ m :: S).filter c := by
      apply filter_middle
      intro hc b hb
      by_contra hcb
      have hpb := hu p hp m (by simp) b (by simp [hb]) hc (by simpa using hcb) hm
      rw [hno b hb] at hpb
      cases hpb
    have hall : (T ++ [m] ++ (Q ++ S)).filter c = (T ++ (Q ++ m :: S)).filter c := by
      rw [List.filter_append, List.filter_append, List.append_assoc, hmid, ← List.filter_append]
    rw [Inbox.all, Inbox.all, hall]

end LibNeoos.Lib.Mailbox
