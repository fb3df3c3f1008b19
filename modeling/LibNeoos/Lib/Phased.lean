import Mathlib.Data.Finset.Card
import Mathlib.Data.Finset.Max
import Mathlib.Data.List.Basic
import Mathlib.Data.Prod.Lex
import Mathlib.Logic.Function.Basic
/-!
# Exchanges in numbered phases

Every rank goes through the same numbered phases. In a phase it has a fixed
list of acts, each a send to a rank or a receive; a message carries a tag that
its phase and its receiver determine, and a receive takes any message for the
rank that has the tag of its current phase (`Step.recv`). Ranks run through
the phases at their own speed and tags of different phases may coincide.

What is proved of a `Plan` whose receives match its sends (`Balanced`):

* `exact_step`: while no message is `W` phases ahead of a receive, where `W` is
  the least distance of two phases with one tag, every receive takes a message
  of its own phase;
* `exact_hub`: in a phase where every rank reports to a hub and waits for its
  answer this needs no bound on the lead;
* `took_all`: a rank that is past such a phase took every message of it;
* `progress`: some rank can always go on, unless all are finished.

Loss of messages needs no step of its own: nothing forces a message to be taken.
-/

namespace LibNeoos.Lib.Phased

inductive Act (ι : Type) where
  | send (dst : ι)
  | recv (src : Option ι)
  deriving DecidableEq

def Act.isRecv {ι : Type} : Act ι → Bool
  | .send _ => false
  | .recv _ => true

/-- The acts of each rank in each phase, and the tag of the messages a rank
gets in a phase. -/
structure Plan (ι κ : Type) where
  ranks : Finset ι
  acts : Nat → ι → List (Act ι)
  tag : Nat → ι → κ

/-- A message taken: in the rank's phase `during`, the one `src` sent in its
phase `phase`. -/
structure Take (ι : Type) where
  during : Nat
  src : ι
  phase : Nat
  deriving DecidableEq

/-- Where each rank is: its phase, how many acts of it are done, what it took. -/
structure St (ι : Type) where
  phase : ι → Nat
  done : ι → Nat
  took : ι → List (Take ι)

def St.init {ι : Type} : St ι := ⟨fun _ => 0, fun _ => 0, fun _ => []⟩

variable {ι κ : Type}

/-- The number of receives in a list of acts. -/
def recvs (l : List (Act ι)) : Nat := l.countP Act.isRecv

/-- The acts of phase `q` that `r` has done. -/
def doneActs (P : Plan ι κ) (st : St ι) (q : Nat) (r : ι) : List (Act ι) :=
  if q < st.phase r then P.acts q r else if q = st.phase r then (P.acts q r).take (st.done r) else []

/-- `s` has sent its message of phase `q` to `r`. -/
def Sent (P : Plan ι κ) (st : St ι) (s : ι) (q : Nat) (r : ι) : Prop := .send r ∈ doneActs P st q s

/-- `r` has taken the message `s` sent in phase `q`. -/
def Took (st : St ι) (r s : ι) (q : Nat) : Prop := ∃ t ∈ st.took r, t.src = s ∧ t.phase = q

/-- `r`'s next act in its phase. -/
def next (P : Plan ι κ) (st : St ι) (r : ι) : Option (Act ι) := (P.acts (st.phase r) r)[st.done r]?

/-- A receive from `src` (anyone, if `none`) may take a message of `s`. -/
def FromOk (src : Option ι) (s : ι) : Prop := src = none ∨ src = some s

section Steps
variable [DecidableEq ι]

def St.tick (st : St ι) (r : ι) : St ι :=
  { st with phase := Function.update st.phase r (st.phase r + 1), done := Function.update st.done r 0 }

def St.act (st : St ι) (r : ι) : St ι := { st with done := Function.update st.done r (st.done r + 1) }

def St.take (st : St ι) (r s : ι) (q : Nat) : St ι :=
  { st.act r with took := Function.update st.took r (st.took r ++ [⟨st.phase r, s, q⟩]) }

/-- One rank goes on to its next phase, sends, or receives. -/
inductive Step (P : Plan ι κ) (st : St ι) : St ι → Prop
  | tick (r : ι) : st.done r = (P.acts (st.phase r) r).length → Step P st (st.tick r)
  | send (r d : ι) : next P st r = some (.send d) → Step P st (st.act r)
  | recv (r : ι) (src : Option ι) (s : ι) (q : Nat) : next P st r = some (.recv src) → FromOk src s →
      Sent P st s q r → P.tag q r = P.tag (st.phase r) r → ¬ Took st r s q → Step P st (st.take r s q)
end Steps

/-- Only the plan's ranks act, and each rank receives in a phase as many
messages as are sent to it. -/
structure Balanced [DecidableEq ι] (P : Plan ι κ) : Prop where
  idle : ∀ q r, r ∉ P.ranks → P.acts q r = []
  recvs_eq : ∀ q, ∀ r ∈ P.ranks, recvs (P.acts q r) = (P.ranks.filter (.send r ∈ P.acts q ·)).card

theorem Balanced.mem_ranks [DecidableEq ι] {P : Plan ι κ} (hB : Balanced P) {q : Nat} {r : ι} {a : Act ι}
    (h : a ∈ P.acts q r) : r ∈ P.ranks := by
  by_contra hn
  rw [hB.idle q r hn] at h
  cases h

/-- What holds in every state, whatever the receives take. -/
structure Inv (P : Plan ι κ) (st : St ι) : Prop where
  bound : ∀ r, st.done r ≤ (P.acts (st.phase r) r).length
  uniq : ∀ r, ((st.took r).map fun t => (t.src, t.phase)).Nodup
  sent : ∀ r, ∀ t ∈ st.took r, Sent P st t.src t.phase r
  count : ∀ r q, (st.took r).countP (·.during = q) = recvs (doneActs P st q r)

/-- The receives of the phases in `Z` took messages of their own phase. -/
def Exact (Z : Nat → Prop) (st : St ι) : Prop := ∀ r, ∀ t ∈ st.took r, Z t.during → t.phase = t.during

/-! ## What a step changes -/

section
variable {P : Plan ι κ} {st : St ι} {r s : ι} {q : Nat}

theorem doneActs_of_lt (h : q < st.phase r) : doneActs P st q r = P.acts q r := if_pos h

theorem doneActs_cur : doneActs P st (st.phase r) r = (P.acts (st.phase r) r).take (st.done r) := by
  simp [doneActs]

theorem phase_of_mem {a : Act ι} (h : a ∈ doneActs P st q r) : q ≤ st.phase r ∧ a ∈ P.acts q r := by
  unfold doneActs at h
  split at h
  · exact ⟨by omega, h⟩
  · split at h
    · exact ⟨by omega, List.mem_of_mem_take h⟩
    · cases h

variable [DecidableEq ι]

theorem doneActs_tick (hd : st.done r = (P.acts (st.phase r) r).length) (q : Nat) (s : ι) :
    doneActs P (st.tick r) q s = doneActs P st q s := by
  by_cases hs : s = r
  · subst hs
    unfold doneActs
    simp only [St.tick, Function.update_self]
    -- the finished phase is now past, and of the new one nothing is done
    rcases Nat.lt_trichotomy q (st.phase s) with h | h | h
    · simp [h, Nat.lt_succ_of_lt h]
    · subst h; simp [hd]
    · simp [show ¬ q < st.phase s + 1 by omega, show ¬ q < st.phase s by omega, show q ≠ st.phase s by omega]
  · simp [doneActs, St.tick, Function.update_of_ne hs]

theorem doneActs_act {a : Act ι} (ha : next P st r = some a) (q : Nat) (s : ι) :
    doneActs P (st.act r) q s =
      if s = r ∧ q = st.phase r then doneActs P st q s ++ [a] else doneActs P st q s := by
  by_cases hs : s = r
  · subst hs
    by_cases hq : q = st.phase s
    · subst hq
      simp only [doneActs, St.act, Function.update_self, lt_irrefl, if_false, if_true, and_self]
      rw [List.take_add_one, show (P.acts (st.phase s) s)[st.done s]? = some a from ha, Option.toList_some]
    · simp [doneActs, St.act, hq]
  · simp [doneActs, St.act, hs]

theorem doneActs_take {a : Act ι} {x : ι} {k : Nat} (ha : next P st r = some a) (q : Nat) (s : ι) :
    doneActs P (st.take r x k) q s =
      if s = r ∧ q = st.phase r then doneActs P st q s ++ [a] else doneActs P st q s :=
  doneActs_act ha q s

/-- A tick and a receive send nothing, a send sends once. -/
theorem sent_tick (hd : st.done r = (P.acts (st.phase r) r).length) {d : ι} :
    Sent P (st.tick r) s q d ↔ Sent P st s q d := by
  rw [Sent, Sent, doneActs_tick hd]

theorem sent_act {d d' : ι} (ha : next P st r = some (.send d')) :
    Sent P (st.act r) s q d ↔ Sent P st s q d ∨ (s = r ∧ q = st.phase r ∧ d = d') := by
  rw [Sent, Sent, doneActs_act ha]
  split_ifs with h
  · simp [h]
  · constructor
    · exact .inl
    · rintro (hs | ⟨hr, hq, -⟩)
      · exact hs
      · exact absurd ⟨hr, hq⟩ h

theorem sent_take {src : Option ι} {x d : ι} {k : Nat} (ha : next P st r = some (.recv src)) :
    Sent P (st.take r x k) s q d ↔ Sent P st s q d := by
  rw [Sent, Sent, doneActs_take ha]
  split_ifs with h
  · simp
  · rfl

/-- What is done stays done. -/
theorem doneActs_mono {st' : St ι} {a : Act ι} (hs : Step P st st') (h : a ∈ doneActs P st q s) :
    a ∈ doneActs P st' q s := by
  have grow : ∀ {b : Act ι} {r : ι},
      a ∈ if s = r ∧ q = st.phase r then doneActs P st q s ++ [b] else doneActs P st q s := by
    intro b r
    split
    · exact List.mem_append_left _ h
    · exact h
  cases hs with
  | tick r hd => rw [doneActs_tick hd]; exact h
  | send r d ha => rw [doneActs_act ha]; exact grow
  | recv r src x k ha => rw [doneActs_take ha]; exact grow

end

/-! ## The invariant -/

section
variable {P : Plan ι κ} {st st' : St ι}

theorem init_inv (h0 : ∀ r, P.acts 0 r = []) : Inv P St.init where
  bound r := by simp [St.init]
  uniq r := by simp [St.init]
  sent r := by simp [St.init]
  count r q := by
    unfold doneActs
    rcases Nat.eq_zero_or_pos q with rfl | hq
    · simp [St.init, h0, recvs]
    · simp [St.init, recvs, show q ≠ 0 by omega]

theorem next_lt {r : ι} {a : Act ι} (h : next P st r = some a) : st.done r < (P.acts (st.phase r) r).length := by
  obtain ⟨h, -⟩ := List.getElem?_eq_some_iff.1 h
  exact h

variable [DecidableEq ι]

theorem bound_act (hi : Inv P st) {r : ι} {a : Act ι} (ha : next P st r = some a) (s : ι) :
    (st.act r).done s ≤ (P.acts ((st.act r).phase s) s).length := by
  by_cases hs : s = r
  · subst hs; simpa [St.act] using Nat.succ_le_of_lt (next_lt ha)
  · simpa [St.act, hs] using hi.bound s

theorem inv_step (hs : Step P st st') (hi : Inv P st) : Inv P st' := by
  have hmono : ∀ r, ∀ t ∈ st.took r, Sent P st' t.src t.phase r :=
    fun r t ht => doneActs_mono hs (hi.sent r t ht)
  cases hs with
  | tick r hd =>
    refine ⟨fun s => ?_, hi.uniq, hmono, fun s q => ?_⟩
    · by_cases hs : s = r
      · subst hs; simp [St.tick]
      · simpa [St.tick, hs] using hi.bound s
    · rw [doneActs_tick hd]; exact hi.count s q
  | send r d ha =>
    refine ⟨bound_act hi ha, hi.uniq, hmono, fun s q => ?_⟩
    rw [doneActs_act ha]
    split
    · rename_i h
      simp only [recvs, List.countP_append, List.countP_singleton, Act.isRecv]
      exact hi.count s q
    · exact hi.count s q
  | recv r src x k ha hf hsent htag hnot =>
    refine ⟨bound_act hi ha, fun s => ?_, fun s t ht => ?_, fun s q => ?_⟩
    · by_cases hs : s = r
      · subst hs
        simp only [St.take, Function.update_self, List.map_append, List.map_cons, List.map_nil]
        refine List.nodup_append.2 ⟨hi.uniq s, by simp, ?_⟩
        rintro _ hy _ hz rfl
        obtain ⟨t, ht, he⟩ := List.mem_map.1 hy
        simp only [List.mem_singleton] at hz
        rw [hz, Prod.mk.injEq] at he
        exact hnot ⟨t, ht, he⟩
      · simpa [St.take, hs] using hi.uniq s
    · by_cases hs : s = r
      · subst hs
        simp only [St.take, Function.update_self, List.mem_append, List.mem_singleton] at ht
        rcases ht with ht | rfl
        · exact hmono s t ht
        · exact doneActs_mono (.recv s src x k ha hf hsent htag hnot) hsent
      · simp only [St.take, Function.update_of_ne hs] at ht
        exact hmono s t ht
    · rw [doneActs_take ha]
      by_cases hs : s = r
      · subst hs
        simp only [St.take, Function.update_self, List.countP_append, List.countP_singleton]
        by_cases hq : q = st.phase s
        · subst hq
          simp only [and_self, if_true, recvs, List.countP_append, List.countP_singleton, Act.isRecv,
            decide_true, hi.count s (st.phase s)]
        · simp only [hq, and_false, if_false, show st.phase s ≠ q from fun e => hq e.symm, decide_false,
            Bool.false_eq_true, Nat.add_zero]
          exact hi.count s q
      · simpa [St.take, hs] using hi.count s q

/-! ## A rank past a phase took all of it -/

/-- The ranks whose messages `r` took in phase `q`, in the order it took them. -/
def tookFrom (st : St ι) (q : Nat) (r : ι) : List ι := ((st.took r).filter (·.during = q)).map (·.src)

/-- If all receives of phase `q` are done and took messages of that phase,
they took one from every rank that sends to `r` in it. -/
theorem tookFrom_senders (hB : Balanced P) (hi : Inv P st) {r : ι} {q : Nat} (hr : r ∈ P.ranks)
    (hx : ∀ t ∈ st.took r, t.during = q → t.phase = q)
    (hd : recvs (doneActs P st q r) = recvs (P.acts q r)) :
    (tookFrom st q r).Nodup ∧ (tookFrom st q r).toFinset = P.ranks.filter (.send r ∈ P.acts q ·) := by
  let L := (st.took r).filter (·.during = q)
  have hL : ∀ t ∈ L, t ∈ st.took r ∧ t.phase = q := fun t ht => by
    obtain ⟨h1, h2⟩ := List.mem_filter.1 ht
    exact ⟨h1, hx t h1 (by simpa using h2)⟩
  have hnd : (tookFrom st q r).Nodup := by
    have h1 : (L.map fun t => (t.src, t.phase)).Nodup := (hi.uniq r).sublist (List.filter_sublist.map _)
    have h2 : (L.map fun t => (t.src, t.phase)) = (tookFrom st q r).map (fun x => (x, q)) := by
      rw [tookFrom, List.map_map]
      exact List.map_congr_left (fun t ht => by simp [(hL t ht).2])
    rw [h2] at h1
    exact h1.of_map
  refine ⟨hnd, Finset.eq_of_subset_of_card_le ?_ ?_⟩
  · intro x hx
    obtain ⟨t, ht, rfl⟩ := List.mem_map.1 (List.mem_toFinset.1 hx)
    obtain ⟨h1, h2⟩ := hL t ht
    have h3 := (phase_of_mem (hi.sent r t h1)).2
    rw [h2] at h3
    exact Finset.mem_filter.2 ⟨hB.mem_ranks h3, h3⟩
  · rw [List.toFinset_card_of_nodup hnd, tookFrom, List.length_map, ← hB.recvs_eq q r hr, ← hd,
      ← hi.count r q, List.countP_eq_length_filter]

theorem took_all (hB : Balanced P) (hi : Inv P st) {r : ι} {q : Nat} (hr : r ∈ P.ranks)
    (hx : ∀ t ∈ st.took r, t.during = q → t.phase = q)
    (hd : recvs (doneActs P st q r) = recvs (P.acts q r)) {s : ι} (hs : .send r ∈ P.acts q s) :
    Took st r s q := by
  have hmem : s ∈ (tookFrom st q r).toFinset := by
    rw [(tookFrom_senders hB hi hr hx hd).2]
    exact Finset.mem_filter.2 ⟨hB.mem_ranks hs, hs⟩
  obtain ⟨t, ht, he⟩ := List.mem_map.1 (List.mem_toFinset.1 hmem)
  obtain ⟨h1, h2⟩ := List.mem_filter.1 ht
  exact ⟨t, h1, he, hx t h1 (by simpa using h2)⟩

theorem took_past (hB : Balanced P) (hi : Inv P st) {Z : Nat → Prop} (hE : Exact Z st) {r s : ι} {q : Nat}
    (hr : r ∈ P.ranks) (hZ : Z q) (hq : q < st.phase r) (hs : .send r ∈ P.acts q s) : Took st r s q :=
  took_all hB hi hr (fun t ht hd => by rw [hE r t ht (hd ▸ hZ), hd]) (by rw [doneActs_of_lt hq]) hs

/-- A receive takes a message of its own phase if no other phase it could
come from is possible. -/
theorem exact_recv {Z : Nat → Prop} (hE : Exact Z st) {r s : ι} {q : Nat}
    (h : Z (st.phase r) → q = st.phase r) : Exact Z (st.take r s q) := by
  intro x t ht hz
  by_cases hx : x = r
  · subst hx
    simp only [St.take, Function.update_self, List.mem_append, List.mem_singleton] at ht
    rcases ht with ht | rfl
    · exact hE x t ht hz
    · exact h hz
  · simp only [St.take, Function.update_of_ne hx] at ht
    exact hE x t ht hz

/-! ## Bounded lead -/

/-- Phases whose messages for `r` could be confused are at least `W` apart. -/
def Apart (P : Plan ι κ) (W : Nat) : Prop :=
  ∀ q q' r src s, .recv src ∈ P.acts q r → .send r ∈ P.acts q' s → P.tag q' r = P.tag q r →
    q' = q ∨ q + W ≤ q' ∨ q' + W ≤ q

/-- No rank about to receive has a message from `W` or more phases ahead. -/
def Near (P : Plan ι κ) (W : Nat) (st : St ι) : Prop :=
  ∀ r src s q, next P st r = some (.recv src) → Sent P st s q r → q < st.phase r + W

theorem exact_step (hB : Balanced P) {W : Nat} (hW : 0 < W) (hA : Apart P W) (hi : Inv P st)
    (hE : Exact (fun _ => True) st) (hL : Near P W st) (hs : Step P st st') : Exact (fun _ => True) st' := by
  cases hs with
  | tick r hd => exact hE
  | send r d ha => exact hE
  | recv r src s q ha hf hsent htag hnot =>
    refine exact_recv hE fun _ => ?_
    have hrecv : Act.recv src ∈ P.acts (st.phase r) r := List.mem_of_getElem? ha
    have hr : r ∈ P.ranks := hB.mem_ranks hrecv
    obtain ⟨hle, hsend⟩ := phase_of_mem hsent
    rcases hA _ q r src s hrecv hsend htag with h | h | h
    · exact h
    · have := hL r src s q ha hsent
      omega
    · -- an earlier phase: `r` took that message when it was there
      exact absurd (took_past hB hi hE hr trivial (by omega) hsend) hnot

end

/-! ## Gathering and spreading -/

/-- Phase `q` gathers at `h` what all other ranks send, and the next one spreads
what `h` sends. -/
structure Relay (P : Plan ι κ) (h : ι) (q : Nat) : Prop where
  mem : h ∈ P.ranks
  gather : ∀ r ∈ P.ranks, r ≠ h → .send h ∈ P.acts q r
  spread : ∀ r ∈ P.ranks, r ≠ h → .send r ∈ P.acts (q + 1) h
  only : ∀ s d, .send d ∈ P.acts (q + 1) s → s = h

/-- When a rank is past the second phase, or has sent in it, `h` is past the
first and all have entered that. -/
theorem relay_all [DecidableEq ι] {P : Plan ι κ} {st : St ι} (hB : Balanced P) (hi : Inv P st)
    (hE : Exact (fun _ => True) st) {h : ι} {q : Nat} (hR : Relay P h q) {x : ι} (hx : x ∈ P.ranks)
    (hpast : q + 1 < st.phase x ∨ ∃ d, Sent P st x (q + 1) d) :
    q < st.phase h ∧ ∀ s ∈ P.ranks, q ≤ st.phase s := by
  have hh : q + 1 ≤ st.phase h := by
    by_cases hxh : x = h
    · subst hxh
      rcases hpast with h1 | ⟨d, h1⟩
      · omega
      · exact (phase_of_mem h1).1
    · rcases hpast with h1 | ⟨d, h1⟩
      · obtain ⟨t, ht, rfl, hp⟩ := took_past hB hi hE hx trivial h1 (hR.spread x hx hxh)
        exact (phase_of_mem (hp ▸ hi.sent x t ht)).1
      · exact absurd (hR.only x d (phase_of_mem h1).2) hxh
  refine ⟨by omega, fun s hs => ?_⟩
  by_cases hsh : s = h
  · subst hsh; omega
  · obtain ⟨t, ht, rfl, hp⟩ := took_past hB hi hE hR.mem trivial (by omega) (hR.gather s hs hsh)
    exact (phase_of_mem (hp ▸ hi.sent h t ht)).1

/-! ## Phases through a hub -/

section
variable {P : Plan ι κ} {st st' : St ι}

/-- In the phases `Z` every other rank reports to the hub `h` and waits for its
answer; the hub answers when all have reported. No other phase has the tags
of such a phase. -/
structure Hub (P : Plan ι κ) (h : ι) (Z : Nat → Prop) : Prop where
  mem : h ∈ P.ranks
  gather : ∀ q, Z q → ∃ (n : Nat) (ds : List ι), P.acts q h = List.replicate n (.recv none) ++ ds.map .send
  release : ∀ q, Z q → ∀ r ∈ P.ranks, r ≠ h → .send r ∈ P.acts q h
  spoke : ∀ q, Z q → ∀ r ∈ P.ranks, r ≠ h → P.acts q r = [.send h, .recv (some h)]
  tag : ∀ q q' r s, Z q → .send r ∈ P.acts q' s → P.tag q' r = P.tag q r → Z q'

variable {h : ι} {Z : Nat → Prop}

/-- A hub that is still receiving has answered nobody. -/
theorem hub_silent (hH : Hub P h Z) {q : Nat} (hq : Z q) {k : Nat} {src : Option ι}
    (hk : (P.acts q h)[k]? = some (.recv src)) (r : ι) : .send r ∉ (P.acts q h).take k := by
  obtain ⟨n, ds, he⟩ := hH.gather q hq
  rw [he] at hk ⊢
  have hkn : k < n := by
    by_contra hn
    rw [List.getElem?_append_right (by simpa using hn)] at hk
    simp at hk
  rw [List.take_append_of_le_length (by simp; omega)]
  intro hm
  have := List.mem_of_mem_take hm
  simp at this

/-- A hub that has answered somebody has received from all. -/
theorem hub_gathered (hH : Hub P h Z) {q : Nat} (hq : Z q) {k : Nat} {r : ι}
    (hk : .send r ∈ (P.acts q h).take k) : recvs ((P.acts q h).take k) = recvs (P.acts q h) := by
  obtain ⟨n, ds, he⟩ := hH.gather q hq
  rw [he] at hk ⊢
  have hsends : ∀ l : List ι, recvs (l.map Act.send) = 0 := fun l => by
    simp [recvs, List.countP_eq_zero, Act.isRecv]
  have hkn : n ≤ k := by
    by_contra hn
    rw [List.take_append_of_le_length (by simp; omega)] at hk
    simpa using List.mem_of_mem_take hk
  have h1 : (List.replicate n (Act.recv (none : Option ι)) ++ ds.map Act.send).take k =
      List.replicate n (.recv none) ++ (ds.take (k - n)).map .send := by
    rw [List.take_append, List.take_of_length_le (by simpa using hkn)]
    simp [List.map_take]
  rw [h1]
  simp only [recvs, List.countP_append] at hsends ⊢
  rw [hsends, hsends]

variable [DecidableEq ι]

theorem hub_took (hB : Balanced P) (hH : Hub P h Z) (hi : Inv P st) (hE : Exact Z st) {q : Nat} (hq : Z q)
    {r s : ι} (hsent : Sent P st h q r) (hs : s ∈ P.ranks) (hne : s ≠ h) : Sent P st s q h := by
  have hd : recvs (doneActs P st q h) = recvs (P.acts q h) := by
    rcases Nat.lt_or_eq_of_le (phase_of_mem hsent).1 with hlt | rfl
    · rw [doneActs_of_lt hlt]
    · rw [Sent, doneActs_cur] at hsent
      rw [doneActs_cur]
      exact hub_gathered hH hq hsent
  obtain ⟨t, ht, rfl, hp⟩ := took_all hB hi hH.mem (fun t ht hd => by rw [hE h t ht (hd ▸ hq), hd]) hd
    (s := s) (by rw [hH.spoke q hq s hs hne]; simp)
  exact hp ▸ hi.sent h t ht

theorem exact_hub (hB : Balanced P) (hH : Hub P h Z) (hi : Inv P st) (hE : Exact Z st) (hs : Step P st st') :
    Exact Z st' := by
  cases hs with
  | tick r hd => exact hE
  | send r d ha => exact hE
  | recv r src s q ha hf hsent htag hnot =>
    refine exact_recv hE fun hZ => ?_
    have hrecv : Act.recv src ∈ P.acts (st.phase r) r := List.mem_of_getElem? ha
    have hr : r ∈ P.ranks := hB.mem_ranks hrecv
    obtain ⟨hle, hsend⟩ := phase_of_mem hsent
    have hsr : s ∈ P.ranks := hB.mem_ranks hsend
    have hZq : Z q := hH.tag _ q r s hZ hsend htag
    rcases Nat.lt_trichotomy q (st.phase r) with hlt | heq | hgt
    · exact absurd (took_past hB hi hE hr hZq hlt hsend) hnot
    · exact heq
    · exfalso
      by_cases hrh : r = h
      · subst hrh
        have hsh : s ≠ r := by
          rintro rfl
          omega
        -- `s` is past this phase, so the hub has answered it; but the hub is still receiving
        have hpast : st.phase r < st.phase s := by omega
        obtain ⟨t, ht, rfl, hp⟩ := took_past hB hi hE hsr hZ hpast (hH.release _ hZ s hsr hsh)
        have h1 := hi.sent s t ht
        rw [hp, Sent, doneActs_cur] at h1
        exact hub_silent hH hZ ha s h1
      · -- the hub sent in a later phase, so `r` has reported in that phase
        have hsh : s = h := by
          by_contra hne
          rw [hH.spoke q hZq s hsr hne] at hsend
          simp at hsend
          exact hrh hsend
        subst hsh
        have h1 := hub_took hB hH hi hE hZq hsent hr hrh
        have := (phase_of_mem h1).1
        omega

/-- A rank that has done its acts of a hub phase knows every rank has entered it. -/
theorem hub_all (hB : Balanced P) (hH : Hub P h Z) (hi : Inv P st) (hE : Exact Z st) {q : Nat} (hq : Z q)
    {r : ι} (hr : r ∈ P.ranks) (hle : q ≤ st.phase r) (hd : doneActs P st q r = P.acts q r) {s : ι}
    (hs : s ∈ P.ranks) : q ≤ st.phase s := by
  have hub : ∀ x, Sent P st h q x → q ≤ st.phase s := fun x hx => by
    by_cases hsh : s = h
    · exact hsh ▸ (phase_of_mem hx).1
    · exact (phase_of_mem (hub_took hB hH hi hE hq hx hs hsh)).1
  by_cases hrh : r = h
  · subst hrh
    by_cases hsr : s = r
    · exact hsr ▸ hle
    · exact hub s (by rw [Sent, hd]; exact hH.release q hq s hs hsr)
  · obtain ⟨t, ht, rfl, hp⟩ := took_all hB hi hr (fun t ht hd => by rw [hE r t ht (hd ▸ hq), hd])
      (by rw [hd]) (hH.release q hq r hr hrh)
    exact hub r (hp ▸ hi.sent r t ht)

end

/-! ## Progress -/

/-- `r` can go on: it is done with its phase and not with all, or is about to
send, or can receive a message of some rank. -/
def Enabled (P : Plan ι κ) (N : Nat) (st : St ι) (r : ι) : Prop :=
  (next P st r = none ∧ st.phase r < N) ∨ (∃ d, next P st r = some (.send d)) ∨
    ∃ src s, next P st r = some (.recv src) ∧ FromOk src s ∧ Sent P st s (st.phase r) r ∧
      ¬ Took st r s (st.phase r)

/-- `r` is done with all `N` phases. -/
def Finished (P : Plan ι κ) (N : Nat) (st : St ι) (r : ι) : Prop := st.phase r = N ∧ next P st r = none

/-- Acts can be ranked so that along each rank's list the level never falls
and a message is sent at a lower level than it is received. -/
structure Leveled (P : Plan ι κ) (level : Nat → ι → Nat → Nat) : Prop where
  mono : ∀ q r i j, i ≤ j → j < (P.acts q r).length → level q r i ≤ level q r j
  lt : ∀ q s r i j src, (P.acts q s)[j]? = some (.send r) → (P.acts q r)[i]? = some (.recv src) →
    level q s j < level q r i
  src : ∀ q s r x, .recv (some x) ∈ P.acts q r → .send r ∈ P.acts q s → s = x

section
variable {P : Plan ι κ} {st : St ι} [DecidableEq ι]

/-- A rank waiting in phase `q` waits for some rank whose message of that phase
it has not taken. -/
theorem missing (hB : Balanced P) (hi : Inv P st) (hE : Exact (fun _ => True) st) {r : ι} (hr : r ∈ P.ranks)
    {src : Option ι} (hn : next P st r = some (.recv src)) :
    ∃ s ∈ P.ranks, .send r ∈ P.acts (st.phase r) s ∧ ¬ Took st r s (st.phase r) := by
  by_contra hc
  push Not at hc
  have hall : P.ranks.filter (.send r ∈ P.acts (st.phase r) ·) ⊆
      (((st.took r).filter (·.during = st.phase r)).map (·.src)).toFinset := by
    intro s hs
    obtain ⟨hs1, hs2⟩ := Finset.mem_filter.1 hs
    obtain ⟨t, ht, rfl, hp⟩ := hc s hs1 hs2
    refine List.mem_toFinset.2 (List.mem_map.2 ⟨t, List.mem_filter.2 ⟨ht, ?_⟩, rfl⟩)
    rw [← hE r t ht trivial, hp]
    simp
  have h1 := Finset.card_le_card hall
  rw [← hB.recvs_eq _ r hr] at h1
  have h2 := List.toFinset_card_le (((st.took r).filter (·.during = st.phase r)).map (·.src))
  rw [List.length_map, ← List.countP_eq_length_filter, hi.count, doneActs_cur] at h2
  -- the receive `r` waits in is not among those it has done
  have h3 : recvs ((P.acts (st.phase r) r).take (st.done r)) < recvs (P.acts (st.phase r) r) := by
    obtain ⟨hlt, he⟩ := List.getElem?_eq_some_iff.1 hn
    have h4 := List.take_append_drop (st.done r) (P.acts (st.phase r) r)
    have h5 : recvs (P.acts (st.phase r) r) = recvs ((P.acts (st.phase r) r).take (st.done r)) +
        recvs ((P.acts (st.phase r) r).drop (st.done r)) := by
      rw [recvs, recvs, recvs, ← List.countP_append, h4]
    have h6 : 0 < recvs ((P.acts (st.phase r) r).drop (st.done r)) := by
      rw [List.drop_eq_getElem_cons hlt, he]
      simp [recvs, Act.isRecv]
    omega
  omega

/-- While every receive took a message of its own phase, some rank can go on
until all have finished. -/
theorem progress (hB : Balanced P) {level : Nat → ι → Nat → Nat} (hL : Leveled P level) {N : Nat}
    (hi : Inv P st) (hE : Exact (fun _ => True) st) (hN : ∀ r ∈ P.ranks, st.phase r ≤ N) :
    (∀ r ∈ P.ranks, Finished P N st r) ∨ ∃ r ∈ P.ranks, Enabled P N st r := by
  by_contra hc
  push Not at hc
  obtain ⟨⟨r0, hr0, hf0⟩, hstuck⟩ := hc
  -- every unfinished rank waits in a receive; take the one at the least phase and level
  let U := P.ranks.filter (fun r => (next P st r).isSome)
  have hU : ∀ r ∈ P.ranks, ¬ Finished P N st r → r ∈ U := by
    intro r hr hf
    refine Finset.mem_filter.2 ⟨hr, ?_⟩
    by_contra hn
    have hnone : next P st r = none := by simpa using hn
    have := hN r hr
    refine hstuck r hr (.inl ⟨hnone, ?_⟩)
    have : st.phase r ≠ N := fun e => hf ⟨e, hnone⟩
    omega
  obtain ⟨r, hrU, hmin⟩ := Finset.exists_min_image U
    (fun r => toLex (st.phase r, level (st.phase r) r (st.done r))) ⟨r0, hU r0 hr0 hf0⟩
  obtain ⟨hr, hsome⟩ := Finset.mem_filter.1 hrU
  obtain ⟨a, ha⟩ := Option.isSome_iff_exists.1 hsome
  cases a with
  | send d => exact hstuck r hr (.inr (.inl ⟨d, ha⟩))
  | recv src =>
    obtain ⟨s, hs, hsend, hnot⟩ := missing hB hi hE hr ha
    have hfrom : FromOk src s := by
      cases src with
      | none => exact .inl rfl
      | some x => exact .inr (by rw [hL.src _ s r x (List.mem_of_getElem? ha) hsend])
    have hns : ¬ Sent P st s (st.phase r) r := fun h => hstuck r hr (.inr (.inr ⟨src, s, ha, hfrom, h, hnot⟩))
    obtain ⟨j, hj, hje⟩ := List.mem_iff_getElem.1 hsend
    have hjq : (P.acts (st.phase r) s)[j]? = some (.send r) := by rw [List.getElem?_eq_getElem hj, hje]
    rcases Nat.lt_trichotomy (st.phase s) (st.phase r) with hlt | heq | hgt
    · have hsU := hU s hs (fun hf => by have := hN r hr; have := hf.1; omega)
      have := hmin s hsU
      rw [Prod.Lex.toLex_le_toLex] at this
      omega
    · -- `s` is in the same phase, at or before the send that is missing
      have hdj : st.done s ≤ j := by
        by_contra hlt
        refine hns ?_
        rw [Sent, ← heq, doneActs_cur, heq]
        exact List.mem_of_getElem? ((List.getElem?_take_of_lt (Nat.lt_of_not_le hlt)).trans hjq)
      have hsU : s ∈ U := by
        refine Finset.mem_filter.2 ⟨hs, ?_⟩
        rw [next, heq, List.getElem?_eq_getElem (by omega)]
        rfl
      have h1 := hmin s hsU
      have h2 := hL.mono (st.phase r) s _ j hdj hj
      have h3 := hL.lt (st.phase r) s r (st.done r) j src hjq ha
      rw [Prod.Lex.toLex_le_toLex, heq] at h1
      omega
    · exact hns (by rw [Sent, doneActs_of_lt hgt]; exact hsend)

end

end LibNeoos.Lib.Phased
