import LibNeoos.Mpi.Contract
import Mathlib.Data.Finset.Range
/-!
# The plan of a sequence of collectives

The phases of a sequence of collectives are a `Phased.Plan`: who sends to whom
in each, and under which tag. Its receives match its sends (`plan_balanced`),
phases with one tag are `2^24` apart (`plan_apart`), barriers go through rank 0
(`plan_hub`) and no phase waits for itself (`plan_leveled`).
-/

namespace LibNeoos.Mpi

open LibNeoos.Lib.Phased

/-- Phase `q` of a sequence; the first one has number 1. -/
def elemAt (es : List Elem) : Nat → Elem
  | 0 => .void
  | q + 1 => es[q]?.getD .void

def plan (n : Nat) (es : List Elem) : Plan Nat Int where
  ranks := Finset.range n
  acts q r := if r < n then (elemAt es q).acts n r else []
  tag q r := coll_tag ((elemAt es q).base r) q

/-- The root of the phase is a rank. -/
def Elem.Rooted (n : Nat) : Elem → Prop
  | .bcast root _ => root < n
  | .reduce root _ => root < n
  | _ => True

/-- `s` sends to `d` in the phase. -/
def Elem.Link (n s d : Nat) : Elem → Prop
  | .barrier => (s = 0 ∧ 1 ≤ d ∧ d < n) ∨ (s ≠ 0 ∧ d = 0)
  | .bcast root _ => s = root ∧ d < n ∧ d ≠ root
  | .reduce root _ => s ≠ root ∧ d = root
  | .void => False

instance (n s d : Nat) : (e : Elem) → Decidable (e.Link n s d)
  | .barrier => inferInstanceAs (Decidable (_ ∨ _))
  | .bcast .. => inferInstanceAs (Decidable (_ ∧ _))
  | .reduce .. => inferInstanceAs (Decidable (_ ∧ _))
  | .void => inferInstanceAs (Decidable False)

/-! ## Phases -/

section
variable {n r s d : Nat} {e : Elem} {es : List Elem} {q : Nat}

theorem mem_acts_send : .send d ∈ e.acts n s ↔ e.Link n s d := by
  cases e with
  | barrier =>
    by_cases h : s = 0
    · simp [Elem.acts, Elem.Link, h]
      omega
    · simp [Elem.acts, Elem.Link, h]
  | bcast root len => by_cases h : s = root <;> simp [Elem.acts, Elem.Link, h]
  | reduce root len => by_cases h : s = root <;> simp [Elem.acts, Elem.Link, h]
  | void => simp [Elem.acts, Elem.Link]

/-- Nobody sends to itself. -/
theorem Elem.Link.ne (h : e.Link n s d) : s ≠ d := by
  cases e <;> simp only [Elem.Link] at h <;> omega

theorem recvs_replicate (k : Nat) (l : List Nat) :
    recvs (List.replicate k (Act.recv (none : Option Nat)) ++ l.map .send) = k := by
  have h : (l.map Act.send).countP Act.isRecv = 0 := by simp [List.countP_eq_zero, Act.isRecv]
  rw [recvs, List.countP_append, h]
  simp [List.countP_replicate, Act.isRecv]

/-- A rank receives as many messages as are sent to it. -/
theorem acts_balanced (he : e.Rooted n) (hr : r < n) :
    recvs (e.acts n r) = ((Finset.range n).filter (e.Link n · r)).card := by
  have hall : ∀ {root}, root < n → (∀ s, e.Link n s r ↔ s ≠ root) →
      ((Finset.range n).filter (e.Link n · r)).card = n - 1 := by
    intro root hroot h
    rw [Finset.filter_congr fun s _ => h s, Finset.filter_ne', Finset.card_erase_of_mem (Finset.mem_range.2 hroot),
      Finset.card_range]
  have hone : ∀ {root}, root < n → (∀ s, e.Link n s r ↔ s = root) →
      ((Finset.range n).filter (e.Link n · r)).card = 1 := by
    intro root hroot h
    rw [Finset.filter_congr fun s _ => h s, Finset.filter_eq', if_pos (Finset.mem_range.2 hroot), Finset.card_singleton]
  have hnone : (∀ s, ¬ e.Link n s r) → ((Finset.range n).filter (e.Link n · r)).card = 0 := fun h => by
    rw [Finset.filter_eq_empty_iff.2 fun s _ => h s, Finset.card_empty]
  cases e with
  | barrier =>
    by_cases h : r = 0
    · rw [hall hr fun s => by simp only [Elem.Link]; omega]
      simp only [Elem.acts, h, if_true, recvs_replicate]
    · rw [hone (show 0 < n by omega) fun s => by simp only [Elem.Link]; omega]
      simp only [Elem.acts, h, if_false]
      rfl
  | bcast root len =>
    by_cases h : r = root
    · rw [hnone fun s => by simp only [Elem.Link]; omega]
      simpa [Elem.acts, h] using recvs_replicate 0 ((List.range n).filter (· ≠ root))
    · rw [hone he fun s => by simp only [Elem.Link]; omega]
      simp only [Elem.acts, h, if_false]
      rfl
  | reduce root len =>
    by_cases h : r = root
    · rw [hall he fun s => by simp only [Elem.Link]; omega]
      simpa [Elem.acts, h] using recvs_replicate (n - 1) []
    · rw [hnone fun s => by simp only [Elem.Link]; omega]
      simp only [Elem.acts, h, if_false]
      rfl
  | void =>
    rw [hnone fun s => by simp [Elem.Link]]
    rfl

theorem elemAt_rooted (h : ∀ e ∈ es, e.Rooted n) (q : Nat) : (elemAt es q).Rooted n := by
  cases q with
  | zero => trivial
  | succ q =>
    show (es[q]?.getD .void).Rooted n
    cases hq : es[q]? with
    | none => trivial
    | some e => exact h e (List.mem_of_getElem? hq)

theorem plan_acts (hr : r < n) : (plan n es).acts q r = (elemAt es q).acts n r := if_pos hr

theorem mem_plan_send : .send d ∈ (plan n es).acts q s ↔ s < n ∧ (elemAt es q).Link n s d := by
  by_cases hs : s < n
  · simp [plan_acts hs, mem_acts_send, hs]
  · simp [plan, hs]

theorem plan_balanced (h : ∀ e ∈ es, e.Rooted n) : Balanced (plan n es) where
  idle q r hr := if_neg (by simpa [plan] using hr)
  recvs_eq q r hr := by
    have hr' : r < n := by simpa [plan] using hr
    rw [plan_acts hr', acts_balanced (elemAt_rooted h q) hr']
    refine congrArg _ (Finset.filter_congr fun s hs => ?_)
    rw [mem_plan_send]
    simp [show s < n by simpa using hs]

/-! ## Tags -/

theorem base_range (h : e.Link n s r) : 1 ≤ e.base r ∧ e.base r ≤ 4 := by
  cases e with
  | barrier => by_cases hr : r = 0 <;> simp [Elem.base, hr]
  | bcast => simp [Elem.base]
  | reduce => simp [Elem.base]
  | void => exact h.elim

theorem base_recv {src : Option Nat} (h : .recv src ∈ e.acts n r) : 1 ≤ e.base r ∧ e.base r ≤ 4 := by
  cases e with
  | barrier => by_cases hr : r = 0 <;> simp [Elem.base, hr]
  | bcast => simp [Elem.base]
  | reduce => simp [Elem.base]
  | void => simp [Elem.acts] at h

/-- A tag tells the operation, and the number of the phase up to `2^24`. -/
theorem coll_tag_inj {b b' q q' : Nat} (hb : b ≤ 4) (hb' : b' ≤ 4) (h : coll_tag b q = coll_tag b' q') :
    b = b' ∧ q % 2 ^ 24 = q' % 2 ^ 24 := by
  rw [coll_tag_eq b q (by omega), coll_tag_eq b' q' (by omega)] at h
  have h1 : q % 2 ^ 24 < 2 ^ 24 := Nat.mod_lt _ (by norm_num)
  have h2 : q' % 2 ^ 24 < 2 ^ 24 := Nat.mod_lt _ (by norm_num)
  generalize q % 2 ^ 24 = x at *
  generalize q' % 2 ^ 24 = y at *
  omega

theorem plan_apart : Apart (plan n es) (2 ^ 24) := by
  intro q q' r src s hrecv hsend htag
  have hr : r < n := by
    by_contra hr
    simp [plan, hr] at hrecv
  rw [plan_acts hr] at hrecv
  have h1 := base_recv hrecv
  have h2 := base_range (mem_plan_send.1 hsend).2
  have h3 := (coll_tag_inj h2.2 h1.2 htag).2
  omega

/-! ## Barriers -/

theorem plan_hub (hn : 0 < n) : Hub (plan n es) 0 (fun q => elemAt es q = .barrier) where
  mem := by simpa [plan] using hn
  gather q hq := ⟨n - 1, List.range' 1 (n - 1), by rw [plan_acts hn, hq]; simp [Elem.acts]⟩
  release q hq r hr h0 := by
    have hr' : r < n := by simpa [plan] using hr
    rw [mem_plan_send, hq]
    exact ⟨hn, .inl ⟨rfl, by omega, hr'⟩⟩
  spoke q hq r hr h0 := by
    have hr' : r < n := by simpa [plan] using hr
    rw [plan_acts hr', hq]
    simp [Elem.acts, h0]
  tag q q' r s hq hsend htag := by
    have hlink := (mem_plan_send.1 hsend).2
    have h1 := base_range hlink
    have h2 : (elemAt es q).base r ≤ 4 ∧ (elemAt es q).base r ≤ 2 := by
      rw [hq]
      by_cases hr : r = 0 <;> simp [Elem.base, hr]
    have h3 := (coll_tag_inj h1.2 h2.1 htag).1
    rw [← h3] at h2
    cases he : elemAt es q' with
    | barrier => rfl
    | bcast => simp [he, Elem.base] at h2
    | reduce => simp [he, Elem.base] at h2
    | void => rw [he] at hlink; exact hlink.elim

/-! ## Levels -/

/-- In a barrier the tokens for rank 0 come first, in the other phases the sends. -/
def Elem.level (n r i : Nat) : Elem → Nat
  | .barrier => if r = 0 then (if i < n - 1 then 1 else 2) else (if i = 0 then 0 else 3)
  | .bcast root _ => if r = root then 0 else 1
  | .reduce root _ => if r = root then 1 else 0
  | .void => 0

theorem hub_recv {k i : Nat} {ds : List Nat} {src : Option Nat}
    (h : (List.replicate k (Act.recv none) ++ ds.map .send)[i]? = some (.recv src)) : i < k := by
  by_contra hi
  rw [List.getElem?_append_right (by simpa using hi)] at h
  simp at h

theorem hub_send {k i : Nat} {ds : List Nat}
    (h : (List.replicate k (Act.recv none) ++ ds.map .send)[i]? = some (.send d)) : k ≤ i := by
  by_contra hi
  rw [List.getElem?_append_left (by simpa using hi)] at h
  simp [List.getElem?_replicate] at h

theorem plan_leveled : Leveled (plan n es) fun q r i => (elemAt es q).level n r i where
  mono q r i j hij hj := by
    cases elemAt es q with
    | barrier => simp only [Elem.level]; split_ifs <;> omega
    | _ => exact Nat.le_refl _
  lt q s r i j src hsend hrecv := by
    obtain ⟨hs, hlink⟩ := mem_plan_send.1 (List.mem_of_getElem? hsend)
    have hne := hlink.ne
    have hr : r < n := by
      by_contra hr
      simp [plan, hr] at hrecv
    rw [plan_acts hs] at hsend
    rw [plan_acts hr] at hrecv
    cases he : elemAt es q with rw [he] at hsend hrecv hlink
    | barrier =>
      have hspoke : ∀ {k : Nat} {a : Act Nat}, [Act.send 0, Act.recv (some 0)][k]? = some a →
          (k = 0 ∧ a = .send 0) ∨ (k = 1 ∧ a = .recv (some 0)) := by
        intro k a h
        rcases k with _ | _ | k <;> simp at h <;> simp [h]
      simp only [Elem.acts] at hsend hrecv
      simp only [Elem.level]
      rcases hlink with ⟨rfl, h1, -⟩ | ⟨hs0, rfl⟩
      · -- rank 0 sends when it has all tokens, and is waited for last
        have hr0 : ¬ r = 0 := by omega
        rw [if_pos rfl] at hsend
        rw [if_neg hr0] at hrecv
        have h2 := hub_send hsend
        have h3 : i = 1 := by rcases hspoke hrecv with h | h <;> simp_all
        rw [if_pos rfl, if_neg hr0, if_neg (show ¬ j < n - 1 by omega), if_neg (show ¬ i = 0 by omega)]
        omega
      · rw [if_neg hs0] at hsend
        rw [if_pos rfl] at hrecv
        have h2 := hub_recv hrecv
        have h3 : j = 0 := by rcases hspoke hsend with h | h <;> simp_all
        rw [if_neg hs0, if_pos rfl, if_pos h3, if_pos h2]
        omega
    | bcast root len =>
      obtain ⟨rfl, -, -⟩ := hlink
      simp [Elem.level, Ne.symm hne]
    | reduce root len =>
      obtain ⟨-, rfl⟩ := hlink
      simp [Elem.level, hne]
    | void => exact hlink.elim
  src q s r x hrecv hsend := by
    have hlink := (mem_plan_send.1 hsend).2
    have hr : r < n := by
      by_contra hr
      simp [plan, hr] at hrecv
    rw [plan_acts hr] at hrecv
    cases he : elemAt es q with rw [he] at hlink hrecv
    | barrier =>
      by_cases hr0 : r = 0 <;> simp [Elem.acts, hr0] at hrecv
      rcases hlink with ⟨h1, -⟩ | ⟨-, h1⟩
      · rw [h1, hrecv]
      · exact absurd h1 hr0
    | bcast root len =>
      by_cases hr0 : r = root <;> simp [Elem.acts, hr0] at hrecv
      rw [hlink.1, hrecv]
    | reduce root len => by_cases hr0 : r = root <;> simp [Elem.acts, hr0] at hrecv
    | void => exact hlink.elim

/-! ## Sends of a phase -/

/-- A rank sends to each rank once at most. -/
theorem acts_send_once {i : Nat} (h : (e.acts n s)[i]? = some (.send d)) : .send d ∉ (e.acts n s).take i := by
  have hnd : ((e.acts n s).filter (! ·.isRecv)).Nodup := by
    have hsends : ∀ l : List Nat, l.Nodup → ((l.map Act.send).filter (! ·.isRecv)).Nodup := fun l hl =>
      (hl.map fun a b h => by cases h; rfl).filter _
    cases e with
    | barrier =>
      simp only [Elem.acts]
      split
      · rw [List.filter_append, List.filter_eq_nil_iff.2 (by simp [Act.isRecv]), List.nil_append]
        exact hsends _ List.nodup_range'
      · decide
    | bcast root len =>
      simp only [Elem.acts]
      split
      · exact hsends _ (List.nodup_range.filter _)
      · simp [Act.isRecv]
    | reduce root len =>
      simp only [Elem.acts]
      split
      · rw [List.filter_eq_nil_iff.2 (by simp [Act.isRecv])]
        exact List.nodup_nil
      · simp [Act.isRecv]
    | void => simp [Elem.acts]
  intro hmem
  obtain ⟨hi, he⟩ := List.getElem?_eq_some_iff.1 h
  rw [← List.take_append_drop i (e.acts n s), List.drop_eq_getElem_cons hi, he, List.filter_append] at hnd
  refine (List.disjoint_of_nodup_append hnd) (List.mem_filter.2 ⟨hmem, rfl⟩) (List.mem_filter.2 ⟨by simp, rfl⟩)

end

end LibNeoos.Mpi
