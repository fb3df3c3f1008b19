import LibNeoos.Lib.Runs
import Mathlib.Data.Fintype.Card
import Mathlib.Logic.Function.Basic
/-!
# Threads over a shared memory

A configuration is a shared memory and the local state of each thread (where it
is in its code, and its variables). A step is one operation of one thread: it
reads and writes the memory and the thread's own local state, and nothing else.
Every interleaving of the threads is a `Run` of `Conf.step`.

`run_local` is the rule for a property of each single thread: the thread's own
steps keep it, and so do the steps of the others. `count` is for those that
speak of the number of threads at some place.
-/

namespace LibNeoos.Lib

/-! ## Counting threads -/

section
variable {T : Type} [Fintype T] {p q : T → Prop} [DecidablePred p] [DecidablePred q]

/-- The number of threads with a property. -/
def count (p : T → Prop) [DecidablePred p] : Nat := (Finset.univ.filter p).card

theorem filter_mono (h : ∀ t, p t → q t) : Finset.univ.filter p ⊆ Finset.univ.filter q := by
  intro t ht
  simp only [Finset.mem_filter, Finset.mem_univ, true_and] at ht ⊢
  exact h t ht

theorem count_mono (h : ∀ t, p t → q t) : count p ≤ count q := Finset.card_le_card (filter_mono h)

/-- One thread more. -/
theorem count_lt (h : ∀ t, p t → q t) {t : T} (ht : q t) (ht' : ¬ p t) : count p + 1 ≤ count q :=
  Finset.card_lt_card ((Finset.ssubset_iff_of_subset (filter_mono h)).2 ⟨t, by simpa using ht, by simpa using ht'⟩)

/-- At most one thread less. -/
theorem count_le_succ [DecidableEq T] (t : T) (h : ∀ u, u ≠ t → p u → q u) : count p ≤ count q + 1 := by
  have hsub : Finset.univ.filter p ⊆ insert t (Finset.univ.filter q) := by
    intro u hu
    simp only [Finset.mem_filter, Finset.mem_univ, true_and, Finset.mem_insert] at hu ⊢
    by_cases hut : u = t
    · exact .inl hut
    · exact .inr (h u hut hu)
  exact (Finset.card_le_card hsub).trans (Finset.card_insert_le _ _)

theorem count_eq_zero : count p = 0 ↔ ∀ t, ¬ p t := by
  simp [count, Finset.filter_eq_empty_iff]

end

/-! ## Configurations -/

/-- A shared memory and the threads' local states. -/
structure Conf (T M P : Type) where
  mem : M
  thr : T → P

variable {T M P A : Type} [DecidableEq T]

/-- Thread `l.1` does the operation `l.2`. -/
def Conf.step (move : T → M → P → A → Option (M × P)) (s : Conf T M P) (l : T × A) : Option (Conf T M P) :=
  (move l.1 s.mem (s.thr l.1) l.2).map fun r => ⟨r.1, Function.update s.thr l.1 r.2⟩

variable {move : T → M → P → A → Option (M × P)} {s s' s₀ : Conf T M P} {l : T × A}

theorem Conf.step_some (h : s.step move l = some s') :
    ∃ p, move l.1 s.mem (s.thr l.1) l.2 = some (s'.mem, p) ∧ s'.thr = Function.update s.thr l.1 p := by
  obtain ⟨⟨m, p⟩, hm, rfl⟩ := Option.map_eq_some_iff.1 h
  exact ⟨p, hm, rfl⟩

/-- A step leaves the other threads where they are. -/
theorem Conf.step_other (h : s.step move l = some s') {u : T} (hu : u ≠ l.1) : s'.thr u = s.thr u := by
  obtain ⟨p, -, hp⟩ := Conf.step_some h
  rw [hp, Function.update_of_ne hu]

theorem Conf.step_self (h : s.step move l = some s') :
    move l.1 s.mem (s.thr l.1) l.2 = some (s'.mem, s'.thr l.1) := by
  obtain ⟨p, hm, hp⟩ := Conf.step_some h
  rw [hm, hp, Function.update_self]

/-- A property of single threads that a thread's own steps and those of all
others keep holds of each of them in every state of a run. -/
theorem run_local {ok : Conf T M P → T × A → Conf T M P → Prop} (I : M → T → P → Prop)
    (h0 : ∀ t, I s₀.mem t (s₀.thr t))
    (own : ∀ s t a s', I s.mem t (s.thr t) → ok s (t, a) s' → move t s.mem (s.thr t) a = some (s'.mem, s'.thr t) →
      I s'.mem t (s'.thr t))
    (others : ∀ s t a s' u, (∀ x, I s.mem x (s.thr x)) → ok s (t, a) s' →
      move t s.mem (s.thr t) a = some (s'.mem, s'.thr t) → u ≠ t → I s'.mem u (s.thr u))
    (h : Run (Conf.step move) ok s₀ s) (t : T) : I s.mem t (s.thr t) := by
  refine h.inv (fun s => ∀ t, I s.mem t (s.thr t)) h0 (fun s l s' hi hok hst u => ?_) t
  by_cases hu : u = l.1
  · subst hu
    exact own s l.1 l.2 s' (hi _) hok (Conf.step_self hst)
  · rw [Conf.step_other hst hu]
    exact others s l.1 l.2 s' u hi hok (Conf.step_self hst) hu

end LibNeoos.Lib
