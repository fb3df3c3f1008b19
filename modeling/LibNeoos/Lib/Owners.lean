import Mathlib.Logic.Function.Basic
import Mathlib.Data.Option.Basic
/-!
# Exclusive ownership

A pool of things, some of them in use, and holders that each own at most one.
`Owners own used` says that what is owned is in use, that what is in use is
owned, and that nothing has two owners. The lemmas are the three things that can
happen: a holder takes something that is free, gives back what it owns, or hands
it to another.
-/

namespace LibNeoos.Lib

variable {C I : Type}

structure Owners (own : C → Option I) (used : I → Prop) : Prop where
  sound : ∀ c i, own c = some i → used i
  owned : ∀ i, used i → ∃ c, own c = some i
  one : ∀ c c' i, own c = some i → own c' = some i → c = c'

namespace Owners

variable {own own' : C → Option I} {used used' : I → Prop} {c d : C} {i : I}

theorem congr (h : Owners own used) (ho : ∀ c, own' c = own c) (hu : ∀ i, used' i ↔ used i) : Owners own' used' := by
  obtain rfl : own' = own := funext ho
  obtain rfl : used' = used := funext fun i => propext (hu i)
  exact h

variable [DecidableEq C]

/-- A holder takes something that is free. -/
theorem take (h : Owners own used) (hc : own c = none) (hi : ¬ used i) :
    Owners (Function.update own c (some i)) fun j => j = i ∨ used j := by
  have other : ∀ d j, Function.update own c (some i) d = some j → (d = c ∧ j = i) ∨ (d ≠ c ∧ own d = some j) := by
    intro d j hd
    by_cases hdc : d = c
    · subst hdc
      rw [Function.update_self] at hd
      exact .inl ⟨rfl, (Option.some.inj hd).symm⟩
    · rw [Function.update_of_ne hdc] at hd
      exact .inr ⟨hdc, hd⟩
  refine ⟨fun d j hd => ?_, fun j hj => ?_, fun d d' j hd hd' => ?_⟩
  · rcases other d j hd with ⟨-, hj⟩ | ⟨-, hd⟩
    · exact .inl hj
    · exact .inr (h.sound d j hd)
  · rcases hj with rfl | hj
    · exact ⟨c, Function.update_self ..⟩
    · obtain ⟨d, hd⟩ := h.owned j hj
      refine ⟨d, ?_⟩
      rw [Function.update_of_ne, hd]
      rintro rfl
      rw [hc] at hd
      cases hd
  · rcases other d j hd with ⟨hdc, hj⟩ | ⟨-, ho⟩ <;> rcases other d' j hd' with ⟨hdc', hj'⟩ | ⟨-, ho'⟩
    · rw [hdc, hdc']
    · exact absurd (hj ▸ h.sound d' j ho') hi
    · exact absurd (hj' ▸ h.sound d j ho) hi
    · exact h.one d d' j ho ho'

/-- A holder gives back what it owns. -/
theorem release (h : Owners own used) (hc : own c = some i) :
    Owners (Function.update own c none) fun j => used j ∧ j ≠ i := by
  have other : ∀ d j, Function.update own c none d = some j → d ≠ c ∧ own d = some j := by
    intro d j hd
    by_cases hdc : d = c
    · subst hdc
      rw [Function.update_self] at hd
      cases hd
    · rw [Function.update_of_ne hdc] at hd
      exact ⟨hdc, hd⟩
  refine ⟨fun d j hd => ?_, fun j hj => ?_, fun d d' j hd hd' => h.one d d' j (other d j hd).2 (other d' j hd').2⟩
  · obtain ⟨hdc, hd⟩ := other d j hd
    refine ⟨h.sound d j hd, ?_⟩
    rintro rfl
    exact hdc (h.one d c j hd hc)
  · obtain ⟨d, hd⟩ := h.owned j hj.1
    refine ⟨d, ?_⟩
    rw [Function.update_of_ne, hd]
    rintro rfl
    rw [hc] at hd
    exact hj.2 (Option.some.inj hd).symm

/-- A holder hands what it owns to one that owns nothing. -/
theorem pass (h : Owners own used) (hc : own c = some i) (hd : own d = none) :
    Owners (Function.update (Function.update own c none) d (some i)) used := by
  have hne : d ≠ c := by
    rintro rfl
    rw [hc] at hd
    cases hd
  have := (h.release hc).take (c := d) (i := i) (by rwa [Function.update_of_ne hne]) fun hi => hi.2 rfl
  refine this.congr (fun _ => rfl) fun j => ⟨fun hj => ?_, fun hj => ?_⟩
  · by_cases hji : j = i
    · exact .inl hji
    · exact .inr ⟨hj, hji⟩
  · rcases hj with rfl | hj
    · exact h.sound c j hc
    · exact hj.1

end Owners

end LibNeoos.Lib
