import Mathlib.Data.List.Basic
/-!
# Runs of a labelled transition system

`step s l` is the state after the step labelled `l`, or `none` where that step
is not possible. A `Run` is any finite sequence of steps, each meeting a
condition `ok` on the state before it, its label and the state after it. A
theorem about every `Run` holds for every interleaving of the parties whose
steps the labels name, and `ok` is where an assumption about the environment
(no loss, no overflow, a bounded lead) is stated.

`Can` is what some run from a state reaches. A measure that some run can always
lower leads to the goal (`Can.of_measure`).
-/

namespace LibNeoos.Lib

variable {S L : Type}

/-- States reached from `s₀` by steps that all meet `ok`. -/
inductive Run (step : S → L → Option S) (ok : S → L → S → Prop) (s₀ : S) : S → Prop
  | nil : Run step ok s₀ s₀
  | snoc {s s' : S} {l : L} : Run step ok s₀ s → ok s l s' → step s l = some s' → Run step ok s₀ s'

variable {step : S → L → Option S} {ok ok' : S → L → S → Prop} {s₀ s s' : S}

/-- A property of the first state that every step keeps holds in every state. -/
theorem Run.inv (I : S → Prop) (h0 : I s₀) (hs : ∀ s l s', I s → ok s l s' → step s l = some s' → I s')
    (h : Run step ok s₀ s) : I s := by
  induction h with
  | nil => exact h0
  | snoc _ hok hst ih => exact hs _ _ _ ih hok hst

/-- The same, where the step may use that its first state is reached. -/
theorem Run.inv_reach (I : S → Prop) (h0 : I s₀)
    (hs : ∀ s l s', Run step ok s₀ s → I s → ok s l s' → step s l = some s' → I s') (h : Run step ok s₀ s) : I s := by
  induction h with
  | nil => exact h0
  | snoc hr hok hst ih => exact hs _ _ _ hr ih hok hst

theorem Run.mono (hm : ∀ s l s', ok s l s' → ok' s l s') (h : Run step ok s₀ s) : Run step ok' s₀ s := by
  induction h with
  | nil => exact .nil
  | snoc _ hok hst ih => exact .snoc ih (hm _ _ _ hok) hst

/-- Every step of a run starts in a state where an invariant holds. -/
theorem Run.with_inv (I : S → Prop) (h0 : I s₀) (hs : ∀ s l s', I s → ok s l s' → step s l = some s' → I s')
    (h : Run step ok s₀ s) : Run step (fun s l s' => I s ∧ ok s l s') s₀ s := by
  induction h with
  | nil => exact .nil
  | snoc h hok hst ih => exact .snoc ih ⟨h.inv I h0 hs, hok⟩ hst

theorem Run.trans (h : Run step ok s₀ s) (h' : Run step ok s s') : Run step ok s₀ s' := by
  induction h' with
  | nil => exact h
  | snoc _ hok hst ih => exact .snoc ih hok hst

theorem Run.one {l : L} (hok : ok s l s') (hst : step s l = some s') : Run step ok s s' :=
  .snoc .nil hok hst

/-- The state after the given labels, when each step is possible and meets the
Boolean condition `okb`. -/
def exec (step : S → L → Option S) (okb : S → L → Bool) : S → List L → Option S
  | s, [] => some s
  | s, l :: ls => if okb s l then (step s l).bind (exec step okb · ls) else none

/-- An executed list of labels is a run. -/
theorem exec_run {okb : S → L → Bool} (hm : ∀ s l s', okb s l = true → ok s l s') (ls : List L) :
    ∀ s s', exec step okb s ls = some s' → Run step ok s s' := by
  induction ls with
  | nil =>
    intro s s' h
    simp only [exec, Option.some.injEq] at h
    exact h ▸ .nil
  | cons l ls ih =>
    intro s s' h
    simp only [exec] at h
    split at h
    · rename_i hb
      obtain ⟨s1, h1, h2⟩ := Option.bind_eq_some_iff.1 h
      exact (Run.one (hm _ _ _ hb) h1).trans (ih _ _ h2)
    · cases h

/-- A property computed at the end of an executed list of labels holds in a state reached. -/
theorem exec_reaches {okb : S → L → Bool} {ls : List L} {P : S → Prop} [DecidablePred P]
    (h : (exec step okb s₀ ls).map (fun s => decide (P s)) = some true) (hm : ∀ s l s', okb s l = true → ok s l s') :
    ∃ s, Run step ok s₀ s ∧ P s := by
  obtain ⟨s, hs, hp⟩ := Option.map_eq_some_iff.1 h
  exact ⟨s, exec_run hm ls _ _ hs, of_decide_eq_true hp⟩

/-! ## What can be reached -/

/-- Some run from `s` reaches a state with `P`. -/
def Can (step : S → L → Option S) (ok : S → L → S → Prop) (P : S → Prop) (s : S) : Prop := ∃ s', Run step ok s s' ∧ P s'

section
variable {P Q I G : S → Prop}

theorem Can.now (h : P s) : Can step ok P s := ⟨s, .nil, h⟩

theorem Can.one {l : L} (hok : ok s l s') (hst : step s l = some s') (h : P s') : Can step ok P s :=
  ⟨s', .one hok hst, h⟩

theorem Can.andThen (h : Can step ok P s) (hpq : ∀ s, P s → Can step ok Q s) : Can step ok Q s := by
  obtain ⟨s₁, h₁, hp⟩ := h
  obtain ⟨s₂, h₂, hq⟩ := hpq s₁ hp
  exact ⟨s₂, h₁.trans h₂, hq⟩

theorem Can.mono (h : Can step ok P s) (hpq : ∀ s, P s → Q s) : Can step ok Q s := h.andThen fun s hp => .now (hpq s hp)

/-- Where the goal does not hold, some run keeps the invariant and reaches the goal or lowers the measure. -/
theorem Can.of_measure (μ : S → Nat)
    (h : ∀ s, I s → ¬ G s → Can step ok (fun s' => I s' ∧ (G s' ∨ μ s' < μ s)) s) (hs : I s) :
    Can step ok (fun s' => I s' ∧ G s') s := by
  induction hn : μ s using Nat.strongRecOn generalizing s with
  | ind n ih =>
    by_cases hg : G s
    · exact .now ⟨hs, hg⟩
    · refine (h s hs hg).andThen fun s' hs' => ?_
      rcases hs'.2 with hg' | hlt
      · exact .now ⟨hs'.1, hg'⟩
      · exact ih (μ s') (hn ▸ hlt) hs'.1 rfl

end

end LibNeoos.Lib
