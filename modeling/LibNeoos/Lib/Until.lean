import Mathlib.Data.List.Basic
/-!
# Loops that wait

`while (!done) { … }` where each pass reads one input and may return from the function.
What the loop waits for is a property of the inputs read so far, and the loop's variables
keep track of it (`Inv`). `untilDone_iff` then says which inputs let the loop end.
-/

namespace LibNeoos.Lib

variable {σ α : Type} {done : σ → Bool} {pass : σ → α → Option σ}

/-- The loop on a list of inputs; `none` when a pass returns. It stops at the end of the
list too, so whether it is done is to be looked at. -/
def untilDone (done : σ → Bool) (pass : σ → α → Option σ) : σ → List α → Option σ
  | c, [] => some c
  | c, x :: xs => if done c then some c else (pass c x).bind (untilDone done pass · xs)

/-- The loop ends if its inputs begin with some that it waits for, with none among them
that makes it return. -/
theorem untilDone_iff {Inv : List α → σ → Prop} {heard : List α → Prop} {ok bad : α → Prop}
    (hdone : ∀ ys c, Inv ys c → (done c = true ↔ heard ys)) (hbad : ∀ c x, ok x → bad x → pass c x = none)
    (hgood : ∀ ys c x, Inv ys c → ok x → ¬ bad x → done c = false → ∃ c', pass c x = some c' ∧ Inv (ys ++ [x]) c')
    {xs : List α} : ∀ {ys : List α} {c : σ}, (∀ x ∈ xs, ok x) → Inv ys c →
      ((∃ c', untilDone done pass c xs = some c' ∧ done c' = true) ↔
        ∃ zs rest, xs = zs ++ rest ∧ (∀ x ∈ zs, ¬ bad x) ∧ heard (ys ++ zs)) := by
  induction xs with
  | nil =>
    intro ys c _ hc
    constructor
    · rintro ⟨c', h, hd⟩
      cases h
      exact ⟨[], [], rfl, by simp, by simpa using (hdone ys c hc).1 hd⟩
    · rintro ⟨zs, rest, h, -, hh⟩
      obtain ⟨rfl, rfl⟩ := List.append_eq_nil_iff.1 h.symm
      exact ⟨c, rfl, (hdone ys c hc).2 (by simpa using hh)⟩
  | cons x xs ih =>
    intro ys c hok hc
    have hx : ok x := hok x (by simp)
    cases hd : done c with
    | true =>
      -- it does not read `x`
      have hloop : untilDone done pass c (x :: xs) = some c := by simp [untilDone, hd]
      refine iff_of_true ⟨c, hloop, hd⟩ ⟨[], x :: xs, rfl, by simp, ?_⟩
      simpa using (hdone ys c hc).1 hd
    | false =>
      have hnot : ¬ heard ys := fun hh => by simp [(hdone ys c hc).2 hh] at hd
      have hloop : untilDone done pass c (x :: xs) = (pass c x).bind (untilDone done pass · xs) := by
        simp [untilDone, hd]
      rw [hloop]
      by_cases hb : bad x
      · rw [hbad c x hx hb]
        refine iff_of_false (by simp) ?_
        rintro ⟨zs, rest, h, hz, hh⟩
        cases zs with
        | nil => exact hnot (by simpa using hh)
        | cons z zs =>
          obtain ⟨rfl, -⟩ := List.cons_eq_cons.1 h
          exact hz x (by simp) hb
      · obtain ⟨c', hpass, hc'⟩ := hgood ys c x hc hx hb hd
        rw [hpass, Option.bind_some, ih (fun y hy => hok y (List.mem_cons_of_mem _ hy)) hc']
        constructor
        · rintro ⟨zs, rest, rfl, hz, hh⟩
          refine ⟨x :: zs, rest, rfl, ?_, by simpa using hh⟩
          intro y hy
          rcases List.mem_cons.1 hy with rfl | hy
          · exact hb
          · exact hz y hy
        · rintro ⟨zs, rest, h, hz, hh⟩
          cases zs with
          | nil => exact absurd (by simpa using hh) hnot
          | cons z zs =>
            obtain ⟨rfl, rfl⟩ := List.cons_eq_cons.1 h
            exact ⟨zs, rest, rfl, fun y hy => hz y (List.mem_cons_of_mem _ hy), by simpa using hh⟩

end LibNeoos.Lib
