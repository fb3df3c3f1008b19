import Mathlib.Data.DFinsupp.WellFounded
/-!
# Systems of parties that come to an end

Each of finitely many parties has a place in a well-founded order (what is left of its
program), and a number counts what is under way between them. If every step takes one
party down and leaves the places of the others, or leaves all places and lowers the
number, then there is no endless sequence of steps, however the parties interleave and
however much a step of a party adds to the number.
-/

namespace LibNeoos.Lib

variable {ι α S : Type}

/-- One party goes down and the others stay, or all stay and the number is lowered. -/
def Descends (r : α → α → Prop) (place : S → ι → α) (μ : S → Nat) (s' s : S) : Prop :=
  (∃ i, r (place s' i) (place s i) ∧ ∀ j, j ≠ i → place s' j = place s j) ∨ (place s' = place s ∧ μ s' < μ s)

theorem descends_wf [LinearOrder ι] [Finite ι] {r : α → α → Prop} (hr : WellFounded r) (place : S → ι → α)
    (μ : S → Nat) :
    WellFounded (Descends r place μ) := by
  have hpi : WellFounded (Pi.Lex (fun i j : ι => i < j) (fun {_} => r) : (ι → α) → (ι → α) → Prop) :=
    Pi.Lex.wellFounded _ fun _ => hr
  refine Subrelation.wf ?_ (InvImage.wf (fun s => (place s, μ s)) (hpi.prod_lex Nat.lt_wfRel.wf))
  intro s' s h
  rcases h with ⟨i, hi, hsame⟩ | ⟨hplace, hμ⟩
  · exact Prod.Lex.left _ _ ⟨i, fun j hj => hsame j (ne_of_lt hj), hi⟩
  · show Prod.Lex _ _ (place s', μ s') (place s, μ s)
    rw [hplace]
    exact Prod.Lex.right _ hμ

end LibNeoos.Lib
