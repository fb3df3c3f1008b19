import Mathlib.Data.List.Basic
import Mathlib.Data.List.Nodup
import Mathlib.Logic.Function.Basic
/-!
# Linked lists in an array of slots

A slot's successor is `next i`; a list starts at a head link. `Linked next h l`
says that following the links from `h` visits the slots `l` and ends. The
lemmas are the two updates a queue makes: unlinking a slot by storing through
the link that points to it, and linking a new slot behind the last one.
-/

namespace LibNeoos.Lib

variable {ι : Type}

/-- From the link `h`, the slots visited are `l`, and then the list ends. -/
def Linked (next : ι → Option ι) : Option ι → List ι → Prop
  | h, [] => h = none
  | h, i :: l => h = some i ∧ Linked next (next i) l

/-- The slots visited from the link `h`, at most `fuel` of them. -/
def walk (next : ι → Option ι) : Nat → Option ι → List ι
  | 0, _ => []
  | _ + 1, none => []
  | fuel + 1, some i => i :: walk next fuel (next i)

namespace Linked

variable {next next' : ι → Option ι} {h : Option ι} {l A B : List ι} {i j : ι}

theorem congr (hl : Linked next h l) (hc : ∀ i ∈ l, next' i = next i) : Linked next' h l := by
  induction l generalizing h with
  | nil => exact hl
  | cons i l ih =>
    refine ⟨hl.1, ?_⟩
    rw [hc i (by simp)]
    exact ih hl.2 (fun j hj => hc j (by simp [hj]))

theorem walk_eq (hl : Linked next h l) (fuel : Nat) (hf : l.length ≤ fuel) : walk next fuel h = l := by
  induction l generalizing h fuel with
  | nil => cases hl; cases fuel <;> rfl
  | cons i l ih =>
    obtain ⟨rfl, hl⟩ := hl
    cases fuel with
    | zero => simp at hf
    | succ fuel => simp only [walk, ih hl fuel (by simpa using hf)]

theorem head_eq (hl : Linked next h l) : h = l.head? := by
  cases l with
  | nil => exact hl
  | cons i l => exact hl.1

/-- The link of a visited slot leads to the slot visited next. -/
theorem next_eq (hl : Linked next h (A ++ j :: B)) : next j = B.head? := by
  induction A generalizing h with
  | nil => exact hl.2.head_eq
  | cons a A ih => exact ih hl.2

/-- Linking `i` as the only slot. -/
theorem single (hi : next i = none) : Linked next (some i) [i] := ⟨rfl, hi⟩

variable [DecidableEq ι]

/-- Unlinking `i` by a store into the slot `j` before it. -/
theorem unlink_next (hn : (A ++ j :: i :: B).Nodup) (hl : Linked next h (A ++ j :: i :: B)) :
    Linked (Function.update next j (next i)) h (A ++ j :: B) := by
  induction A generalizing h with
  | nil =>
    obtain ⟨rfl, h1, h2⟩ := hl
    have hjB : j ∉ B := fun hj => (List.nodup_cons.1 hn).1 (List.mem_cons_of_mem _ hj)
    refine ⟨rfl, ?_⟩
    rw [Function.update_self]
    refine h2.congr (fun k hk => Function.update_of_ne ?_ _ _)
    rintro rfl
    exact hjB hk
  | cons a A ih =>
    obtain ⟨hna, hn'⟩ := List.nodup_cons.1 hn
    refine ⟨hl.1, ?_⟩
    have haj : a ≠ j := fun e => hna (by simp [e])
    rw [Function.update_of_ne haj]
    exact ih hn' hl.2

/-- Linking `i` behind the last slot `j`. -/
theorem snoc (hn : (A ++ [j]).Nodup) (hij : i ∉ A ++ [j]) (hi : next i = none) (hl : Linked next h (A ++ [j])) :
    Linked (Function.update next j (some i)) h (A ++ [j] ++ [i]) := by
  have hji : i ≠ j := fun e => hij (by simp [e])
  induction A generalizing h with
  | nil =>
    obtain ⟨rfl, -⟩ := hl
    refine ⟨rfl, ?_, ?_⟩
    · exact Function.update_self _ _ _
    · rw [Function.update_of_ne hji]; exact hi
  | cons a A ih =>
    obtain ⟨hna, hn'⟩ := List.nodup_cons.1 hn
    have haj : a ≠ j := fun e => hna (by simp [e])
    refine ⟨hl.1, ?_⟩
    rw [Function.update_of_ne haj]
    exact ih hn' (fun hm => hij (List.mem_cons_of_mem _ hm)) hl.2

end Linked

end LibNeoos.Lib
