import LibNeoos.Lib.CStr
import LibNeoos.Lib.Numeral
import LibNeoos.Mpi.Init
/-!
# The arguments of `MPI_Init`

`parse_rank_args` reads the rank and the size with a loop that accepts an empty
string and wraps like a 32-bit `int`, and checks the range only at the end. The check
is right about the remainders modulo 2^32, so a numeral that is too long can pass for
a small one.

The two arguments are then dropped by moving the rest of the vector down in place.
-/

namespace LibNeoos.Mpi

open LibNeoos.Lib

/-! ## The numbers -/

/-- All bytes are decimal digits. -/
def Numeric (s : List UInt8) : Prop := ∀ c ∈ s, isDigit c

instance (s : List UInt8) : Decidable (Numeric s) := inferInstanceAs (Decidable (∀ c ∈ s, _))

theorem numeric_cons (c : UInt8) (s : List UInt8) : Numeric (c :: s) ↔ isDigit c ∧ Numeric s := List.forall_mem_cons

theorem sub_eq_digitVal {c : UInt8} (h : isDigit c) : (c.toNat : Int) - 48 = digitVal c := by
  rw [isDigit_iff] at h
  unfold digitVal
  omega

/-- The loop behind the text `p`. -/
theorem digits_behind {s : List UInt8} (hs : 0 ∉ s) (p : List UInt8) :
    digits (int32 (decimal p)) s = if Numeric s then some (int32 (decimal (p ++ s))) else none := by
  induction s generalizing p with
  | nil =>
    have hnil : Numeric [] := fun c hc => absurd hc List.not_mem_nil
    rw [List.append_nil, if_pos hnil]
    rfl
  | cons c s ih =>
    rw [List.mem_cons, not_or] at hs
    rw [digits, if_neg (Ne.symm hs.1)]
    by_cases hc : isDigit c
    · have hrange : ¬ (c < 48 ∨ c > 57) := by
        rw [not_or, UInt8.not_lt, gt_iff_lt, UInt8.not_lt]
        exact hc
      have hnext : int32 (int32 (decimal p) * 10 + (c.toNat - 48)) = int32 (decimal (p ++ [c])) := by
        rw [int32_mul_add, sub_eq_digitVal hc, decimal_snoc]
        push_cast
        rfl
      rw [if_neg hrange, hnext, ih hs.2, List.append_assoc, List.singleton_append]
      simp only [numeric_cons, hc, true_and]
    · have hrange : c < 48 ∨ c > 57 := by
        by_contra h
        rw [not_or, UInt8.not_lt, gt_iff_lt, UInt8.not_lt] at h
        exact hc h
      rw [if_pos hrange, if_neg]
      rw [numeric_cons]
      exact fun h => hc h.1

theorem digits_eq {s : List UInt8} (hs : 0 ∉ s) :
    digits 0 s = if Numeric s then some (int32 (decimal s)) else none := digits_behind hs []

/-- The range check sees the remainders modulo 2^32. -/
theorem range_check (r n : Nat) :
    (int32 n < 1 ∨ int32 n > MPI_MAX_RANKS ∨ int32 r < 0 ∨ int32 r ≥ int32 n) ↔
      ¬ (1 ≤ n % 2 ^ 32 ∧ n % 2 ^ 32 ≤ 16 ∧ r % 2 ^ 32 < n % 2 ^ 32) := by
  simp only [int32, Int.bmod_def, MPI_MAX_RANKS]
  split <;> split <;> omega

/-! ## `parse_rank_args` -/

/-- `parse_rank_args` with its two assignments. -/
def Statics.parse_rank_args (g : Statics) (argc : Int) (argv : Argv) : Option (Int × Statics) :=
  match Mpi.parse_rank_args argc argv with
  | none => none
  | some (.error rc) => some (rc, g)
  | some (.ok (r, n)) => some (MPI_SUCCESS, { g with mpi_rank := r, mpi_size := n })

/-- The two strings are numerals of a rank and a size. -/
def Rightful (s₁ s₂ : List UInt8) : Prop :=
  s₁ ≠ [] ∧ s₂ ≠ [] ∧ Numeric s₁ ∧ Numeric s₂ ∧ 1 ≤ decimal s₂ ∧ decimal s₂ ≤ 16 ∧ decimal s₁ < decimal s₂

instance (s₁ s₂ : List UInt8) : Decidable (Rightful s₁ s₂) := inferInstanceAs (Decidable (_ ∧ _))

/-- The call accepts exactly the numerals of a rank and a size, and then sets the two
variables to them. -/
def ParsedExactly (g : Statics) (s₁ s₂ : List UInt8) (out : Option (Int × Statics)) : Prop :=
  if Rightful s₁ s₂ then out = some (MPI_SUCCESS, { g with mpi_rank := decimal s₁, mpi_size := decimal s₂ })
  else ∃ rc, rc ≠ MPI_SUCCESS ∧ out = some (rc, g)

/-- The remainders of the two values are a rank and a size. -/
def PassesCheck (s₁ s₂ : List UInt8) : Prop :=
  1 ≤ decimal s₂ % 2 ^ 32 ∧ decimal s₂ % 2 ^ 32 ≤ 16 ∧ decimal s₁ % 2 ^ 32 < decimal s₂ % 2 ^ 32

instance (s₁ s₂ : List UInt8) : Decidable (PassesCheck s₁ s₂) := inferInstanceAs (Decidable (_ ∧ _))

variable {g : Statics} {argc : Int} {argv : Argv} {s₁ s₂ : List UInt8}

/-- What the function does with any two strings. -/
theorem parse_rank_args_eq (hargc : 3 ≤ argc) (h₁ : argv[1]? = some (some s₁)) (h₂ : argv[2]? = some (some s₂))
    (hs₁ : 0 ∉ s₁) (hs₂ : 0 ∉ s₂) :
    g.parse_rank_args argc argv = some (if Numeric s₁ ∧ Numeric s₂ ∧ PassesCheck s₁ s₂ then
      (MPI_SUCCESS, { g with mpi_rank := int32 (decimal s₁), mpi_size := int32 (decimal s₂) })
      else (MPI_ERR_OTHER, g)) := by
  have hparse : Mpi.parse_rank_args argc argv = some (if Numeric s₁ ∧ Numeric s₂ ∧ PassesCheck s₁ s₂ then
      .ok (int32 (decimal s₁), int32 (decimal s₂)) else .error MPI_ERR_OTHER) := by
    unfold Mpi.parse_rank_args rank_arg
    rw [if_neg (by omega), h₁, h₂]
    simp only [digits_eq hs₁, digits_eq hs₂]
    by_cases hn₁ : Numeric s₁
    · by_cases hn₂ : Numeric s₂
      · rw [if_pos hn₁, if_pos hn₂]
        by_cases hp : PassesCheck s₁ s₂
        · rw [if_pos ⟨hn₁, hn₂, hp⟩]
          exact if_neg ((range_check _ _).not.2 (not_not.2 hp))
        · rw [if_neg fun h => hp h.2.2]
          exact if_pos ((range_check _ _).2 hp)
      · have hno : ¬ (Numeric s₁ ∧ Numeric s₂ ∧ PassesCheck s₁ s₂) := fun h => hn₂ h.2.1
        rw [if_pos hn₁, if_neg hn₂, if_neg hno]
    · have hno : ¬ (Numeric s₁ ∧ Numeric s₂ ∧ PassesCheck s₁ s₂) := fun h => hn₁ h.1
      rw [if_neg hn₁, if_neg hno]
  unfold Statics.parse_rank_args
  rw [hparse]
  split_ifs
  · rfl
  · rfl

/-- What is rightful, seen from the check. -/
theorem rightful_iff : Rightful s₁ s₂ ↔ (Numeric s₁ ∧ Numeric s₂ ∧ PassesCheck s₁ s₂) ∧
    s₁ ≠ [] ∧ decimal s₁ < 2 ^ 32 ∧ decimal s₂ < 2 ^ 32 := by
  unfold Rightful PassesCheck
  constructor
  · rintro ⟨hne, -, hn₁, hn₂, hpos, hmax, hlt⟩
    refine ⟨⟨hn₁, hn₂, ?_⟩, hne, ?_⟩ <;> omega
  · rintro ⟨⟨hn₁, hn₂, hpos, hmax, hlt⟩, hne, hr, hn⟩
    refine ⟨hne, ?_, hn₁, hn₂, ?_⟩
    · rintro rfl
      rw [decimal_nil] at hpos
      omega
    · omega

/-- A success is none of the failures that leave the variables. -/
theorem success_not_failure (g g' : Statics) : ¬ ∃ rc, rc ≠ MPI_SUCCESS ∧ some (MPI_SUCCESS, g') = some (rc, g) := by
  rintro ⟨rc, hrc, h⟩
  exact hrc (congrArg Prod.fst (Option.some.inj h)).symm

/-- For every `argc` from 3 on and all strings: `parse_rank_args` is exact if and only
if one of the strings has another byte than a digit, or the remainders fail its check,
or the first string is not empty and both values are below 2^32. -/
theorem parse_rank_args_exact_iff (g : Statics) (argc : Int) (argv : Argv) (s₁ s₂ : CStr) (hargc : 3 ≤ argc)
    (h₁ : argv[1]? = some (some s₁.text)) (h₂ : argv[2]? = some (some s₂.text)) :
    ParsedExactly g s₁.text s₂.text (g.parse_rank_args argc argv) ↔
      ¬ (Numeric s₁.text ∧ Numeric s₂.text) ∨ ¬ PassesCheck s₁.text s₂.text ∨
        (s₁.text ≠ [] ∧ decimal s₁.text < 2 ^ 32 ∧ decimal s₂.text < 2 ^ 32) := by
  rw [parse_rank_args_eq hargc h₁ h₂ s₁.zero_notMem s₂.zero_notMem]
  generalize s₁.text = t₁
  generalize s₂.text = t₂
  unfold ParsedExactly
  by_cases hA : Numeric t₁ ∧ Numeric t₂ ∧ PassesCheck t₁ t₂
  · have hiff : ¬ (Numeric t₁ ∧ Numeric t₂) ∨ ¬ PassesCheck t₁ t₂ ∨
        (t₁ ≠ [] ∧ decimal t₁ < 2 ^ 32 ∧ decimal t₂ < 2 ^ 32) ↔ Rightful t₁ t₂ := by
      rw [rightful_iff]
      tauto
    rw [hiff, if_pos hA]
    by_cases hR : Rightful t₁ t₂
    · have hlt : decimal t₁ < 2 ^ 31 ∧ decimal t₂ < 2 ^ 31 := by
        obtain ⟨-, -, -, -, -, hmax, hlt⟩ := hR
        omega
      rw [if_pos hR, int32_of_lt hlt.1, int32_of_lt hlt.2]
      exact iff_of_true rfl hR
    · rw [if_neg hR]
      exact iff_of_false (success_not_failure g _) hR
  · have hR : ¬ Rightful t₁ t₂ := fun hR => hA (rightful_iff.1 hR).1
    rw [if_neg hA, if_neg hR]
    refine iff_of_true ⟨MPI_ERR_OTHER, by decide, rfl⟩ ?_
    tauto

/-- The strings `3` and `16`. -/
theorem parse_rank_args_exact_iff_three :
    let g : Statics := {}
    ParsedExactly g [51] [49, 54] (g.parse_rank_args 3 [some [112], some [51], some [49, 54], none]) :=
  (parse_rank_args_exact_iff {} 3 [some [112], some [51], some [49, 54], none] (.ofText [51]) (.ofText [49, 54])
    (by decide) rfl rfl).2 (.inr (.inr (by decide +kernel)))

/-- An empty string passes for rank 0, and so does 2^32. -/
theorem parse_rank_args_accepts_empty :
    let g : Statics := {}
    let long : List UInt8 := [52, 50, 57, 52, 57, 54, 55, 50, 57, 54]
    ¬ ParsedExactly g [] [49] (g.parse_rank_args 3 [some [112], some [], some [49], none]) ∧
    ¬ ParsedExactly g long [49] (g.parse_rank_args 3 [some [112], some long, some [49], none]) := by
  intro g long
  have hempty : ¬ Rightful [] [49] := fun h => h.1 rfl
  have hlong : ¬ Rightful long [49] := by decide +kernel
  constructor
  · rw [ParsedExactly, if_neg hempty]
    exact success_not_failure g _
  · rw [ParsedExactly, if_neg hlong]
    exact success_not_failure g _

/-! ## `MPI_Init` -/

/-- Rank and size after `MPI_Init` are those of `parse_rank_args`. -/
theorem MPI_Init_rank {g g' : Statics} {n rc : Int} {v : Argv} {w : Kernel} {argc' : Option Int} {argv' : Option Argv}
    (hready : g.mpi_ready = false) (h : MPI_Init g (some n) (some v) w = .returned rc g' argc' argv') :
    ∃ rc' g'', g.parse_rank_args n v = some (rc', g'') ∧ g'.mpi_rank = g''.mpi_rank ∧ g'.mpi_size = g''.mpi_size := by
  unfold MPI_Init at h
  unfold Statics.parse_rank_args
  simp only [hready, Bool.false_eq_true, if_false] at h
  cases hp : Mpi.parse_rank_args n v with
  | none =>
    rw [hp] at h
    cases h
  | some res =>
    rw [hp] at h
    cases res with
    | error e =>
      cases h
      exact ⟨_, _, rfl, rfl, rfl⟩
    | ok rn =>
      refine ⟨_, _, rfl, ?_⟩
      simp only at h
      repeat' split at h
      all_goals cases h
      all_goals exact ⟨rfl, rfl⟩

/-- A successful call has dropped two arguments. -/
theorem MPI_Init_success {g g' : Statics} {n : Int} {v : Argv} {w : Kernel} {argc' : Option Int} {argv' : Option Argv}
    (h : MPI_Init g (some n) (some v) w = .returned MPI_SUCCESS g' argc' argv') :
    argc' = some (n - 2) ∧ ∃ v', v.shift n = some v' ∧ argv' = some v' := by
  obtain ⟨-, ⟨-, hrc, -⟩ | ⟨-, -, ⟨n', u, v', hn, hargc, hu, hs, hargv⟩, -⟩⟩ := MPI_Init_cases h
  · exact absurd rfl hrc
  · cases hn
    cases hu
    exact ⟨hargc, v', hs, hargv⟩

/-- A call whose arguments can be read and moved has a defined result. -/
theorem MPI_Init_defined {g : Statics} {n : Int} {v v' : Argv} {w : Kernel} (hp : Mpi.parse_rank_args n v ≠ none)
    (hs : v.shift n = some v') : MPI_Init g (some n) (some v) w ≠ .fault := by
  unfold MPI_Init
  by_cases hr : g.mpi_ready = true
  · rw [if_pos hr]
    simp
  rw [if_neg hr]
  cases hp' : Mpi.parse_rank_args n v with
  | none => exact absurd hp' hp
  | some res =>
    cases res with
    | error rc => simp [hp']
    | ok rn =>
      simp only [hp', hs]
      split_ifs
      · simp
      · simp
      · split <;> simp

/-! ## The shift -/

theorem move_eq {v : Argv} {dst src : Nat} (hdst : dst < v.length) (hsrc : src < v.length) :
    v.move dst src = some (v.set dst v[src]) := by
  rw [Argv.move, List.getElem?_eq_getElem hsrc]
  exact if_pos hdst

/-- What is behind the vector is neither read nor written. -/
theorem move_append {v v' : Argv} {dst src : Nat} (h : v.move dst src = some v') (rest : Argv) :
    Argv.move (v ++ rest) dst src = some (v' ++ rest) := by
  unfold Argv.move at h
  split at h
  · rename_i x hx
    split_ifs at h with hdst
    cases h
    have hsrc : src < v.length := (List.getElem?_eq_some_iff.1 hx).1
    rw [Argv.move, List.getElem?_append_left hsrc, hx]
    simp only
    rw [if_pos (by rw [List.length_append]; omega), List.set_append_left _ _ hdst]
  · cases h

theorem moves_append {is : List Nat} {v v' : Argv} (h : is.foldlM (fun v i => Argv.move v (i - 2) i) v = some v')
    (rest : Argv) : is.foldlM (fun v i => Argv.move v (i - 2) i) (v ++ rest) = some (v' ++ rest) := by
  induction is generalizing v with
  | nil =>
    cases h
    rfl
  | cons i is ih =>
    rw [List.foldlM_cons] at h ⊢
    obtain ⟨u, hu, h⟩ := Option.bind_eq_some_iff.1 h
    rw [move_append hu rest]
    exact ih h

theorem shift_append {n : Int} {v v' : Argv} (h : v.shift n = some v') (rest : Argv) :
    Argv.shift n (v ++ rest) = some (v' ++ rest) := by
  obtain ⟨u, hu, h⟩ := Option.bind_eq_some_iff.1 h
  rw [Argv.shift, move_append hu rest]
  exact moves_append h rest

/-- After `k` rounds of the loop the entries 1 to `k` are in place, and those from
`k + 1` on are as they were. -/
theorem moves_spec {v : Argv} (k : Nat) (hk : k + 2 < v.length) :
    ∃ u, (List.range' 3 k).foldlM (fun v i => Argv.move v (i - 2) i) v = some u ∧ u.length = v.length ∧
      u[0]? = v[0]? ∧ (∀ j, 1 ≤ j → j ≤ k → u[j]? = v[j + 2]?) ∧ ∀ j, k < j → u[j]? = v[j]? := by
  induction k with
  | zero => exact ⟨v, rfl, rfl, rfl, fun j h1 h0 => by omega, fun j _ => rfl⟩
  | succ k ih =>
    obtain ⟨u, hu, hlen, hzero, hdone, hsame⟩ := ih (by omega)
    have hsrc : 3 + k < u.length := by omega
    have hread : u[3 + k]? = v[3 + k]? := hsame _ (by omega)
    refine ⟨u.set (k + 1) u[3 + k], ?_, ?_, ?_, ?_, ?_⟩
    · have hdst : 3 + k - 2 = k + 1 := by omega
      rw [List.range'_concat, Nat.one_mul, List.foldlM_append, hu]
      simp only [Option.bind_eq_bind, Option.bind_some, List.foldlM_cons, List.foldlM_nil, hdst]
      rw [move_eq (by omega) hsrc]
      rfl
    · rw [List.length_set, hlen]
    · rw [List.getElem?_set_ne (by omega), hzero]
    · intro j h1 hj
      by_cases hjk : j = k + 1
      · subst hjk
        rw [List.getElem?_set_self (by omega), ← List.getElem?_eq_getElem hsrc, hread]
        congr 1
        omega
      · rw [List.getElem?_set_ne (by omega), hdone j h1 (by omega)]
    · intro j hj
      rw [List.getElem?_set_ne (by omega), hsame j (by omega)]

/-- The whole shift. -/
theorem shift_spec {v : Argv} {n : Nat} (hn : 3 ≤ n) (hlen : v.length = n + 1) :
    ∃ v', v.shift n = some v' ∧ v'.length = n + 1 ∧ v'[0]? = v[0]? ∧ ∀ j, 1 ≤ j → j ≤ n - 2 → v'[j]? = v[j + 2]? := by
  have hfirst : v.move 1 0 = some (v.set 1 v[0]) := move_eq (by omega) (by omega)
  obtain ⟨u, hu, hlen', hzero, hdone, -⟩ := moves_spec (v := v.set 1 v[0]) (n - 2) (by rw [List.length_set]; omega)
  have hrounds : ((n : Int) - 2).toNat = n - 2 := by omega
  refine ⟨u, ?_, ?_, ?_, fun j h1 hj => ?_⟩
  · rw [Argv.shift, hfirst, hrounds]
    exact hu
  · rw [hlen', List.length_set, hlen]
  · rw [hzero, List.getElem?_set_ne (by omega)]
  · rw [hdone j h1 hj, List.getElem?_set_ne (by omega)]

theorem parse_rank_args_append {n : Int} {v : Argv} (h : 3 ≤ v.length) (rest : Argv) :
    Mpi.parse_rank_args n (v ++ rest) = Mpi.parse_rank_args n v := by
  unfold Mpi.parse_rank_args rank_arg
  rw [List.getElem?_append_left (by omega), List.getElem?_append_left (by omega)]

theorem parse_rank_args_defined {n : Int} {v : Argv} {s₁ s₂ : List UInt8} (h₁ : v[1]? = some (some s₁))
    (h₂ : v[2]? = some (some s₂)) : Mpi.parse_rank_args n v ≠ none := by
  unfold Mpi.parse_rank_args rank_arg
  simp only [h₁, h₂]
  by_cases hn : n < 3
  · rw [if_pos hn]
    simp
  · rw [if_neg hn]
    cases digits 0 s₁ with
    | none => simp
    | some r =>
      cases digits 0 s₂ with
      | none => simp
      | some k =>
        simp only
        split_ifs
        · simp
        · simp

/-- For every `argc` from 3 on and every vector that ends with a null pointer at index
`argc`, whatever is behind it: when `MPI_Init` succeeds, `argc` is less by two, the
entry 0 is the old one, the entries from 1 on are the old ones from 3 on, with the null
pointer at their end, and what is behind the vector is as it was. If the vector has
its two strings, the call needs nothing that is behind index `argc`. -/
theorem MPI_Init_drops_own_arguments (g : Statics) (w : Kernel) (v : Argv) (n : Nat) (hn : 3 ≤ n)
    (hlen : v.length = n + 1) (hnull : v[n]? = some none) :
    (∃ v' : Argv, v'.length = n + 1 ∧ v'[0]? = v[0]? ∧ (∀ j, 1 ≤ j → j ≤ n - 2 → v'[j]? = v[j + 2]?) ∧
      v'[n - 2]? = some none ∧
      ∀ (rest : Argv) (g' : Statics) (argc' : Option Int) (argv' : Option Argv),
        MPI_Init g (some n) (some (v ++ rest)) w = .returned MPI_SUCCESS g' argc' argv' →
          argc' = some ((n : Int) - 2) ∧ argv' = some (v' ++ rest)) ∧
    ((∃ s, v[1]? = some (some s)) → (∃ s, v[2]? = some (some s)) →
      ∀ rest : Argv, MPI_Init g (some n) (some (v ++ rest)) w ≠ .fault) := by
  obtain ⟨v', hshift, hlen', hzero, hrest⟩ := shift_spec hn hlen
  refine ⟨⟨v', hlen', hzero, hrest, ?_, fun rest g' argc' argv' h => ?_⟩, ?_⟩
  · rw [hrest (n - 2) (by omega) (by omega), ← hnull]
    congr 1
    omega
  · obtain ⟨hargc, u, hu, hargv⟩ := MPI_Init_success h
    rw [shift_append hshift rest] at hu
    cases hu
    exact ⟨hargc, hargv⟩
  · rintro ⟨s₁, h₁⟩ ⟨s₂, h₂⟩ rest
    refine MPI_Init_defined ?_ (shift_append hshift rest)
    rw [parse_rank_args_append (by omega)]
    exact parse_rank_args_defined h₁ h₂

/-- The only rank, with one argument of its own. -/
theorem MPI_Init_drops_own_arguments_one :
    ∃ g' argv', MPI_Init {} (some 4) (some [some [112], some [48], some [49], some [120], none]) ⟨3, 0, [.go]⟩ =
      .returned MPI_SUCCESS g' (some 2) (some argv') ∧ argv'[1]? = some (some [120]) ∧ argv'[2]? = some none := by
  obtain ⟨⟨v', -, -, hrest, hnull, hret⟩, -⟩ := MPI_Init_drops_own_arguments {} ⟨3, 0, [.go]⟩
    [some [112], some [48], some [49], some [120], none] 4 (by decide) rfl rfl
  have hargv := (Option.some.inj (hret [] _ _ _ rfl).2).trans (List.append_nil v')
  refine ⟨_, _, rfl, ?_, ?_⟩
  · exact (congrArg (fun v : Argv => v[1]?) hargv).trans (hrest 1 (by decide) (by decide))
  · exact (congrArg (fun v : Argv => v[2]?) hargv).trans hnull

end LibNeoos.Mpi
