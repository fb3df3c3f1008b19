import LibNeoos.Lib.CStr
/-!
# The comparison functions of `string.c`

`strcmp`, `strncmp` and `memcmp` stop at different places: at a zero byte, after `n`
bytes, at the first difference. All three return the difference of the bytes where
they stop, and so they define one order, the lexicographic one on unsigned bytes.
-/

namespace LibNeoos.Cstring

open Lib

/-! ## The code -/

def strcmp : List UInt8 → List UInt8 → Option Int
  | c :: x, d :: y => if c ≠ 0 ∧ c = d then strcmp x y else some ((c.toNat : Int) - d.toNat)
  | _, _ => none

/-- `n` is the number of rounds that are left. -/
def strncmp : Nat → List UInt8 → List UInt8 → Option Int
  | 0, _, _ => some 0
  | n + 1, c :: x, d :: y =>
    if c ≠ d then some ((c.toNat : Int) - d.toNat) else if c = 0 then some 0 else strncmp n x y
  | _ + 1, _, _ => none

def memcmp : Nat → List UInt8 → List UInt8 → Option Int
  | 0, _, _ => some 0
  | n + 1, c :: x, d :: y => if c ≠ d then some ((c.toNat : Int) - d.toNat) else memcmp n x y
  | _ + 1, _, _ => none

/-! ## The order -/

/-- The difference of the bytes where two strings first differ; a string that ends
has a zero there. -/
def order : List UInt8 → List UInt8 → Int
  | [], [] => 0
  | [], d :: _ => -d.toNat
  | c :: _, [] => c.toNat
  | c :: a, d :: b => if c = d then order a b else (c.toNat : Int) - d.toNat

theorem order_swap (a b : List UInt8) : order b a = -order a b := by
  induction a generalizing b with
  | nil => cases b <;> simp [order]
  | cons c a ih =>
    cases b with
    | nil => rfl
    | cons d b =>
      rw [order, order]
      by_cases hcd : c = d
      · rw [if_pos hcd, if_pos hcd.symm, ih]
      · rw [if_neg hcd, if_neg (Ne.symm hcd), Int.neg_sub]

theorem toNat_pos {c : UInt8} (h : c ≠ 0) : 0 < c.toNat := by
  rw [Nat.pos_iff_ne_zero]
  intro h0
  exact h (UInt8.toNat_inj.1 h0)

/-- It is negative exactly if the first string is lower. -/
theorem order_neg_iff {a b : List UInt8} (hb : 0 ∉ b) : order a b < 0 ↔ a < b := by
  induction a generalizing b with
  | nil =>
    cases b with
    | nil => simp [order]
    | cons d b =>
      rw [List.mem_cons, not_or] at hb
      have hd := toNat_pos (Ne.symm hb.1)
      simp only [order, List.nil_lt_cons, iff_true]
      omega
  | cons c a ih =>
    cases b with
    | nil =>
      simp only [order, List.not_lt_nil, iff_false]
      omega
    | cons d b =>
      rw [List.mem_cons, not_or] at hb
      rw [order, List.cons_lt_cons_iff]
      by_cases hcd : c = d
      · rw [if_pos hcd, ih hb.2]
        subst hcd
        simp
      · rw [if_neg hcd, UInt8.lt_iff_toNat_lt]
        simp only [hcd, false_and, or_false]
        omega

theorem order_eq_zero_iff {a b : List UInt8} (ha : 0 ∉ a) (hb : 0 ∉ b) : order a b = 0 ↔ a = b := by
  induction a generalizing b with
  | nil =>
    cases b with
    | nil => simp [order]
    | cons d b =>
      rw [List.mem_cons, not_or] at hb
      have hd := toNat_pos (Ne.symm hb.1)
      simp only [order, List.nil_eq, List.cons_ne_nil, iff_false]
      omega
  | cons c a ih =>
    rw [List.mem_cons, not_or] at ha
    cases b with
    | nil =>
      have hc := toNat_pos (Ne.symm ha.1)
      simp only [order, List.cons_ne_nil, iff_false]
      omega
    | cons d b =>
      rw [List.mem_cons, not_or] at hb
      rw [order, List.cons.injEq]
      by_cases hcd : c = d
      · rw [if_pos hcd, ih ha.2 hb.2]
        simp [hcd]
      · have hne : c.toNat ≠ d.toNat := fun h => hcd (UInt8.toNat_inj.1 h)
        rw [if_neg hcd]
        simp only [hcd, false_and, iff_false]
        omega

/-- It is decided by the bytes up to the end of the shorter string. -/
theorem order_take {a b : List UInt8} {n : Nat} (h : a.length < n ∨ b.length < n) :
    order (a.take n) (b.take n) = order a b := by
  induction n generalizing a b with
  | zero => omega
  | succ n ih =>
    cases a with
    | nil => cases b <;> rfl
    | cons c a =>
      cases b with
      | nil => rfl
      | cons d b =>
        simp only [List.length_cons] at h
        rw [List.take_succ_cons, List.take_succ_cons, order, order, ih (by omega)]

/-! ## The three functions compute it -/

/-- `strcmp` reads as far as the first difference or the zero that ends both strings. -/
theorem strcmp_eq {a b : List UInt8} (ha : 0 ∉ a) (hb : 0 ∉ b) (x y : List UInt8) :
    strcmp (a ++ 0 :: x) (b ++ 0 :: y) = some (order a b) := by
  induction a generalizing b with
  | nil => cases b <;> simp [strcmp, order]
  | cons c a ih =>
    rw [List.mem_cons, not_or] at ha
    cases b with
    | nil => simp [strcmp, order, Ne.symm ha.1]
    | cons d b =>
      rw [List.mem_cons, not_or] at hb
      rw [List.cons_append, List.cons_append, strcmp, order]
      by_cases hcd : c = d
      · rw [if_pos ⟨Ne.symm ha.1, hcd⟩, if_pos hcd, ih ha.2 hb.2]
      · rw [if_neg (fun h => hcd h.2), if_neg hcd]

theorem strncmp_eq {a b : List UInt8} (ha : 0 ∉ a) (hb : 0 ∉ b) (n : Nat) (x y : List UInt8) :
    strncmp n (a ++ 0 :: x) (b ++ 0 :: y) = some (order (a.take n) (b.take n)) := by
  induction n generalizing a b with
  | zero => rfl
  | succ n ih =>
    cases a with
    | nil =>
      cases b with
      | nil => simp [strncmp, order]
      | cons d b =>
        rw [List.mem_cons, not_or] at hb
        simp [strncmp, order, hb.1]
    | cons c a =>
      rw [List.mem_cons, not_or] at ha
      cases b with
      | nil => simp [strncmp, order, Ne.symm ha.1]
      | cons d b =>
        rw [List.mem_cons, not_or] at hb
        rw [List.cons_append, List.cons_append, strncmp, List.take_succ_cons, List.take_succ_cons, order]
        by_cases hcd : c = d
        · rw [if_neg (not_not.2 hcd), if_neg (Ne.symm ha.1), if_pos hcd, ih ha.2 hb.2]
        · rw [if_pos hcd, if_neg hcd]

/-- Without a zero among the first `n` bytes of the first region the extra test of
`strncmp` never stops it. -/
theorem memcmp_eq {n : Nat} {x y : List UInt8} (hx : 0 ∉ x.take n) : memcmp n x y = strncmp n x y := by
  induction n generalizing x y with
  | zero => rfl
  | succ n ih =>
    cases x with
    | nil => rfl
    | cons c x =>
      cases y with
      | nil => rfl
      | cons d y =>
        rw [List.take_succ_cons, List.mem_cons, not_or] at hx
        rw [memcmp, strncmp, if_neg (Ne.symm hx.1), ih hx.2]

theorem memcmp_returns {n : Nat} {x y : List UInt8} (hx : n ≤ x.length) (hy : n ≤ y.length) :
    ∃ d, memcmp n x y = some d := by
  induction n generalizing x y with
  | zero => exact ⟨0, rfl⟩
  | succ n ih =>
    cases x with
    | nil => simp at hx
    | cons c x =>
      cases y with
      | nil => simp at hy
      | cons d y =>
        rw [List.length_cons] at hx hy
        rw [memcmp]
        split_ifs
        · exact ⟨_, rfl⟩
        · exact ih (by omega) (by omega)

/-! ## Where they stop -/

/-- At the first difference or zero, whatever is behind it. -/
theorem strcmp_stops {p : List UInt8} {c d : UInt8} (hp : 0 ∉ p) (h : c ≠ d ∨ c = 0) (x y : List UInt8) :
    strcmp (p ++ c :: x) (p ++ d :: y) = some ((c.toNat : Int) - d.toNat) := by
  induction p with
  | nil =>
    rw [List.nil_append, List.nil_append, strcmp, if_neg]
    rintro ⟨h0, hcd⟩
    exact h.elim (fun hne => hne hcd) h0
  | cons e p ih =>
    rw [List.mem_cons, not_or] at hp
    rw [List.cons_append, List.cons_append, strcmp, if_pos ⟨Ne.symm hp.1, rfl⟩, ih hp.2]

theorem strncmp_stops {n : Nat} {p : List UInt8} {c d : UInt8} (hp : 0 ∉ p) (hn : p.length < n) (h : c ≠ d ∨ c = 0)
    (x y : List UInt8) : strncmp n (p ++ c :: x) (p ++ d :: y) = some ((c.toNat : Int) - d.toNat) := by
  induction n generalizing p with
  | zero => omega
  | succ n ih =>
    cases p with
    | nil =>
      rw [List.nil_append, List.nil_append, strncmp]
      by_cases hcd : c = d
      · rw [if_neg (not_not.2 hcd), if_pos (h.resolve_left (not_not.2 hcd)), hcd, Int.sub_self]
      · rw [if_pos hcd]
    | cons e p =>
      rw [List.mem_cons, not_or] at hp
      rw [List.length_cons] at hn
      rw [List.cons_append, List.cons_append, strncmp, if_neg (by simp), if_neg (Ne.symm hp.1), ih hp.2 (by omega)]

/-- The string that ends after at most `n` bytes. -/
def cut (n : Nat) (s : CStr) : CStr := .ofText (s.text.take n)

theorem text_cut (n : Nat) (s : CStr) : (cut n s).text = s.text.take n :=
  CStr.text_ofText fun h => s.zero_notMem (List.mem_of_mem_take h)

theorem strcmp_mem (s t : CStr) : strcmp s.mem t.mem = some (order s.text t.text) := by
  rw [s.mem_eq, t.mem_eq, strcmp_eq s.zero_notMem t.zero_notMem]

theorem strncmp_mem (n : Nat) (s t : CStr) :
    strncmp n s.mem t.mem = some (order (s.text.take n) (t.text.take n)) := by
  rw [s.mem_eq, t.mem_eq, strncmp_eq s.zero_notMem t.zero_notMem]

/-! ## One order -/

/-- `strcmp` does not put the first string behind the second. -/
def Below (s t : CStr) : Prop := ∃ d ≤ 0, strcmp s.mem t.mem = some d

theorem below_iff (s t : CStr) : Below s t ↔ s.text < t.text ∨ s.text = t.text := by
  rw [← order_neg_iff t.zero_notMem, ← order_eq_zero_iff s.zero_notMem t.zero_notMem, ← Int.le_iff_lt_or_eq]
  constructor
  · rintro ⟨d, hd, h⟩
    rw [strcmp_mem] at h
    cases h
    exact hd
  · intro h
    exact ⟨_, h, strcmp_mem s t⟩

theorem Below.trans {s t u : CStr} (hst : Below s t) (htu : Below t u) : Below s u := by
  rw [below_iff] at *
  rcases hst with hst | hst
  · rcases htu with htu | htu
    · exact .inl (List.lt_trans hst htu)
    · exact .inl (htu ▸ hst)
  · rwa [hst]

/-- For all strings, all regions and every `n`. `strcmp` returns, its sign is the
lexicographic comparison, it is antisymmetric and transitive. `strncmp` is `strcmp`
on the strings cut to `n` bytes, and `strcmp` itself if one of them is shorter than
`n`; `memcmp` is `strncmp` on regions without a zero. `strcmp` and `strncmp` return
the same if nothing can be read behind the first difference or the end. -/
theorem comparisons_agree (s t u : CStr) (n : Nat) :
    (∃ d, strcmp s.mem t.mem = some d ∧ (d < 0 ↔ s.text < t.text) ∧ (d = 0 ↔ s.text = t.text) ∧
      (0 < d ↔ t.text < s.text) ∧ strcmp t.mem s.mem = some (-d)) ∧
    (Below s t → Below t u → Below s u) ∧
    strncmp n s.mem t.mem = strcmp (cut n s).mem (cut n t).mem ∧
    (s.text.length < n ∨ t.text.length < n → strncmp n s.mem t.mem = strcmp s.mem t.mem) ∧
    (∀ x y : List UInt8, 0 ∉ x.take n → 0 ∉ y.take n → memcmp n x y = strncmp n x y ∧
      (n ≤ x.length → n ≤ y.length → ∃ d, memcmp n x y = some d)) ∧
    ∀ (p : List UInt8) (c d : UInt8), 0 ∉ p → (c ≠ d ∨ c = 0) → ∀ x y : List UInt8,
      (∃ v, strcmp (p ++ [c]) (p ++ [d]) = some v ∧ strcmp (p ++ c :: x) (p ++ d :: y) = some v) ∧
      (p.length < n → ∃ v, strncmp n (p ++ [c]) (p ++ [d]) = some v ∧ strncmp n (p ++ c :: x)
        (p ++ d :: y) = some v) := by
  refine ⟨⟨order s.text t.text, strcmp_mem s t, order_neg_iff t.zero_notMem,
    order_eq_zero_iff s.zero_notMem t.zero_notMem, ?_, ?_⟩, Below.trans, ?_, fun h => ?_, fun x y hx _ =>
      ⟨memcmp_eq hx, memcmp_returns⟩, fun p c d hp hcd x y => ⟨?_, ?_⟩⟩
  · rw [← order_neg_iff s.zero_notMem, order_swap]
    omega
  · rw [strcmp_mem, order_swap]
  · rw [strncmp_mem, strcmp_mem, text_cut, text_cut]
  · rw [strncmp_mem, strcmp_mem, order_take h]
  · exact ⟨_, strcmp_stops hp hcd [] [], strcmp_stops hp hcd x y⟩
  · intro hn
    exact ⟨_, strncmp_stops hp hn hcd [] [], strncmp_stops hp hn hcd x y⟩

/-- A string and one that goes on, with a byte above 127. -/
theorem comparisons_agree_prefix :
    strncmp 2 (CStr.ofText [97]).mem (CStr.ofText [97, 200]).mem = some (-200) ∧
      strncmp 2 (CStr.ofText [97]).mem (CStr.ofText [97, 200]).mem =
        strcmp (CStr.ofText [97]).mem (CStr.ofText [97, 200]).mem :=
  ⟨by decide, (comparisons_agree (.ofText [97]) (.ofText [97, 200]) (.ofText []) 2).2.2.2.1 (.inl (by decide))⟩

end LibNeoos.Cstring
