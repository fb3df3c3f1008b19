import Mathlib.Data.Nat.Digits.Lemmas
/-!
# Numerals

Numbers as lists of digits, the most significant first, and as text. `numeral b n`
is the one list without a redundant zero in front that has the value `n`; a list with
redundant zeros has the value of the list without them (`numeral_value`).
-/

namespace LibNeoos.Lib

/-! ## Redundant zeros -/

/-- The list without the zeros in front that the value does not need. -/
def strip {α : Type} [DecidableEq α] (z : α) : List α → List α
  | a :: b :: l => if a = z then strip z (b :: l) else a :: b :: l
  | l => l

theorem strip_map {α β : Type} [DecidableEq α] [DecidableEq β] {z : α} {y : β} {f : α → β} {l : List α}
    (h : ∀ a ∈ l, f a = y ↔ a = z) : strip y (l.map f) = (strip z l).map f := by
  induction l with
  | nil => rfl
  | cons a l ih =>
    cases l with
    | nil => rfl
    | cons b l =>
      have ih := ih fun c hc => h c (List.mem_cons_of_mem _ hc)
      simp only [List.map_cons, strip, h a (List.mem_cons_self ..)] at ih ⊢
      by_cases ha : a = z
      · rw [if_pos ha, if_pos ha, ih]
      · rw [if_neg ha, if_neg ha, List.map_cons, List.map_cons]

/-- What is left begins with `z` only if nothing follows. -/
theorem length_strip_of_head {α : Type} [DecidableEq α] {z : α} {l : List α} (h : (strip z l).head? = some z) :
    (strip z l).length = 1 := by
  induction l with
  | nil => cases h
  | cons a l ih =>
    cases l with
    | nil => rfl
    | cons b l =>
      by_cases ha : a = z
      · rw [strip, if_pos ha] at h ⊢
        exact ih h
      · rw [strip, if_neg ha] at h
        exact absurd (Option.some.inj h) ha

theorem strip_of_head {α : Type} [DecidableEq α] {z : α} {l : List α} (h : l.head? = some z → l.length = 1) :
    strip z l = l := by
  cases l with
  | nil => rfl
  | cons a l =>
    cases l with
    | nil => rfl
    | cons b l =>
      have ha : a ≠ z := by
        rintro rfl
        cases h rfl
      rw [strip, if_neg ha]

/-! ## Values and numerals -/

/-- The value of a list of digits. -/
def value (b : Nat) (ds : List Nat) : Nat := Nat.ofDigits b ds.reverse

/-- How a loop over the digits computes the value. -/
theorem value_snoc (b : Nat) (ds : List Nat) (d : Nat) : value b (ds ++ [d]) = value b ds * b + d := by
  rw [value, List.reverse_append, List.reverse_singleton, List.singleton_append, Nat.ofDigits_cons, Nat.mul_comm,
    Nat.add_comm]
  rfl

theorem value_zero_cons (b : Nat) (ds : List Nat) : value b (0 :: ds) = value b ds := by
  rw [value, List.reverse_cons, Nat.ofDigits_append]
  simp [value]

/-- The digits of a number, with no redundant zero. -/
def numeral (b n : Nat) : List Nat := if n = 0 then [0] else (Nat.digits b n).reverse

theorem numeral_of_lt {b n : Nat} (h : n < b) : numeral b n = [n] := by
  unfold numeral
  split_ifs with h0
  · rw [h0]
  · rw [Nat.digits_of_lt b n h0 h]
    rfl

theorem numeral_of_ge {b n : Nat} (hb : 1 < b) (h : b ≤ n) : numeral b n = numeral b (n / b) ++ [n % b] := by
  have hn : 0 < n := by omega
  have hdiv : n / b ≠ 0 := by
    rw [Ne, Nat.div_eq_zero_iff]
    omega
  rw [numeral, if_neg (by omega), numeral, if_neg hdiv, Nat.digits_def' hb hn, List.reverse_cons]

theorem numeral_ne_nil (b n : Nat) : numeral b n ≠ [] := by
  unfold numeral
  split_ifs with h0
  · simp
  · simpa [Nat.digits_eq_nil_iff_eq_zero] using h0

theorem mem_numeral_lt {b n d : Nat} (hb : 1 < b) (h : d ∈ numeral b n) : d < b := by
  unfold numeral at h
  split_ifs at h with h0
  · rw [List.mem_singleton] at h
    omega
  · exact Nat.digits_lt_base hb (List.mem_reverse.1 h)

theorem numeral_length_le {b n k : Nat} (hb : 1 < b) (hk : 0 < k) (h : n < b ^ k) : (numeral b n).length ≤ k := by
  unfold numeral
  split_ifs with h0
  · exact hk
  · rw [List.length_reverse]
    exact (Nat.digits_length_le_iff hb n).2 h

theorem value_numeral (b n : Nat) : value b (numeral b n) = n := by
  unfold numeral
  split_ifs with h0
  · rw [h0]
    exact Nat.ofDigits_singleton
  · rw [value, List.reverse_reverse, Nat.ofDigits_digits]

/-- Every list of digits denotes what it denotes without redundant zeros. -/
theorem numeral_value {b : Nat} (hb : 1 < b) {ds : List Nat} (hne : ds ≠ []) (hlt : ∀ d ∈ ds, d < b) :
    numeral b (value b ds) = strip 0 ds := by
  induction ds with
  | nil => exact absurd rfl hne
  | cons d ds ih =>
    have hd := hlt d (List.mem_cons_self ..)
    have hds : ∀ e ∈ ds, e < b := fun e he => hlt e (List.mem_cons_of_mem _ he)
    cases ds with
    | nil =>
      have hv : value b [d] = d := Nat.ofDigits_singleton
      rw [hv, numeral_of_lt hd]
      rfl
    | cons e ds =>
      rw [strip]
      by_cases h0 : d = 0
      · rw [if_pos h0, h0, value_zero_cons, ih (by simp) hds]
      · rw [if_neg h0]
        have hdigits : Nat.digits b (value b (d :: e :: ds)) = (d :: e :: ds).reverse := by
          apply Nat.digits_ofDigits b hb
          · intro x hx
            exact hlt x (List.mem_reverse.1 hx)
          · intro h
            rw [List.getLast_reverse]
            exact h0
        have hpos : value b (d :: e :: ds) ≠ 0 := by
          intro hv
          rw [hv, Nat.digits_zero] at hdigits
          simp at hdigits
        rw [numeral, if_neg hpos, hdigits, List.reverse_reverse]

/-! ## Text -/

/-- The character of a digit; those from ten on are letters. -/
def digitChar (d : Nat) : UInt8 := if d < 10 then UInt8.ofNat (48 + d) else UInt8.ofNat (87 + d)

/-- The number as text. -/
def text (b n : Nat) : List UInt8 := (numeral b n).map digitChar

def isDigit (c : UInt8) : Prop := 48 ≤ c ∧ c ≤ 57

instance (c : UInt8) : Decidable (isDigit c) := inferInstanceAs (Decidable (_ ∧ _))

-- by the bytes of the list, not by all bytes there are
instance (s : List UInt8) : Decidable (∀ c ∈ s, isDigit c) := @List.decidableBAll UInt8 isDigit _ s

theorem isDigit_iff (c : UInt8) : isDigit c ↔ 48 ≤ c.toNat ∧ c.toNat ≤ 57 := by
  rw [isDigit, UInt8.le_iff_toNat_le, UInt8.le_iff_toNat_le]
  rfl

def digitVal (c : UInt8) : Nat := c.toNat - 48

/-- The value of a decimal text. -/
def decimal (s : List UInt8) : Nat := value 10 (s.map digitVal)

@[simp] theorem decimal_nil : decimal [] = 0 := rfl

theorem decimal_snoc (s : List UInt8) (c : UInt8) : decimal (s ++ [c]) = decimal s * 10 + digitVal c := by
  rw [decimal, List.map_append, List.map_singleton, value_snoc]
  rfl

/-- More digits do not make the value smaller. -/
theorem decimal_le_append (s t : List UInt8) : decimal s ≤ decimal (s ++ t) := by
  induction t generalizing s with
  | nil => rw [List.append_nil]
  | cons c t ih =>
    have hnext := ih (s ++ [c])
    rw [decimal_snoc, List.append_assoc, List.singleton_append] at hnext
    omega

theorem digitVal_lt {c : UInt8} (h : isDigit c) : digitVal c < 10 := by
  rw [isDigit_iff] at h
  unfold digitVal
  omega

theorem toNat_digitChar {d : Nat} (h : d < 10) : (digitChar d).toNat = 48 + d := by
  rw [digitChar, if_pos h, UInt8.toNat_ofNat', Nat.mod_eq_of_lt (by omega)]

theorem digitVal_digitChar {d : Nat} (h : d < 10) : digitVal (digitChar d) = d := by
  rw [digitVal, toNat_digitChar h]
  omega

theorem isDigit_digitChar {d : Nat} (h : d < 10) : isDigit (digitChar d) := by
  rw [isDigit_iff, toNat_digitChar h]
  omega

theorem digitChar_digitVal {c : UInt8} (h : isDigit c) : digitChar (digitVal c) = c := by
  apply UInt8.toNat_inj.1
  rw [toNat_digitChar (digitVal_lt h), digitVal]
  rw [isDigit_iff] at h
  omega

theorem text_digits (n : Nat) : ∀ c ∈ text 10 n, isDigit c := by
  intro c hc
  obtain ⟨d, hd, rfl⟩ := List.mem_map.1 hc
  exact isDigit_digitChar (mem_numeral_lt (by decide) hd)

theorem text_ne_nil (b n : Nat) : text b n ≠ [] := by
  simpa [text] using numeral_ne_nil b n

theorem text_length_le {n k : Nat} (hk : 0 < k) (h : n < 10 ^ k) : (text 10 n).length ≤ k := by
  rw [text, List.length_map]
  exact numeral_length_le (by decide) hk h

theorem map_map_cancel {α β : Type} {f : α → β} {g : β → α} {l : List α} (h : ∀ x ∈ l, g (f x) = x) :
    (l.map f).map g = l := by
  rw [List.map_map]
  conv_rhs => rw [← List.map_id l]
  exact List.map_congr_left h

/-- The text of a number has its value. -/
theorem decimal_text (n : Nat) : decimal (text 10 n) = n := by
  have hmap : (text 10 n).map digitVal = numeral 10 n := by
    apply map_map_cancel
    intro d hd
    exact digitVal_digitChar (mem_numeral_lt (by decide) hd)
  rw [decimal, hmap, value_numeral]

/-- The text of the value of a decimal text is that text without redundant zeros. -/
theorem text_decimal {s : List UInt8} (hne : s ≠ []) (hs : ∀ c ∈ s, isDigit c) : text 10 (decimal s) = strip 48 s := by
  have hmap : (s.map digitVal).map digitChar = s := by
    apply map_map_cancel
    intro c hc
    exact digitChar_digitVal (hs c hc)
  have hlt : ∀ d ∈ s.map digitVal, d < 10 := by
    intro d hd
    obtain ⟨c, hc, rfl⟩ := List.mem_map.1 hd
    exact digitVal_lt (hs c hc)
  rw [text, decimal, numeral_value (by decide) (by simpa using hne) hlt]
  have hzero : ∀ d ∈ s.map digitVal, digitChar d = 48 ↔ d = 0 := by
    intro d hd
    rw [← UInt8.toNat_inj, toNat_digitChar (hlt d hd)]
    simp
  rw [← strip_map hzero, hmap]

/-! ## Digits in either case -/

/-- The character of a digit, with capital letters or small ones. -/
def digitOf (upper : Bool) (d : Nat) : UInt8 := if upper ∧ 10 ≤ d then UInt8.ofNat (55 + d) else digitChar d

theorem digitOf_false : digitOf false = digitChar := by
  funext d
  exact if_neg (by simp)

/-- The value of a digit in either case. -/
def digitValue (c : UInt8) : Nat := if c < 65 then c.toNat - 48 else if c < 97 then c.toNat - 55 else c.toNat - 87

theorem digitValue_digitOf (upper : Bool) {d : Nat} (h : d < 16) : digitValue (digitOf upper d) = d := by
  have hall : ∀ u, ∀ d < 16, digitValue (digitOf u d) = d := by decide
  exact hall upper d h

theorem map_digitValue {b : Nat} (hb : b ≤ 16) (upper : Bool) {ds : List Nat} (h : ∀ d ∈ ds, d < b) :
    (ds.map (digitOf upper)).map digitValue = ds := by
  apply map_map_cancel
  intro d hd
  exact digitValue_digitOf upper (Nat.lt_of_lt_of_le (h d hd) hb)

/-- The text is a numeral in base `b` that denotes `n` and has no leading zero. -/
structure IsNumeral (upper : Bool) (b : Nat) (s : List UInt8) (n : Nat) : Prop where
  ne_nil : s ≠ []
  digits : ∀ c ∈ s, ∃ d < b, c = digitOf upper d
  canonical : s.head? = some 48 → s.length = 1
  denotes : value b (s.map digitValue) = n

theorem exists_digits {upper : Bool} {b : Nat} {s : List UInt8} (h : ∀ c ∈ s, ∃ d < b, c = digitOf upper d) :
    ∃ ds : List Nat, (∀ d ∈ ds, d < b) ∧ s = ds.map (digitOf upper) := by
  induction s with
  | nil => exact ⟨[], fun d hd => absurd hd List.not_mem_nil, rfl⟩
  | cons c s ih =>
    rw [List.forall_mem_cons] at h
    obtain ⟨⟨d, hd, rfl⟩, hs⟩ := h
    obtain ⟨ds, hds, rfl⟩ := ih hs
    exact ⟨d :: ds, List.forall_mem_cons.2 ⟨hd, hds⟩, rfl⟩

/-- The first digit is written as a zero only if it is one. -/
theorem head_digitOf {b : Nat} (hb : b ≤ 16) {upper : Bool} {ds : List Nat} (h : ∀ d ∈ ds, d < b) :
    (ds.map (digitOf upper)).head? = some 48 ↔ ds.head? = some 0 := by
  cases ds with
  | nil => simp
  | cons d ds =>
    have hd : d < 16 := Nat.lt_of_lt_of_le (h d (List.mem_cons_self ..)) hb
    simp only [List.map_cons, List.head?_cons, Option.some.injEq]
    constructor
    · intro h48
      rw [← digitValue_digitOf upper hd, h48]
      rfl
    · rintro rfl
      exact if_neg (by simp)

theorem length_numeral_of_head {b n : Nat} (hb : 1 < b) (h : (numeral b n).head? = some 0) :
    (numeral b n).length = 1 := by
  have hstrip := numeral_value hb (numeral_ne_nil b n) fun d => mem_numeral_lt hb
  rw [value_numeral] at hstrip
  rw [hstrip] at h ⊢
  exact length_strip_of_head h

/-- Every number has one numeral. -/
theorem isNumeral_iff {b : Nat} (hb : 1 < b) (hb16 : b ≤ 16) (upper : Bool) (s : List UInt8) (n : Nat) :
    IsNumeral upper b s n ↔ s = (numeral b n).map (digitOf upper) := by
  constructor
  · rintro ⟨hne, hdigits, hcanonical, hdenotes⟩
    obtain ⟨ds, hds, rfl⟩ := exists_digits hdigits
    rw [map_digitValue hb16 upper hds] at hdenotes
    have hstrip : strip 0 ds = ds := by
      apply strip_of_head
      intro hhead
      simpa using hcanonical ((head_digitOf hb16 hds).2 hhead)
    rw [← hdenotes, numeral_value hb (by simpa using hne) hds, hstrip]
  · rintro rfl
    have hlt : ∀ d ∈ numeral b n, d < b := fun d => mem_numeral_lt hb
    refine ⟨by simpa using numeral_ne_nil b n, ?_, ?_, ?_⟩
    · intro c hc
      obtain ⟨d, hd, rfl⟩ := List.mem_map.1 hc
      exact ⟨d, hlt d hd, rfl⟩
    · intro hhead
      rw [List.length_map]
      exact length_numeral_of_head hb ((head_digitOf hb16 hlt).1 hhead)
    · rw [map_digitValue hb16 upper hlt, value_numeral]

/-! ## Repeated division -/

/-- The loop that divides by the base and keeps the remainders, with room for `room`
more of them; the last one is the first of the list. -/
def divide (b : Nat) : Nat → Nat → List Nat → Option (List Nat)
  | 0, n, ds => if n > 0 then none else some ds
  | room + 1, n, ds => if n > 0 then divide b room (n / b) (n % b :: ds) else some ds

/-- The loop with a zero kept for the number 0. -/
def render (b room n : Nat) : Option (List Nat) :=
  let ds := if n = 0 then [0] else []
  divide b (room - ds.length) n ds

theorem divide_zero (b room : Nat) (ds : List Nat) : divide b room 0 ds = some ds := by
  cases room with
  | zero => rfl
  | succ room => rfl

/-- The remainders are the digits. -/
theorem divide_numeral {b : Nat} (hb : 1 < b) {room n : Nat} (hn : n > 0) (h : (numeral b n).length ≤ room)
    (ds : List Nat) : divide b room n ds = some (numeral b n ++ ds) := by
  induction room generalizing n ds with
  | zero => exact absurd (List.length_eq_zero_iff.1 (Nat.le_zero.1 h)) (numeral_ne_nil b n)
  | succ room ih =>
    rw [divide, if_pos hn]
    by_cases hlt : n < b
    · -- the last digit: the quotient is zero and the loop ends
      rw [Nat.div_eq_of_lt hlt, divide_zero, numeral_of_lt hlt, Nat.mod_eq_of_lt hlt]
      rfl
    · have hge : b ≤ n := Nat.le_of_not_lt hlt
      rw [numeral_of_ge hb hge, List.length_append, List.length_singleton] at h
      rw [ih (Nat.div_pos hge (by omega)) (by omega), numeral_of_ge hb hge, List.append_assoc]
      rfl

theorem render_numeral {b : Nat} (hb : 1 < b) {room n : Nat} (h : (numeral b n).length ≤ room) :
    render b room n = some (numeral b n) := by
  unfold render
  by_cases hn : n = 0
  · rw [if_pos hn, hn, divide_zero, numeral_of_lt (by omega)]
  · rw [if_neg hn]
    exact (divide_numeral hb (Nat.pos_of_ne_zero hn) h []).trans (congrArg some (List.append_nil _))

end LibNeoos.Lib
