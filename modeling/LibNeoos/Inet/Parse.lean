import LibNeoos.Lib.Bytes
import LibNeoos.Lib.CStr
import LibNeoos.Lib.Numeral
/-!
# `inet_addr`

The parser of `socket.c` reads four decimal fields with one cursor. The limits on the
number of digits and on the value are tested after every digit, the dot only between
fields and the end only behind the last. It accepts exactly the dotted quads, and
never reads past the end of the string.
-/

namespace LibNeoos.Inet

open Lib

/-! ## The code -/

def htonl (v : BitVec 32) : BitVec 32 :=
  ((v &&& 0x000000FF) <<< 24) ||| ((v &&& 0x0000FF00) <<< 8) ||| ((v &&& 0x00FF0000) >>> 8) |||
    ((v &&& 0xFF000000) >>> 24)

def ntohl (v : BitVec 32) : BitVec 32 := htonl v

/-- What a part of `inet_addr` does: it reads where nothing can be read, it makes the
function return `0xFFFFFFFF`, or it goes on. -/
inductive Parse (α : Type) where
  | fault
  | reject
  | next (a : α)

/-- The loop over the digits of one field. -/
def digits_loop (v : BitVec 32) (digits : Nat) : List UInt8 → Parse (BitVec 32 × List UInt8)
  | [] => .fault
  | c :: s =>
    if isDigit c then
      let v := v * 10 + BitVec.ofNat 32 (c.toNat - 48)
      if digits + 1 > 3 ∨ v > 255 then .reject else digits_loop v (digits + 1) s
    else .next (v, c :: s)

/-- One field. -/
def field : List UInt8 → Parse (BitVec 32 × List UInt8)
  | [] => .fault
  | c :: s => if ¬ isDigit c then .reject else digits_loop 0 0 (c :: s)

/-- The loop over the fields, with `n` of them to go. -/
def fields_loop (parts : List (BitVec 32)) : Nat → List UInt8 → Parse (List (BitVec 32) × List UInt8)
  | 0, s => .next (parts, s)
  | n + 1, s =>
    match field s with
    | .fault => .fault
    | .reject => .reject
    | .next (v, s) =>
      if n = 0 then fields_loop (parts ++ [v]) n s
      else
        match s with
        | [] => .fault
        | c :: s => if c ≠ 46 then .reject else fields_loop (parts ++ [v]) n s

/-- `inet_addr`; `none` if it reads where nothing can be read. -/
def inet_addr (s : List UInt8) : Option (BitVec 32) :=
  match fields_loop [] 4 s with
  | .fault => none
  | .reject => some 0xFFFFFFFF
  | .next (parts, s) =>
    match s with
    | [] => none
    | c :: _ =>
      if c ≠ 0 then some 0xFFFFFFFF
      else some (htonl ((parts.getD 0 0 <<< 24) ||| (parts.getD 1 0 <<< 16) |||
        (parts.getD 2 0 <<< 8) ||| parts.getD 3 0))

/-! ## Dotted quads -/

/-- One to three digits with a value of at most 255. -/
structure Field (f : List UInt8) : Prop where
  digits : ∀ c ∈ f, isDigit c
  ne_nil : f ≠ []
  length_le : f.length ≤ 3
  value_le : decimal f ≤ 255

instance (f : List UInt8) : Decidable (Field f) :=
  decidable_of_iff ((∀ c ∈ f, isDigit c) ∧ f ≠ [] ∧ f.length ≤ 3 ∧ decimal f ≤ 255)
    ⟨fun ⟨h₁, h₂, h₃, h₄⟩ => ⟨h₁, h₂, h₃, h₄⟩, fun ⟨h₁, h₂, h₃, h₄⟩ => ⟨h₁, h₂, h₃, h₄⟩⟩

/-- The fields with a dot between each two. -/
def dotted : List (List UInt8) → List UInt8
  | [] => []
  | [f] => f
  | f :: g :: fs => f ++ 46 :: dotted (g :: fs)

/-- Four fields. -/
structure Quad where
  fields : List (List UInt8)
  four : fields.length = 4
  valid : ∀ f ∈ fields, Field f

def Quad.text (q : Quad) : List UInt8 := dotted q.fields

/-- The address in network order: the first field is the byte at the lowest address. -/
def Quad.addr (q : Quad) : BitVec 32 := BitVec.ofNat 32 (Nat.ofDigits 256 (q.fields.map decimal))

/-! ## One field -/

theorem dot_not_digit : ¬ isDigit 46 := by decide

theorem zero_not_digit : ¬ isDigit 0 := by decide

/-- The loop behind the digits `p`, with `f` the digits to come. -/
theorem digits_loop_behind {f : List UInt8} (hf : ∀ c ∈ f, isDigit c) {x : UInt8} (hx : ¬ isDigit x) (r p : List UInt8)
    (hp : p.length ≤ 3 ∧ decimal p ≤ 255) :
    digits_loop (BitVec.ofNat 32 (decimal p)) p.length (f ++ x :: r) =
      if (p ++ f).length ≤ 3 ∧ decimal (p ++ f) ≤ 255 then .next (BitVec.ofNat 32 (decimal (p ++ f)), x :: r)
      else .reject := by
  induction f generalizing p with
  | nil => rw [List.append_nil, if_pos hp, List.nil_append, digits_loop, if_neg hx]
  | cons c f ih =>
    have hc := hf c (List.mem_cons_self ..)
    have hlt := digitVal_lt hc
    have hnext : BitVec.ofNat 32 (decimal p) * 10 + BitVec.ofNat 32 (c.toNat - 48) =
        BitVec.ofNat 32 (decimal (p ++ [c])) := by
      rw [decimal_snoc, BitVec.ofNat_add, BitVec.ofNat_mul]
      rfl
    have hgt : BitVec.ofNat 32 (decimal (p ++ [c])) > 255 ↔ 255 < decimal (p ++ [c]) := by
      rw [gt_iff_lt, BitVec.lt_def, BitVec.toNat_ofNat, Nat.mod_eq_of_lt]
      · rfl
      · rw [decimal_snoc]
        omega
    have hsplit : p ++ c :: f = (p ++ [c]) ++ f := by simp
    rw [List.cons_append, digits_loop, if_pos hc]
    simp only [hnext, hgt]
    by_cases hover : p.length + 1 > 3 ∨ 255 < decimal (p ++ [c])
    · -- too long or too large already, and it stays so
      have hmono := decimal_le_append (p ++ [c]) f
      rw [if_pos hover, if_neg]
      rw [hsplit, List.length_append, List.length_append, List.length_singleton]
      omega
    · rw [if_neg hover, hsplit, ← ih (fun d hd => hf d (List.mem_cons_of_mem _ hd)) (p ++ [c])]
      · rw [List.length_append, List.length_singleton]
      · rw [List.length_append, List.length_singleton]
        omega

theorem field_cons {c : UInt8} (hc : isDigit c) (s : List UInt8) : field (c :: s) = digits_loop 0 0 (c :: s) := by
  rw [field, if_neg (not_not.2 hc)]

/-- A field in front of another byte. -/
theorem field_eq {f : List UInt8} (hf : Field f) {x : UInt8} (hx : ¬ isDigit x) (r : List UInt8) :
    field (f ++ x :: r) = .next (BitVec.ofNat 32 (decimal f), x :: r) := by
  have hloop := digits_loop_behind hf.digits hx r [] (by decide)
  rw [List.nil_append, if_pos ⟨hf.length_le, hf.value_le⟩] at hloop
  rw [← hloop]
  cases f with
  | nil => exact absurd rfl hf.ne_nil
  | cons c f => exact field_cons (hf.digits c (List.mem_cons_self ..)) _

/-- A string begins with its digits, and behind them is another byte. -/
theorem digits_prefix (t r : List UInt8) :
    ∃ f u x r', t = f ++ u ∧ (∀ c ∈ f, isDigit c) ∧ u ++ 0 :: r = x :: r' ∧ ¬ isDigit x := by
  induction t with
  | nil => exact ⟨[], [], 0, r, rfl, fun c hc => absurd hc List.not_mem_nil, rfl, zero_not_digit⟩
  | cons c t ih =>
    by_cases hc : isDigit c
    · obtain ⟨f, u, x, r', ht, hf, hu, hx⟩ := ih
      refine ⟨c :: f, u, x, r', ?_, List.forall_mem_cons.2 ⟨hc, hf⟩, hu, hx⟩
      rw [ht, List.cons_append]
    · exact ⟨[], c :: t, c, t ++ 0 :: r, rfl, fun d hd => absurd hd List.not_mem_nil, rfl, hc⟩

/-- What `field` does with a string. -/
theorem field_cases (t r : List UInt8) :
    field (t ++ 0 :: r) = .reject ∨ ∃ f u, t = f ++ u ∧ Field f ∧
      field (t ++ 0 :: r) = .next (BitVec.ofNat 32 (decimal f), u ++ 0 :: r) := by
  obtain ⟨f, u, x, r', rfl, hf, hu, hx⟩ := digits_prefix t r
  rw [List.append_assoc, hu]
  by_cases hfield : Field f
  · exact .inr ⟨f, u, rfl, hfield, by rw [field_eq hfield hx, hu]⟩
  · left
    cases f with
    | nil => rw [List.nil_append, field, if_pos hx]
    | cons c f =>
      have hloop := digits_loop_behind hf hx r' [] (by decide)
      rw [List.nil_append, if_neg fun h => hfield ⟨hf, by simp, h.1, h.2⟩] at hloop
      exact (field_cons (hf c (List.mem_cons_self ..)) _).trans hloop

/-! ## Four fields -/

/-- Fields with dots between them, in front of another byte. -/
theorem fields_loop_eq {fs : List (List UInt8)} (hfs : ∀ f ∈ fs, Field f) (hne : fs ≠ []) {x : UInt8} (hx : ¬ isDigit x)
    (r : List UInt8) (parts : List (BitVec 32)) :
    fields_loop parts fs.length (dotted fs ++ x :: r) =
      .next (parts ++ fs.map fun f => BitVec.ofNat 32 (decimal f), x :: r) := by
  induction fs generalizing parts with
  | nil => exact absurd rfl hne
  | cons f fs ih =>
    have hf := hfs f (List.mem_cons_self ..)
    cases fs with
    | nil =>
      rw [dotted, List.length_singleton, fields_loop, field_eq hf hx]
      rfl
    | cons g fs =>
      have hstep := ih (fun f' hf' => hfs f' (List.mem_cons_of_mem _ hf')) (by simp)
        (parts ++ [BitVec.ofNat 32 (decimal f)])
      rw [dotted, List.append_assoc, List.cons_append, List.length_cons, fields_loop, field_eq hf dot_not_digit]
      simp only [List.length_cons, Nat.add_one_ne_zero, if_false, ne_eq, not_true_eq_false] at hstep ⊢
      rw [hstep, List.append_assoc]
      rfl

/-- What the loop does with a string. -/
theorem fields_loop_cases (n : Nat) (t r : List UInt8) (parts : List (BitVec 32)) :
    fields_loop parts (n + 1) (t ++ 0 :: r) = .reject ∨ ∃ fs u, fs.length = n + 1 ∧ (∀ f ∈ fs, Field f) ∧
      t = dotted fs ++ u ∧
      fields_loop parts (n + 1) (t ++ 0 :: r) = .next (parts ++ fs.map fun f => BitVec.ofNat 32 (decimal f),
        u ++ 0 :: r) := by
  induction n generalizing t parts with
  | zero =>
    rcases field_cases t r with hrej | ⟨f, u, ht, hf, hfield⟩
    · left
      rw [fields_loop, hrej]
    · right
      refine ⟨[f], u, rfl, by simpa using hf, ht, ?_⟩
      rw [fields_loop, hfield]
      rfl
  | succ n ih =>
    rcases field_cases t r with hrej | ⟨f, u, ht, hf, hfield⟩
    · left
      rw [fields_loop, hrej]
    · rw [fields_loop, hfield]
      simp only [Nat.add_one_ne_zero, if_false]
      cases u with
      | nil =>
        left
        rfl
      | cons c u =>
        rw [List.cons_append]
        simp only
        by_cases hc : c = 46
        · subst hc
          rw [if_neg (by simp)]
          refine (ih u (parts ++ [BitVec.ofNat 32 (decimal f)])).imp_right ?_
          rintro ⟨fs, u', hlen, hfs, rfl, hloop⟩
          refine ⟨f :: fs, u', by rw [List.length_cons, hlen], List.forall_mem_cons.2 ⟨hf, hfs⟩, ?_, ?_⟩
          · cases fs with
            | nil => simp at hlen
            | cons g fs => rw [ht, dotted, List.append_assoc, List.cons_append]
          · rw [hloop, List.append_assoc, List.singleton_append, List.map_cons]
        · left
          rw [if_pos hc]

/-! ## Byte order -/

theorem toNat_htonl (v : BitVec 32) :
    (htonl v).toNat = v.toNat % 256 * 2 ^ 24 + v.toNat / 2 ^ 8 % 256 * 2 ^ 16 + v.toNat / 2 ^ 16 % 256 * 2 ^ 8 +
      v.toNat / 2 ^ 24 := by
  have hlt := v.isLt
  have h0 : ((v &&& 0x000000FF) <<< 24).toNat = v.toNat % 256 * 2 ^ 24 := by
    have hand : v.toNat &&& 255 = v.toNat / 2 ^ 0 % 256 * 2 ^ 0 := and_byte v.toNat 0
    simp only [BitVec.toNat_shiftLeft, BitVec.toNat_and, BitVec.reduceToNat, Nat.shiftLeft_eq, hand]
    omega
  have h1 : ((v &&& 0x0000FF00) <<< 8).toNat = v.toNat / 2 ^ 8 % 256 * 2 ^ 16 := by
    have hand : v.toNat &&& 65280 = v.toNat / 2 ^ 8 % 256 * 2 ^ 8 := and_byte v.toNat 8
    simp only [BitVec.toNat_shiftLeft, BitVec.toNat_and, BitVec.reduceToNat, Nat.shiftLeft_eq, hand]
    omega
  have h2 : ((v &&& 0x00FF0000) >>> 8).toNat = v.toNat / 2 ^ 16 % 256 * 2 ^ 8 := by
    have hand : v.toNat &&& 16711680 = v.toNat / 2 ^ 16 % 256 * 2 ^ 16 := and_byte v.toNat 16
    simp only [BitVec.toNat_ushiftRight, BitVec.toNat_and, BitVec.reduceToNat, Nat.shiftRight_eq_div_pow, hand]
    omega
  have h3 : ((v &&& 0xFF000000) >>> 24).toNat = v.toNat / 2 ^ 24 := by
    have hand : v.toNat &&& 4278190080 = v.toNat / 2 ^ 24 % 256 * 2 ^ 24 := and_byte v.toNat 24
    simp only [BitVec.toNat_ushiftRight, BitVec.toNat_and, BitVec.reduceToNat, Nat.shiftRight_eq_div_pow, hand]
    omega
  rw [htonl, BitVec.toNat_or, BitVec.toNat_or, BitVec.toNat_or, h0, h1, h2, h3, or_bytes (by omega) (by omega)
    (by omega)]

/-- The host-order value is put together from four bytes. -/
theorem toNat_assembled {a b c d : Nat} (ha : a < 256) (hb : b < 256) (hc : c < 256) (hd : d < 256) :
    ((BitVec.ofNat 32 a <<< 24) ||| (BitVec.ofNat 32 b <<< 16) |||
      (BitVec.ofNat 32 c <<< 8) ||| BitVec.ofNat 32 d).toNat =
      a * 2 ^ 24 + b * 2 ^ 16 + c * 2 ^ 8 + d := by
  have hshift : ∀ x k, x < 256 → k ≤ 24 → (BitVec.ofNat 32 x <<< k).toNat = x * 2 ^ k := by
    intro x k hx hk
    have hpow : 2 ^ k ≤ 2 ^ 24 := Nat.pow_le_pow_right (by decide) hk
    have hmul : x * 2 ^ k ≤ 255 * 2 ^ 24 := Nat.mul_le_mul (by omega) hpow
    rw [BitVec.toNat_shiftLeft, BitVec.toNat_ofNat, Nat.shiftLeft_eq, @Nat.mod_eq_of_lt x (2 ^ 32) (by omega),
      Nat.mod_eq_of_lt (by omega)]
  have hlow : (BitVec.ofNat 32 d).toNat = d := by
    rw [BitVec.toNat_ofNat]
    omega
  rw [BitVec.toNat_or, BitVec.toNat_or, BitVec.toNat_or, hshift a 24 ha (by decide), hshift b 16 hb (by decide),
    hshift c 8 hc (by decide), hlow, or_bytes hb hc hd]

theorem htonl_assembled {a b c d : Nat} (ha : a < 256) (hb : b < 256) (hc : c < 256) (hd : d < 256) :
    htonl ((BitVec.ofNat 32 a <<< 24) ||| (BitVec.ofNat 32 b <<< 16) |||
      (BitVec.ofNat 32 c <<< 8) ||| BitVec.ofNat 32 d) =
      BitVec.ofNat 32 (Nat.ofDigits 256 [a, b, c, d]) := by
  apply BitVec.eq_of_toNat_eq
  obtain ⟨h₀, h₁, h₂, h₃⟩ := @bytes_of_sum a b c d hb hc hd
  rw [toNat_htonl, toNat_assembled ha hb hc hd, h₀, h₁, h₂, h₃, BitVec.toNat_ofNat, ofDigits_four]
  omega

/-! ## All strings -/

theorem Quad.decimal_lt (q : Quad) : ∀ f ∈ q.fields, decimal f < 256 := by
  intro f hf
  exact Nat.lt_succ_of_le (q.valid f hf).value_le

theorem inet_addr_quad (q : Quad) (r : List UInt8) : inet_addr (q.text ++ 0 :: r) = some q.addr := by
  have hlt := q.decimal_lt
  obtain ⟨fs, hlen, hfs⟩ := q
  obtain ⟨f₀, f₁, f₂, f₃, rfl⟩ := List.length_eq_four.1 hlen
  have hloop := fields_loop_eq hfs (by simp) zero_not_digit r []
  rw [Quad.text, Quad.addr, inet_addr]
  rw [hlen] at hloop
  rw [hloop]
  simp only [ne_eq, not_true_eq_false, if_false]
  exact congrArg some (htonl_assembled (hlt f₀ (by simp)) (hlt f₁ (by simp)) (hlt f₂ (by simp)) (hlt f₃ (by simp)))

/-- For every string, whatever is behind its end: `inet_addr` returns the address of a
dotted quad, and `0xFFFFFFFF` for everything else. -/
theorem inet_addr_exact (s : CStr) :
    (∀ q : Quad, s.text = q.text → inet_addr s.mem = some q.addr) ∧
    ((¬ ∃ q : Quad, s.text = q.text) → inet_addr s.mem = some 0xFFFFFFFF) := by
  rw [s.mem_eq]
  constructor
  · intro q hq
    rw [hq, inet_addr_quad]
  · intro hno
    rcases fields_loop_cases 3 s.text s.behind [] with hrej | ⟨fs, u, hlen, hfs, ht, hloop⟩
    · rw [inet_addr, hrej]
    · rw [inet_addr, hloop]
      cases u with
      | nil => exact absurd ⟨⟨fs, hlen, hfs⟩, by rw [ht, List.append_nil]; rfl⟩ hno
      | cons c u =>
        have hc : c ≠ 0 := by
          rintro rfl
          apply s.zero_notMem
          rw [ht]
          simp
        exact if_pos hc

/-- `127.0.0.1` -/
theorem inet_addr_exact_loopback :
    inet_addr (CStr.ofText [49, 50, 55, 46, 48, 46, 48, 46, 49]).mem = some 0x0100007F :=
  (inet_addr_exact _).1 ⟨[[49, 50, 55], [48], [48], [49]], rfl, by decide⟩ (by decide)

/-- `1.2.3` -/
example : inet_addr [49, 46, 50, 46, 51, 0] = some 0xFFFFFFFF := by decide

end LibNeoos.Inet
