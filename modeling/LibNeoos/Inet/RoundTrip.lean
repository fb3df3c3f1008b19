import LibNeoos.Inet.Parse
import LibNeoos.Lib.Cursor
/-!
# `inet_ntoa_r` and `inet_addr`

The writer puts the digits of each byte down by the thresholds 100 and 10; the parser
reads fields with any number of leading zeros. Through both, an address comes back as
it was, and a text without its redundant zeros.
-/

namespace LibNeoos.Inet

open Lib

/-! ## The code -/

/-- The loop of `inet_ntoa_r`, with the bytes below `8 * n` to go. -/
def ntoa_loop (h : BitVec 32) : Nat → Cursor → Option Cursor
  | 0, p => some p
  | i + 1, p => do
    let octet := ((h >>> (i * 8)) &&& 0xFF).toNat
    let p ← (if octet ≥ 100 then p.put (UInt8.ofNat (48 + octet / 100)) else some p)
    let p ← (if octet ≥ 10 then p.put (UInt8.ofNat (48 + octet / 10 % 10)) else some p)
    let p ← p.put (UInt8.ofNat (48 + octet % 10))
    let p ← (if i ≠ 0 then p.put 46 else some p)
    ntoa_loop h i p

/-- `inet_ntoa_r` with what it makes of the buffer; `none` if it stores outside. -/
def inet_ntoa_r (addr_n : BitVec 32) (out : List UInt8) : Option (List UInt8) := do
  let p ← ntoa_loop (ntohl addr_n) 4 (Cursor.start out)
  let p ← p.put 0
  return p.buf

/-! ## The canonical quad -/

theorem field_text {n : Nat} (h : n < 256) : Field (text 10 n) where
  digits := text_digits n
  ne_nil := text_ne_nil 10 n
  length_le := text_length_le (by decide) (by omega)
  value_le := by
    rw [decimal_text]
    omega

/-- The bytes of an address, from the lowest address on. -/
def bytes (a : BitVec 32) : List Nat :=
  [a.toNat % 256, a.toNat / 2 ^ 8 % 256, a.toNat / 2 ^ 16 % 256, a.toNat / 2 ^ 24]

theorem bytes_lt (a : BitVec 32) : ∀ n ∈ bytes a, n < 256 := by
  have hlt := a.isLt
  simp only [bytes, List.mem_cons, List.not_mem_nil, or_false]
  omega

theorem ofDigits_bytes (a : BitVec 32) : Nat.ofDigits 256 (bytes a) = a.toNat := by
  simp only [bytes, Nat.ofDigits_cons, Nat.ofDigits_nil]
  omega

/-- The quad with the bytes of an address. -/
def Quad.ofAddr (a : BitVec 32) : Quad where
  fields := (bytes a).map (Lib.text 10)
  four := rfl
  valid := by
    intro f hf
    obtain ⟨n, hn, rfl⟩ := List.mem_map.1 hf
    exact field_text (bytes_lt a n hn)

/-- The quad without its redundant zeros. -/
def Quad.stripped (q : Quad) : Quad where
  fields := q.fields.map (strip 48)
  four := by rw [List.length_map, q.four]
  valid := by
    intro f hf
    obtain ⟨g, hg, rfl⟩ := List.mem_map.1 hf
    have hfield := q.valid g hg
    rw [← text_decimal hfield.ne_nil hfield.digits]
    exact field_text (Nat.lt_succ_of_le hfield.value_le)

/-- A field with more than one digit does not begin with a zero. -/
def Quad.canonical (q : Quad) : Prop := ∀ f ∈ q.fields, f.head? = some 48 → f.length = 1

theorem Quad.ofAddr_canonical (a : BitVec 32) : (Quad.ofAddr a).canonical := by
  intro f hf hhead
  obtain ⟨n, -, rfl⟩ := List.mem_map.1 hf
  have hstrip := text_decimal (text_ne_nil 10 n) (text_digits n)
  rw [decimal_text] at hstrip
  rw [hstrip] at hhead ⊢
  exact length_strip_of_head hhead

theorem Quad.addr_ofAddr (a : BitVec 32) : (Quad.ofAddr a).addr = a := by
  have hmap : ((bytes a).map (Lib.text 10)).map decimal = bytes a := map_map_cancel fun n _ => decimal_text n
  rw [Quad.addr, Quad.ofAddr, hmap, ofDigits_bytes, BitVec.ofNat_toNat, BitVec.setWidth_eq]

theorem bytes_ofNat {a b c d : Nat} (ha : a < 256) (hb : b < 256) (hc : c < 256) (hd : d < 256) :
    bytes (BitVec.ofNat 32 (Nat.ofDigits 256 [a, b, c, d])) = [a, b, c, d] := by
  have hval : (BitVec.ofNat 32 (Nat.ofDigits 256 [a, b, c, d])).toNat = d * 2 ^ 24 + c * 2 ^ 16 + b * 2 ^ 8 + a := by
    rw [ofDigits_four, BitVec.toNat_ofNat]
    omega
  obtain ⟨h₀, h₁, h₂, h₃⟩ := bytes_of_sum hc hb ha
  rw [bytes, hval, h₀, h₁, h₂, h₃]

theorem Quad.bytes_addr (q : Quad) : bytes q.addr = q.fields.map decimal := by
  have hlt := q.decimal_lt
  obtain ⟨fs, hlen, hfs⟩ := q
  obtain ⟨f₀, f₁, f₂, f₃, rfl⟩ := List.length_eq_four.1 hlen
  exact bytes_ofNat (hlt f₀ (by simp)) (hlt f₁ (by simp)) (hlt f₂ (by simp)) (hlt f₃ (by simp))

theorem Quad.ofAddr_addr (q : Quad) : (Quad.ofAddr q.addr).text = q.stripped.text := by
  have hmap : (q.fields.map decimal).map (Lib.text 10) = q.fields.map (strip 48) := by
    rw [List.map_map]
    exact List.map_congr_left fun f hf => text_decimal (q.valid f hf).ne_nil (q.valid f hf).digits
  have hfields : (Quad.ofAddr q.addr).fields = q.stripped.fields := by
    change (bytes q.addr).map (Lib.text 10) = q.fields.map (strip 48)
    rw [q.bytes_addr, hmap]
  exact congrArg dotted hfields

/-- A text of fields has room for three digits and a dot each. -/
theorem length_dotted {fs : List (List UInt8)} (hfs : ∀ f ∈ fs, Field f) (hne : fs ≠ []) :
    (dotted fs).length + 1 ≤ 4 * fs.length := by
  induction fs with
  | nil => exact absurd rfl hne
  | cons f fs ih =>
    have hf := (hfs f (List.mem_cons_self ..)).length_le
    cases fs with
    | nil =>
      rw [dotted, List.length_singleton]
      omega
    | cons g fs =>
      have hrest := ih (fun f' hf' => hfs f' (List.mem_cons_of_mem _ hf')) (by simp)
      rw [dotted, List.length_append, List.length_cons, List.length_cons]
      omega

theorem Quad.length_text (q : Quad) : q.text.length + 1 ≤ 16 := by
  have hlen := length_dotted q.valid (List.ne_nil_of_length_eq_add_one q.four)
  rw [q.four] at hlen
  exact hlen

/-! ## The writer -/

/-- The digits by the thresholds. -/
theorem text_eq_thresholds {n : Nat} (h : n < 256) :
    text 10 n = (if n ≥ 100 then [UInt8.ofNat (48 + n / 100)] else []) ++
      ((if n ≥ 10 then [UInt8.ofNat (48 + n / 10 % 10)] else []) ++ [UInt8.ofNat (48 + n % 10)]) := by
  have hchar : ∀ d, d < 10 → digitChar d = UInt8.ofNat (48 + d) := fun d hd => if_pos hd
  unfold text
  by_cases h10 : n < 10
  · rw [if_neg (by omega), if_neg (by omega), numeral_of_lt h10, List.map_singleton, hchar n h10, Nat.mod_eq_of_lt h10]
    rfl
  · rw [numeral_of_ge (by decide) (by omega), List.map_append, List.map_singleton, hchar (n % 10) (by omega)]
    by_cases h100 : n < 100
    · rw [if_neg (by omega), if_pos (by omega), numeral_of_lt (by omega), List.map_singleton, hchar (n / 10) (by omega),
        Nat.mod_eq_of_lt (show n / 10 < 10 by omega)]
      rfl
    · rw [if_pos (by omega), if_pos (by omega), numeral_of_ge (by decide) (by omega), numeral_of_lt (by omega),
        List.map_append, List.map_singleton, List.map_singleton, hchar (n / 10 / 10) (by omega),
        hchar (n / 10 % 10) (by omega), Nat.div_div_eq_div_mul]
      rfl

theorem ite_puts (p : Cursor) (c : Prop) [Decidable c] (bs : List UInt8) :
    (if c then p.puts bs else some p) = p.puts (if c then bs else []) := by
  split_ifs
  · rfl
  · rfl

/-- The bytes the loop writes, with `n` of them to go. -/
def octets (h : BitVec 32) : Nat → List Nat
  | 0 => []
  | i + 1 => ((h >>> (i * 8)) &&& 0xFF).toNat :: octets h i

theorem toNat_octet (h : BitVec 32) (k : Nat) : ((h >>> k) &&& 0xFF).toNat = h.toNat / 2 ^ k % 256 := by
  have hmask : ((h >>> k) &&& 0xFF).toNat = (h >>> k).toNat % 256 := toNat_and_mask (h >>> k) (k := 8) (by decide)
  rw [hmask, BitVec.toNat_ushiftRight, Nat.shiftRight_eq_div_pow]

theorem ntoa_loop_eq (h : BitVec 32) (n : Nat) (p : Cursor) :
    ntoa_loop h n p = p.puts (dotted ((octets h n).map (text 10))) := by
  induction n generalizing p with
  | zero => rfl
  | succ i ih =>
    have hlt : ((h >>> (i * 8)) &&& 0xFF).toNat < 256 := by
      rw [toNat_octet]
      omega
    simp only [ntoa_loop, ← Cursor.puts_singleton, ite_puts, ih, Option.bind_eq_bind, ← Cursor.puts_append]
    rw [octets, List.map_cons, text_eq_thresholds hlt]
    cases i with
    | zero => simp [octets, dotted]
    | succ i => simp [octets, dotted]

theorem octets_ntohl (a : BitVec 32) : octets (ntohl a) 4 = bytes a := by
  have hlt := a.isLt
  obtain ⟨h₀, h₁, h₂, h₃⟩ := @bytes_of_sum (a.toNat % 256) (a.toNat / 2 ^ 8 % 256) (a.toNat / 2 ^ 16 % 256)
    (a.toNat / 2 ^ 24) (by omega) (by omega) (by omega)
  simp only [octets, bytes, toNat_octet, ntohl, toNat_htonl, List.cons.injEq, and_true, Nat.reduceMul]
  refine ⟨?_, h₂, h₁, ?_⟩
  · rw [h₃, Nat.mod_mod]
  · rw [Nat.pow_zero, Nat.div_one, h₀]

theorem inet_ntoa_r_eq (a : BitVec 32) {out : List UInt8} (h : (Quad.ofAddr a).text.length + 1 ≤ out.length) :
    inet_ntoa_r a out = some ((Quad.ofAddr a).text ++ 0 :: out.drop ((Quad.ofAddr a).text.length + 1)) := by
  have hloop : ntoa_loop (ntohl a) 4 (Cursor.start out) = (Cursor.start out).puts (Quad.ofAddr a).text := by
    rw [ntoa_loop_eq, octets_ntohl]
    rfl
  obtain ⟨p, hp, hbuf⟩ := Cursor.puts_text h
  rw [inet_ntoa_r, hloop]
  simp only [Option.bind_eq_bind, Option.pure_def]
  rw [← Option.bind_assoc, hp, ← hbuf]
  rfl

/-- For every address, `inet_ntoa_r` changes at most 16 bytes of a buffer with room for
the text, they are the canonical quad and a zero, and `inet_addr` of the buffer is the
address again. For every string of the grammar, the text of its address is the string
without the redundant zeros of its fields. -/
theorem address_round_trip :
    (∀ a : BitVec 32, (Quad.ofAddr a).canonical ∧ (Quad.ofAddr a).text.length + 1 ≤ 16 ∧
      ∀ out : List UInt8, (Quad.ofAddr a).text.length + 1 ≤ out.length →
        ∃ out', inet_ntoa_r a out = some out' ∧
          out' = (Quad.ofAddr a).text ++ 0 :: out.drop ((Quad.ofAddr a).text.length + 1) ∧ inet_addr out' = some a) ∧
    (∀ (q : Quad) (s : CStr) (out : List UInt8), s.text = q.text → q.stripped.text.length + 1 ≤ out.length →
      ∃ a, inet_addr s.mem = some a ∧
        inet_ntoa_r a out = some (q.stripped.text ++ 0 :: out.drop (q.stripped.text.length + 1))) := by
  constructor
  · intro a
    refine ⟨Quad.ofAddr_canonical a, Quad.length_text _, fun out hroom => ⟨_, inet_ntoa_r_eq a hroom, rfl, ?_⟩⟩
    rw [inet_addr_quad, Quad.addr_ofAddr]
  · intro q s out hs hroom
    rw [← q.ofAddr_addr] at hroom ⊢
    refine ⟨q.addr, ?_, inet_ntoa_r_eq q.addr hroom⟩
    rw [s.mem_eq, hs, inet_addr_quad]

/-- `127.0.0.1` through a buffer of 16 bytes. -/
theorem address_round_trip_loopback :
    ∃ out', inet_ntoa_r 0x0100007F (List.replicate 16 0) = some out' ∧ inet_addr out' = some 0x0100007F := by
  obtain ⟨-, hlen, hall⟩ := address_round_trip.1 0x0100007F
  obtain ⟨out', hwrite, -, hread⟩ := hall (List.replicate 16 0) hlen
  exact ⟨out', hwrite, hread⟩

end LibNeoos.Inet
