import LibNeoos.Lib.CStr
import LibNeoos.Lib.Cursor
import LibNeoos.Lib.Numeral
/-!
# The buffer of `printf`

`printf` gathers its output in 512 bytes on the stack and drops what does not fit. The
functions that append to it go on counting their own loops when it is full, so each of
them is described by the whole output it is asked for: `Holds` says that the buffer has
the first 511 bytes of it.
-/

namespace LibNeoos.Stdio

open Lib

/-! ## The code -/

def PRINTF_BUFFER_SIZE : Nat := 512

/-- `none` is a store outside the buffer. -/
def append_char (p : Cursor) (c : UInt8) : Option Cursor :=
  if p.pos < PRINTF_BUFFER_SIZE - 1 then p.put c else some p

/-- `none` also if it reads where nothing can be read. -/
def append_string (p : Cursor) : List UInt8 → Option Cursor
  | [] => none
  | c :: s => if c ≠ 0 then (append_char p c).bind (append_string · s) else some p

/-- `"0123456789abcdef"` with the zero behind it. -/
def digits_lower : List UInt8 := [48, 49, 50, 51, 52, 53, 54, 55, 56, 57, 97, 98, 99, 100, 101, 102, 0]

/-- `"0123456789ABCDEF"` with the zero behind it. -/
def digits_upper : List UInt8 := [48, 49, 50, 51, 52, 53, 54, 55, 56, 57, 65, 66, 67, 68, 69, 70, 0]

/-- The loop that fills `tmp`, with `room` bytes of it left and the last digit stored
first in the list. `none` is a store behind `tmp` or a read behind the digits. -/
def divide_loop (digits : List UInt8) (base : BitVec 64) : Nat → BitVec 64 → List UInt8 → Option (List UInt8)
  | 0, value, tmp => if value > 0 then none else some tmp
  | room + 1, value, tmp =>
    if value > 0 then digits[(value % base).toNat]?.bind fun c => divide_loop digits base room (value / base) (c :: tmp)
    else some tmp

def append_uint (p : Cursor) (value base : BitVec 64) (uppercase : Bool) : Option Cursor :=
  let digits := if uppercase then digits_upper else digits_lower
  let tmp := if value = 0 then [48] else []
  (divide_loop digits base (32 - tmp.length) value tmp).bind (·.foldlM append_char p)

def append_int (p : Cursor) (value : BitVec 64) : Option Cursor :=
  if value.toInt < 0 then (append_char p 45).bind (append_uint · (-value) 10 false)
  else append_uint p value 10 false

/-! ## What the buffer holds -/

/-- The buffer after the output `out`. -/
structure Holds (p : Cursor) (out : List UInt8) : Prop where
  size : p.buf.length = PRINTF_BUFFER_SIZE
  written : p.written = out.take (PRINTF_BUFFER_SIZE - 1)

namespace Holds

variable {p : Cursor} {out : List UInt8}

theorem start {buf : List UInt8} (h : buf.length = PRINTF_BUFFER_SIZE) : Holds (Cursor.start buf) [] := ⟨h, rfl⟩

theorem pos_eq (h : Holds p out) : p.pos = min (PRINTF_BUFFER_SIZE - 1) out.length := by
  rw [← p.length_written, h.written, List.length_take]

theorem append_char (h : Holds p out) (c : UInt8) : ∃ p', append_char p c = some p' ∧ Holds p' (out ++ [c]) := by
  have hpos := h.pos_eq
  have hsize := h.size
  have hleft := p.length_left
  unfold Stdio.append_char
  by_cases hroom : p.pos < PRINTF_BUFFER_SIZE - 1
  · have hne : p.left ≠ [] := by
      rw [← List.length_pos_iff]
      omega
    obtain ⟨p', hput, hw, hl⟩ := Cursor.put_spec hne c
    refine ⟨p', by rw [if_pos hroom, hput], ?_, ?_⟩
    · rw [p'.buf_eq, hw, hl, List.length_append, List.length_append, List.length_tail, p.length_written,
        List.length_singleton]
      omega
    · rw [hw, h.written, List.take_of_length_le (by omega), List.take_of_length_le]
      rw [List.length_append, List.length_singleton]
      omega
  · refine ⟨p, if_neg hroom, hsize, ?_⟩
    rw [h.written, List.take_append_of_le_length (by omega)]

theorem append_chars (h : Holds p out) (cs : List UInt8) :
    ∃ p', cs.foldlM Stdio.append_char p = some p' ∧ Holds p' (out ++ cs) := by
  induction cs generalizing p out with
  | nil => exact ⟨p, rfl, by rwa [List.append_nil]⟩
  | cons c cs ih =>
    obtain ⟨p₁, h₁, hp₁⟩ := h.append_char c
    obtain ⟨p₂, h₂, hp₂⟩ := ih hp₁
    rw [List.append_assoc, List.singleton_append] at hp₂
    refine ⟨p₂, ?_, hp₂⟩
    rw [List.foldlM_cons, h₁]
    exact h₂

end Holds

/-! ## Strings and numbers -/

theorem append_string_text {t : List UInt8} (h : 0 ∉ t) (r : List UInt8) (p : Cursor) :
    append_string p (t ++ 0 :: r) = t.foldlM append_char p := by
  induction t generalizing p with
  | nil => rfl
  | cons c t ih =>
    rw [List.mem_cons, not_or] at h
    rw [List.cons_append, append_string, if_pos (Ne.symm h.1), List.foldlM_cons]
    exact congrArg (Option.bind (append_char p c)) (funext (ih h.2))

/-- The table has the character of each digit. -/
theorem digits_get (upper : Bool) {d : Nat} (h : d < 16) :
    (if upper then digits_upper else digits_lower)[d]? = some (digitOf upper d) := by
  have hall : ∀ u : Bool, ∀ d < 16, (if u then digits_upper else digits_lower)[d]? = some (digitOf u d) := by decide
  exact hall upper d h

theorem uint_pos (value : BitVec 64) : value > 0 ↔ value.toNat > 0 := BitVec.lt_def

/-- The loop is that of the library, with the characters for the digits. -/
theorem divide_loop_eq {digits : List UInt8} {f : Nat → UInt8} {b : Nat} (hb : 0 < b) (hb64 : b < 2 ^ 64)
    (hf : ∀ d < b, digits[d]? = some (f d)) (room : Nat) (value : BitVec 64) (ds : List Nat) :
    divide_loop digits (BitVec.ofNat 64 b) room value (ds.map f) = (divide b room value.toNat ds).map (·.map f) := by
  have hbase : (BitVec.ofNat 64 b).toNat = b := by
    rw [BitVec.toNat_ofNat, Nat.mod_eq_of_lt hb64]
  induction room generalizing value ds with
  | zero =>
    rw [divide_loop, divide]
    by_cases hv : value > 0
    · rw [if_pos hv, if_pos ((uint_pos value).1 hv)]
      rfl
    · rw [if_neg hv, if_neg (mt (uint_pos value).2 hv)]
      rfl
  | succ room ih =>
    rw [divide_loop, divide]
    by_cases hv : value > 0
    · have hdigit : digits[(value % BitVec.ofNat 64 b).toNat]? = some (f (value.toNat % b)) := by
        rw [BitVec.toNat_umod, hbase]
        exact hf _ (Nat.mod_lt _ hb)
      have hquot : (value / BitVec.ofNat 64 b).toNat = value.toNat / b := by
        rw [BitVec.toNat_udiv, hbase]
      rw [if_pos hv, if_pos ((uint_pos value).1 hv), hdigit, Option.bind_some, ← hquot]
      exact ih (value / BitVec.ofNat 64 b) (value.toNat % b :: ds)
    · rw [if_neg hv, if_neg (mt (uint_pos value).2 hv)]
      rfl

/-- What the loops of `append_uint` leave in a `tmp` of `size` bytes. -/
def uint_tmp (size : Nat) (value base : BitVec 64) (uppercase : Bool) : Option (List UInt8) :=
  let digits := if uppercase then digits_upper else digits_lower
  let tmp := if value = 0 then [48] else []
  divide_loop digits base (size - tmp.length) value tmp

theorem append_uint_tmp (p : Cursor) (value base : BitVec 64) (uppercase : Bool) :
    append_uint p value base uppercase = (uint_tmp 32 value base uppercase).bind (·.foldlM append_char p) := rfl

theorem uint_tmp_render {b : Nat} (hb : 0 < b) (hb16 : b ≤ 16) (size : Nat) (value : BitVec 64) (upper : Bool) :
    uint_tmp size value (BitVec.ofNat 64 b) upper = (render b size value.toNat).map (·.map (digitOf upper)) := by
  have hzero : value = 0 ↔ value.toNat = 0 := by
    rw [← BitVec.toNat_inj]
    rfl
  have htmp : (if value = 0 then [48] else []) = (if value.toNat = 0 then [0] else []).map (digitOf upper) := by
    by_cases hv : value = 0
    · rw [if_pos hv, if_pos (hzero.1 hv)]
      cases upper with
      | false => rfl
      | true => rfl
    · rw [if_neg hv, if_neg (fun h => hv (hzero.2 h))]
      rfl
  rw [uint_tmp, render, htmp]
  simp only [List.length_map]
  exact divide_loop_eq hb (by omega) (fun d hd => digits_get upper (Nat.lt_of_lt_of_le hd hb16)) _ value _

/-- Twenty digits are enough for 64 bits. -/
theorem numeral_length_uint64 {b : Nat} (hb : 10 ≤ b) (value : BitVec 64) : (numeral b value.toNat).length ≤ 20 := by
  apply numeral_length_le (by omega) (by decide)
  calc value.toNat < 2 ^ 64 := value.isLt
    _ ≤ 10 ^ 20 := by decide
    _ ≤ b ^ 20 := Nat.pow_le_pow_left hb 20

theorem uint_tmp_numeral {b : Nat} (hb : 10 ≤ b) (hb16 : b ≤ 16) {size : Nat} (hsize : 20 ≤ size) (value : BitVec 64)
    (upper : Bool) :
    uint_tmp size value (BitVec.ofNat 64 b) upper = some ((numeral b value.toNat).map (digitOf upper)) := by
  have hlen := numeral_length_uint64 hb value
  rw [uint_tmp_render (by omega) hb16, render_numeral (by omega) (by omega)]
  rfl

theorem append_uint_numeral {b : Nat} (hb : 10 ≤ b) (hb16 : b ≤ 16) (p : Cursor) (value : BitVec 64) (upper : Bool) :
    append_uint p value (BitVec.ofNat 64 b) upper =
      ((numeral b value.toNat).map (digitOf upper)).foldlM append_char p := by
  rw [append_uint_tmp, uint_tmp_numeral hb hb16 (by decide), Option.bind_some]

theorem append_uint_text {b : Nat} (hb : 10 ≤ b) (hb16 : b ≤ 16) (p : Cursor) (value : BitVec 64) :
    append_uint p value (BitVec.ofNat 64 b) false = (text b value.toNat).foldlM append_char p := by
  rw [append_uint_numeral hb hb16, digitOf_false]
  rfl

/-- The decimal text of a signed number. -/
def signedText (n : Int) : List UInt8 := if n < 0 then 45 :: text 10 n.natAbs else text 10 n.natAbs

theorem append_int_text (p : Cursor) (value : BitVec 64) :
    append_int p value = (signedText value.toInt).foldlM append_char p := by
  have hcond := value.toInt_eq_toNat_cond
  have hlt := value.isLt
  unfold append_int signedText
  split_ifs with hneg
  · have habs : (-value).toNat = value.toInt.natAbs := by
      rw [BitVec.toNat_neg]
      split_ifs at hcond <;> omega
    rw [List.foldlM_cons, ← habs]
    exact congrArg (Option.bind (append_char p 45)) (funext fun p' => append_uint_text (by decide)
      (by decide) p' (-value))
  · have habs : value.toNat = value.toInt.natAbs := by
      split_ifs at hcond <;> omega
    rw [← habs]
    exact append_uint_text (by decide) (by decide) p value

namespace Holds

variable {p : Cursor} {out : List UInt8}

theorem append_string (h : Holds p out) (s : CStr) :
    ∃ p', append_string p s.mem = some p' ∧ Holds p' (out ++ s.text) := by
  rw [s.mem_eq, append_string_text s.zero_notMem]
  exact h.append_chars s.text

theorem append_uint (h : Holds p out) {b : Nat} (hb : 10 ≤ b) (hb16 : b ≤ 16) (value : BitVec 64) :
    ∃ p', append_uint p value (BitVec.ofNat 64 b) false = some p' ∧ Holds p' (out ++ text b value.toNat) := by
  rw [append_uint_text hb hb16]
  exact h.append_chars (text b value.toNat)

theorem append_int (h : Holds p out) (value : BitVec 64) :
    ∃ p', append_int p value = some p' ∧ Holds p' (out ++ signedText value.toInt) := by
  rw [append_int_text]
  exact h.append_chars (signedText value.toInt)

end Holds

/-- The function appends `s` to every buffer with room for it. -/
def Emits (f : Cursor → Option Cursor) (s : List UInt8) : Prop :=
  ∀ p : Cursor, p.buf.length = PRINTF_BUFFER_SIZE → p.pos + s.length ≤ PRINTF_BUFFER_SIZE - 1 →
    ∃ p', f p = some p' ∧ p'.written = p.written ++ s

theorem emits_append_chars (s : List UInt8) : Emits (s.foldlM append_char ·) s := by
  intro p hsize hroom
  have hlen : (p.written ++ s).length ≤ PRINTF_BUFFER_SIZE - 1 := by
    rw [List.length_append, p.length_written]
    exact hroom
  have hp : Holds p p.written := by
    refine ⟨hsize, (List.take_of_length_le ?_).symm⟩
    rw [p.length_written]
    omega
  obtain ⟨p', happend, hp'⟩ := hp.append_chars s
  exact ⟨p', happend, hp'.written.trans (List.take_of_length_le hlen)⟩

theorem emits_append_uint {b : Nat} (hb : 10 ≤ b) (hb16 : b ≤ 16) (value : BitVec 64) (upper : Bool) :
    Emits (append_uint · value (BitVec.ofNat 64 b) upper) ((numeral b value.toNat).map (digitOf upper)) := by
  intro p hsize hroom
  obtain ⟨p', happend, hw⟩ := emits_append_chars _ p hsize hroom
  exact ⟨p', (append_uint_numeral hb hb16 p value upper).trans happend, hw⟩

end LibNeoos.Stdio
