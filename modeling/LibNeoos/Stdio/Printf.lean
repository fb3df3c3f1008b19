import LibNeoos.Stdio.Buffer
/-!
# `printf`

The format is read once from left to right, with a second step of the index behind a
percent, and the arguments are taken one at a time as the directives ask for them, also
when the buffer is full. What it should write is said without a buffer: the format is a
list of pieces, and each piece has its bytes. `printf` hands the first 511 of them to
`write`.
-/

namespace LibNeoos.Stdio

open Lib

/-! ## The code -/

/-- An argument behind the format. -/
inductive Arg where
  | str (s : CStr)
  | int (v : BitVec 32)
  | uint (v : BitVec 32)

/-- `va_arg(args, const char *)`; an argument of another type has no defined result. -/
def va_str : List Arg → Option (CStr × List Arg)
  | .str s :: args => some (s, args)
  | _ => none

/-- `va_arg(args, int)` -/
def va_int : List Arg → Option (BitVec 32 × List Arg)
  | .int v :: args => some (v, args)
  | _ => none

/-- `va_arg(args, unsigned int)` -/
def va_uint : List Arg → Option (BitVec 32 × List Arg)
  | .uint v :: args => some (v, args)
  | _ => none

/-- The switch over the byte behind a percent. -/
def directive (z : UInt8) (args : List Arg) (p : Cursor) : Option (Cursor × List Arg) :=
  if z = 115 then do
    let (s, args) ← va_str args
    let p ← append_string p s.mem
    return (p, args)
  else if z = 100 then do
    let (value, args) ← va_int args
    let p ← append_int p (value.signExtend 64)
    return (p, args)
  else if z = 117 then do
    let (value, args) ← va_uint args
    let p ← append_uint p (value.zeroExtend 64) 10 false
    return (p, args)
  else if z = 120 then do
    let (value, args) ← va_uint args
    let p ← append_uint p (value.zeroExtend 64) 16 false
    return (p, args)
  else if z = 99 then do
    let (value, args) ← va_int args
    let p ← append_char p (UInt8.ofNat value.toNat)
    return (p, args)
  else if z = 37 then do
    let p ← append_char p 37
    return (p, args)
  else do
    let p ← append_char p 37
    let p ← append_char p z
    return (p, args)

/-- The loop over the format. -/
def printf_loop (args : List Arg) (p : Cursor) : List UInt8 → Option (Cursor × List Arg)
  | [] => none
  | c :: s =>
    if c = 0 then some (p, args)
    else if c ≠ 37 then (append_char p c).bind fun p => printf_loop args p s
    else
      match s with
      | [] => none
      | z :: s =>
        if z = 0 then (append_char p 37).map (·, args)
        else (directive z args p).bind fun r => printf_loop r.2 r.1 s

def STDOUT_FILENO : Int := 1

/-- What a call of `printf` does: the descriptor and the bytes of its `write`, the value
it returns, the new `kmsg_fd`, and the arguments it has not taken. -/
structure Printed where
  fd : Int
  bytes : List UInt8
  ret : BitVec 32
  kmsg_fd : Int
  args : List Arg

/-- `printf` and `printf_out`. `buf` is what the stack has in the buffer before, and
`opened` what `open("/dev/kmsg", O_WRONLY)` returns if it is called. -/
def printf (kmsg_fd opened : Int) (buf fmt : List UInt8) (args : List Arg) : Option Printed := do
  let (p, args) ← printf_loop args (Cursor.start buf) fmt
  let kmsg_fd := if kmsg_fd = -2 then opened else kmsg_fd
  return {
    fd := if kmsg_fd ≥ 0 then kmsg_fd else STDOUT_FILENO
    bytes := p.buf.take p.pos
    ret := BitVec.ofNat 32 p.pos
    kmsg_fd
    args }

/-! ## The expansion -/

inductive Kind where
  | str
  | int
  | uint

def Arg.kind : Arg → Kind
  | .str _ => .str
  | .int _ => .int
  | .uint _ => .uint

/-- The directives that take an argument. -/
inductive Conv where
  | s
  | d
  | u
  | x
  | c

def Conv.kind : Conv → Kind
  | .s => .str
  | .d => .int
  | .u => .uint
  | .x => .uint
  | .c => .int

/-- The bytes of an argument; there are none for an argument of another kind. -/
def Conv.expand : Conv → Arg → List UInt8
  | .s, .str t => t.text
  | .d, .int v => signedText v.toInt
  | .u, .uint v => text 10 v.toNat
  | .x, .uint v => text 16 v.toNat
  | .c, .int v => [UInt8.ofNat v.toNat]
  | _, _ => []

/-- A part of a format: bytes that stand for themselves, or a directive. -/
inductive Piece where
  | bytes (bs : List UInt8)
  | conv (k : Conv)

/-- A percent and the byte behind it. -/
def Piece.ofDirective (z : UInt8) : Piece :=
  if z = 115 then .conv .s
  else if z = 100 then .conv .d
  else if z = 117 then .conv .u
  else if z = 120 then .conv .x
  else if z = 99 then .conv .c
  else if z = 37 then .bytes [37]
  else .bytes [37, z]

/-- The kinds of the arguments a piece asks for: none or one. -/
def Piece.asks : Piece → List Kind
  | .bytes _ => []
  | .conv k => [k.kind]

def Piece.expand : Piece → List Arg → List UInt8
  | .bytes bs, _ => bs
  | .conv k, a :: _ => k.expand a
  | .conv _, [] => []

def pieces : List UInt8 → List Piece
  | [] => []
  | c :: s =>
    if c ≠ 37 then .bytes [c] :: pieces s
    else
      match s with
      | [] => [.bytes [37]]
      | z :: s => Piece.ofDirective z :: pieces s

/-- The kinds of the arguments a format asks for, one for each directive that takes one. -/
def asked (ps : List Piece) : List Kind := ps.flatMap Piece.asks

def expand : List Piece → List Arg → List UInt8
  | [], _ => []
  | q :: ps, args => q.expand args ++ expand ps (args.drop q.asks.length)

/-! ## One directive -/

theorem toInt_signExtend_int (v : BitVec 32) : (v.signExtend 64).toInt = v.toInt :=
  BitVec.toInt_signExtend_of_le (by decide)

theorem toNat_zeroExtend_uint (v : BitVec 32) : (v.zeroExtend 64).toNat = v.toNat := by
  have hlt := v.isLt
  rw [BitVec.toNat_setWidth]
  omega

/-- The argument a directive asks for. -/
theorem arg_of_asked {k : Kind} {ks : List Kind} {args : List Arg} (h : k :: ks <+: args.map Arg.kind) :
    ∃ a as, args = a :: as ∧ a.kind = k := by
  cases args with
  | nil => exact absurd h (by simp)
  | cons a as =>
    rw [List.map_cons, List.cons_prefix_cons] at h
    exact ⟨a, as, rfl, h.1.symm⟩

theorem str_of_asked {ks : List Kind} {args : List Arg} (h : .str :: ks <+: args.map Arg.kind) :
    ∃ s as, args = .str s :: as := by
  obtain ⟨a, as, rfl, hkind⟩ := arg_of_asked h
  cases a with
  | str s => exact ⟨s, as, rfl⟩
  | int v => cases hkind
  | uint v => cases hkind

theorem int_of_asked {ks : List Kind} {args : List Arg} (h : .int :: ks <+: args.map Arg.kind) :
    ∃ v as, args = .int v :: as := by
  obtain ⟨a, as, rfl, hkind⟩ := arg_of_asked h
  cases a with
  | str s => cases hkind
  | int v => exact ⟨v, as, rfl⟩
  | uint v => cases hkind

theorem uint_of_asked {ks : List Kind} {args : List Arg} (h : .uint :: ks <+: args.map Arg.kind) :
    ∃ v as, args = .uint v :: as := by
  obtain ⟨a, as, rfl, hkind⟩ := arg_of_asked h
  cases a with
  | str s => cases hkind
  | int v => cases hkind
  | uint v => exact ⟨v, as, rfl⟩

/-- The arguments behind those of a first piece. -/
theorem asked_drop {ks ks' : List Kind} {args : List Arg} (h : ks ++ ks' <+: args.map Arg.kind) :
    ks' <+: (args.drop ks.length).map Arg.kind := by
  obtain ⟨rest, hrest⟩ := h
  refine ⟨rest, ?_⟩
  rw [List.map_drop, ← hrest, List.append_assoc, List.drop_left]

theorem directive_spec {p : Cursor} {out : List UInt8} (hp : Holds p out) {z : UInt8} {args : List Arg} {ks : List Kind}
    (hasked : (Piece.ofDirective z).asks ++ ks <+: args.map Arg.kind) :
    ∃ p', directive z args p = some (p', args.drop (Piece.ofDirective z).asks.length) ∧
      Holds p' (out ++ (Piece.ofDirective z).expand args) := by
  unfold Piece.ofDirective at hasked ⊢
  unfold directive
  split_ifs at hasked ⊢ with hs hd hu hx hc hpct
  · obtain ⟨s, as, rfl⟩ := str_of_asked hasked
    obtain ⟨p', happend, hout⟩ := hp.append_string s
    refine ⟨p', ?_, hout⟩
    simp only [va_str, happend, Option.bind_eq_bind, Option.bind_some]
    rfl
  · obtain ⟨v, as, rfl⟩ := int_of_asked hasked
    obtain ⟨p', happend, hout⟩ := hp.append_int (v.signExtend 64)
    rw [toInt_signExtend_int] at hout
    refine ⟨p', ?_, hout⟩
    simp only [va_int, happend, Option.bind_eq_bind, Option.bind_some]
    rfl
  · obtain ⟨v, as, rfl⟩ := uint_of_asked hasked
    obtain ⟨p', happend, hout⟩ := hp.append_uint (b := 10) (by decide) (by decide) (v.zeroExtend 64)
    rw [toNat_zeroExtend_uint] at hout
    refine ⟨p', ?_, hout⟩
    simp only [va_uint, BitVec.ofNat_eq_ofNat, happend, Option.bind_eq_bind, Option.bind_some]
    rfl
  · obtain ⟨v, as, rfl⟩ := uint_of_asked hasked
    obtain ⟨p', happend, hout⟩ := hp.append_uint (b := 16) (by decide) (by decide) (v.zeroExtend 64)
    rw [toNat_zeroExtend_uint] at hout
    refine ⟨p', ?_, hout⟩
    simp only [va_uint, BitVec.ofNat_eq_ofNat, happend, Option.bind_eq_bind, Option.bind_some]
    rfl
  · obtain ⟨v, as, rfl⟩ := int_of_asked hasked
    obtain ⟨p', happend, hout⟩ := hp.append_char (UInt8.ofNat v.toNat)
    refine ⟨p', ?_, hout⟩
    simp only [va_int, happend, Option.bind_eq_bind, Option.bind_some]
    rfl
  · obtain ⟨p', happend, hout⟩ := hp.append_char 37
    refine ⟨p', ?_, hout⟩
    simp only [happend, Option.bind_eq_bind, Option.bind_some]
    rfl
  · obtain ⟨p₁, h₁, hp₁⟩ := hp.append_char 37
    obtain ⟨p₂, h₂, hp₂⟩ := hp₁.append_char z
    rw [List.append_assoc] at hp₂
    refine ⟨p₂, ?_, hp₂⟩
    simp only [h₁, h₂, Option.bind_eq_bind, Option.bind_some]
    rfl

/-! ## The whole format -/

theorem printf_loop_end (args : List Arg) (p : Cursor) (s : List UInt8) :
    printf_loop args p (0 :: s) = some (p, args) := by
  rw [printf_loop.eq_def]
  exact if_pos rfl

theorem printf_loop_plain (args : List Arg) (p : Cursor) {c : UInt8} (hzero : c ≠ 0) (hc : c ≠ 37) (s : List UInt8) :
    printf_loop args p (c :: s) = (append_char p c).bind fun p => printf_loop args p s := by
  rw [printf_loop.eq_def]
  exact (if_neg hzero).trans (if_pos hc)

theorem printf_loop_percent (args : List Arg) (p : Cursor) (s : List UInt8) :
    printf_loop args p (37 :: 0 :: s) = (append_char p 37).map (·, args) := rfl

theorem printf_loop_directive (args : List Arg) (p : Cursor) {z : UInt8} (hz : z ≠ 0) (s : List UInt8) :
    printf_loop args p (37 :: z :: s) = (directive z args p).bind fun r => printf_loop r.2 r.1 s := by
  rw [printf_loop.eq_def]
  exact if_neg hz

theorem printf_loop_spec {t : List UInt8} (hzero : 0 ∉ t) (r : List UInt8) {args : List Arg}
    (hasked : asked (pieces t) <+: args.map Arg.kind) {p : Cursor} {out : List UInt8} (hp : Holds p out) :
    ∃ p', printf_loop args p (t ++ 0 :: r) = some (p', args.drop (asked (pieces t)).length) ∧
      Holds p' (out ++ expand (pieces t) args) := by
  -- the cases are those of the loop: the end, a plain byte, a percent at the end, a directive
  fun_induction pieces t generalizing args p out with
  | case1 =>
    refine ⟨p, printf_loop_end args p r, ?_⟩
    rwa [expand, List.append_nil]
  | case2 c s hc ih =>
    rw [List.mem_cons, not_or] at hzero
    obtain ⟨p₁, hchar, hp₁⟩ := hp.append_char c
    obtain ⟨p₂, hloop, hp₂⟩ := ih hzero.2 hasked hp₁
    rw [List.append_assoc] at hp₂
    refine ⟨p₂, ?_, hp₂⟩
    rw [List.cons_append, printf_loop_plain args p (Ne.symm hzero.1) hc, hchar]
    exact hloop
  | case3 c hc =>
    obtain rfl : c = 37 := not_not.1 hc
    obtain ⟨p₁, hchar, hp₁⟩ := hp.append_char 37
    refine ⟨p₁, ?_, hp₁⟩
    rw [List.cons_append, List.nil_append, printf_loop_percent, hchar]
    rfl
  | case4 c hc z s ih =>
    obtain rfl : c = 37 := not_not.1 hc
    rw [List.mem_cons, List.mem_cons, not_or, not_or] at hzero
    rw [asked, List.flatMap_cons] at hasked ⊢
    obtain ⟨p₁, hdir, hp₁⟩ := directive_spec hp hasked
    obtain ⟨p₂, hloop, hp₂⟩ := ih hzero.2.2 (asked_drop hasked) hp₁
    rw [List.append_assoc] at hp₂
    refine ⟨p₂, ?_, hp₂⟩
    rw [List.cons_append, List.cons_append, printf_loop_directive args p (Ne.symm hzero.2.1), hdir, List.length_append,
      ← List.drop_drop]
    exact hloop

/-- For every format, every list of arguments that begins with those its directives ask
for, and whatever the stack and `kmsg_fd` hold: `printf` returns, without reading past
the end of the format or storing outside the buffer. It hands the first 511 bytes of the
expansion to `write`, or all of them if there are fewer, returns their number, and has
taken one argument for each directive that asks for one. -/
theorem printf_truncated_expansion (kmsg_fd opened : Int) {buf : List UInt8} (hbuf : buf.length = PRINTF_BUFFER_SIZE)
    (fmt : CStr) (args : List Arg) (hargs : asked (pieces fmt.text) <+: args.map Arg.kind) :
    ∃ r, printf kmsg_fd opened buf fmt.mem args = some r ∧
      r.bytes = (expand (pieces fmt.text) args).take 511 ∧
      r.ret.toInt = min 511 (expand (pieces fmt.text) args).length ∧
      r.args = args.drop (asked (pieces fmt.text)).length := by
  obtain ⟨p, hloop, hp⟩ := printf_loop_spec fmt.zero_notMem fmt.behind hargs (Holds.start hbuf)
  rw [← fmt.mem_eq] at hloop
  rw [List.nil_append] at hp
  have hpos : p.pos = min 511 (expand (pieces fmt.text) args).length := hp.pos_eq
  have hnat : (BitVec.ofNat 32 p.pos).toNat = p.pos := by
    rw [BitVec.toNat_ofNat]
    omega
  rw [printf, hloop]
  refine ⟨_, rfl, hp.written, ?_, rfl⟩
  change (BitVec.ofNat 32 p.pos).toInt = _
  rw [BitVec.toInt_eq_toNat_of_lt (by omega), hnat, hpos]

/-- `"%s=%d%"` with `"n"` and `-7`. -/
theorem printf_truncated_expansion_pair :
    ∃ r, printf (-2) 3 (List.replicate 512 0) [37, 115, 61, 37, 100, 37, 0]
      [.str (CStr.ofText [110]), .int (-7)] = some r ∧
      r.bytes = [110, 61, 45, 55, 37] := by
  obtain ⟨r, hr, hbytes, -⟩ := printf_truncated_expansion (-2) 3 List.length_replicate
    (CStr.ofText [37, 115, 61, 37, 100, 37]) [.str (CStr.ofText [110]), .int (-7)] ⟨[], rfl⟩
  exact ⟨r, hr, hbytes.trans (by decide)⟩

end LibNeoos.Stdio
