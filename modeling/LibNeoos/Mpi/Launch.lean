import LibNeoos.Mpi.Arguments
import LibNeoos.Stdio.Buffer
/-!
# `MPI_Launch` and its numbers

`MPI_Launch` writes the rank and the size of each process into its arguments, and the
process reads them with `parse_rank_args`. The writer `int_to_str` has a digit loop and
a scratch buffer of its own, beside those of `append_uint`: both are the loop of
`Lib.divide`, so they write the same text, and the reader gets the number back.
-/

namespace LibNeoos.Mpi

open LibNeoos.Lib

/-! ## The code -/

/-- The loop of `int_to_str` that fills `tmp`, with `room` bytes of it left and the last
digit stored first in the list. `none` is a store behind `tmp`. -/
def int_to_str_loop : Nat → Int → List UInt8 → Option (List UInt8)
  | 0, v, tmp => if v > 0 then none else some tmp
  | room + 1, v, tmp =>
    if v > 0 then int_to_str_loop room (v.tdiv 10) (UInt8.ofNat (48 + v.tmod 10).toNat :: tmp) else some tmp

/-- `int_to_str` with what it makes of `out`; `none` if it stores outside. -/
def int_to_str (v : Int) (out : List UInt8) : Option (List UInt8) := do
  let tmp := if v = 0 then [48] else []
  let tmp ← int_to_str_loop (12 - tmp.length) v tmp
  let p ← (Cursor.start out).puts tmp
  let p ← p.put 0
  return p.buf

/-- What the stack of `MPI_Launch` has in `size_str`, and in `rank_str` before each round. -/
structure LaunchFrame where
  size_str : List UInt8
  rank_str : Nat → List UInt8
  size_len : size_str.length = 12
  rank_len : ∀ r, (rank_str r).length = 12

/-- What a call of `MPI_Launch` does: the value it returns, the arguments of the
processes it has started, and the pids it has stored. -/
structure Launched where
  rc : Int
  started : List Argv
  out_pids : Option (List Int)

/-- `if (out_pids) { out_pids[r] = pid; }` -/
def store_pid (out_pids : Option (List Int)) (r : Nat) (pid : Int) : Option (Option (List Int)) :=
  match out_pids with
  | none => some none
  | some pids => if r < pids.length then some (some (pids.set r pid)) else none

/-- The loop of `MPI_Launch`, with `n` ranks to go; `spawnv r` is what the system call
returns for the rank `r`. -/
def launch_loop (path size_str : List UInt8) (rank_str : Nat → List UInt8) (spawnv : Nat → Int) :
    Nat → Nat → List Argv → Option (List Int) → Option Launched
  | 0, _, started, out_pids => some ⟨MPI_SUCCESS, started, out_pids⟩
  | n + 1, r, started, out_pids =>
    (int_to_str r (rank_str r)).bind fun rank_str' =>
      if spawnv r < 0 then some ⟨MPI_ERR_INTERN, started, out_pids⟩
      else (store_pid out_pids r (spawnv r)).bind
        (launch_loop path size_str rank_str spawnv n (r + 1)
          (started ++ [[some path, some rank_str', some size_str, none]]))

def MPI_Launch (path : List UInt8) (size : Int) (out_pids : Option (List Int)) (frame : LaunchFrame)
    (spawnv : Nat → Int) : Option Launched :=
  if size < 1 ∨ size > MPI_MAX_RANKS then some ⟨MPI_ERR_OTHER, [], out_pids⟩
  else (int_to_str size frame.size_str).bind fun size_str =>
    launch_loop path size_str frame.rank_str spawnv size.toNat 0 [] out_pids

/-! ## The writer -/

/-- The loop is that of the library. -/
theorem int_to_str_loop_eq (room n : Nat) (ds : List Nat) :
    int_to_str_loop room n (ds.map digitChar) = (divide 10 room n ds).map (·.map digitChar) := by
  induction room generalizing n ds with
  | zero =>
    rw [int_to_str_loop, divide]
    by_cases hn : n > 0
    · rw [if_pos (by omega), if_pos hn]
      rfl
    · rw [if_neg (by omega), if_neg hn]
      rfl
  | succ room ih =>
    rw [int_to_str_loop, divide]
    by_cases hn : n > 0
    · have hdigit : UInt8.ofNat (48 + (n : Int).tmod 10).toNat = digitChar (n % 10) := by
        rw [digitChar, if_pos (Nat.mod_lt n (by decide))]
        rfl
      have hquot : (n : Int).tdiv 10 = (n / 10 : Nat) := rfl
      rw [if_pos (by omega), if_pos hn, hdigit, hquot]
      exact ih (n / 10) (n % 10 :: ds)
    · rw [if_neg (by omega), if_neg hn]
      rfl

/-- Ten digits are enough for an `int`. -/
theorem text_length_int {n : Nat} (h : n < 2 ^ 31) : (text 10 n).length ≤ 10 := text_length_le (by decide) (by omega)

/-- What the loop leaves in `tmp`. -/
theorem int_to_str_tmp {n : Nat} (h : n < 2 ^ 31) :
    let tmp : List UInt8 := if (n : Int) = 0 then [48] else []
    int_to_str_loop (12 - tmp.length) n tmp = some (text 10 n) := by
  intro tmp
  have htmp : tmp = (if n = 0 then [0] else []).map digitChar := by
    by_cases hn : n = 0
    · exact (if_pos (by omega)).trans (by rw [if_pos hn]; rfl)
    · exact (if_neg (by omega)).trans (by rw [if_neg hn]; rfl)
  have hlen : (numeral 10 n).length ≤ 12 := by
    have hten := text_length_int h
    rw [text, List.length_map] at hten
    omega
  have hrender := render_numeral (by decide) hlen
  rw [htmp, List.length_map, int_to_str_loop_eq]
  exact congrArg (Option.map (·.map digitChar)) hrender

theorem int_to_str_text {n : Nat} (hn : n < 2 ^ 31) {out : List UInt8} (hout : 12 ≤ out.length) :
    int_to_str n out = some (text 10 n ++ 0 :: out.drop ((text 10 n).length + 1)) := by
  have hlen := text_length_int hn
  obtain ⟨p, hp, hbuf⟩ := @Cursor.puts_text (text 10 n) out (by omega)
  rw [int_to_str]
  simp only [int_to_str_tmp hn, Option.bind_eq_bind, Option.bind_some, Option.pure_def]
  rw [← Option.bind_assoc, hp, ← hbuf]
  rfl

/-! ## The reader -/

/-- The loop ends at the zero. -/
theorem digits_zero {s : List UInt8} (hs : 0 ∉ s) (acc : Int) (r : List UInt8) :
    digits acc (s ++ 0 :: r) = digits acc s := by
  induction s generalizing acc with
  | nil => rfl
  | cons c s ih =>
    rw [List.mem_cons, not_or] at hs
    rw [List.cons_append, digits, digits, ih hs.2]

/-- In each round of the loop over `s`, the product and the sum are `int`s. -/
def NeverOverflows (s : List UInt8) : Prop :=
  ∀ p c r, s = p ++ c :: r → ∃ a, digits 0 p = some a ∧ 0 ≤ a * 10 ∧ a * 10 ≤ INT_MAX ∧
    0 ≤ a * 10 + (c.toNat - 48) ∧ a * 10 + (c.toNat - 48) ≤ INT_MAX

theorem zero_notMem_text (n : Nat) : 0 ∉ text 10 n := by
  intro h
  exact absurd (text_digits n 0 h) (by decide)

theorem digits_text {n : Nat} (hn : n < 2 ^ 31) (r : List UInt8) : digits 0 (text 10 n ++ 0 :: r) = some (n : Int) := by
  have hnumeric : Numeric (text 10 n) := text_digits n
  rw [digits_zero (zero_notMem_text n), digits_eq (zero_notMem_text n), if_pos hnumeric, decimal_text, int32_of_lt hn]

theorem text_neverOverflows {n : Nat} (hn : n < 2 ^ 31) : NeverOverflows (text 10 n) := by
  intro p c r hsplit
  have hmem : ∀ d ∈ p ++ [c], d ∈ text 10 n := by
    intro d hd
    rw [hsplit, ← List.singleton_append, ← List.append_assoc]
    exact List.mem_append_left r hd
  have hdigits : Numeric p := fun d hd => text_digits n d (hmem d (List.mem_append_left [c] hd))
  have hzero : 0 ∉ p := fun h0 => zero_notMem_text n (hmem 0 (List.mem_append_left [c] h0))
  have hc := text_digits n c (hmem c (by simp))
  -- the value of what is read so far never exceeds the number
  have hle : decimal p * 10 + digitVal c ≤ n := by
    have hmono := decimal_le_append (p ++ [c]) r
    rwa [List.append_assoc, List.singleton_append, ← hsplit, decimal_text, decimal_snoc] at hmono
  refine ⟨decimal p, ?_, ?_⟩
  · rw [digits_eq hzero, if_pos hdigits, int32_of_lt (by omega)]
  · rw [sub_eq_digitVal hc]
    simp only [INT_MAX]
    omega

/-! ## The three together -/

/-- For every 64-bit value, base 10 or 16 and either case of the letters: one text is
the numeral of the value without leading zeros, the loops of `append_uint` write it
into a `tmp` of any size from 20 bytes on, and it is what the call appends to a buffer
with room. For every `int` that is not negative: `int_to_str` writes the text that
`append_uint` writes in base 10, and a zero, into the first 12 bytes of its buffer, and
the loop of `parse_rank_args` reads the number from it without an overflow. -/
theorem number_rendering_exact (value : BitVec 64) (b : Nat) (hb : b = 10 ∨ b = 16) (upper : Bool) (v : Int)
    (hv : 0 ≤ v) (hmax : v ≤ INT_MAX) :
    (∃ s, (∀ s', IsNumeral upper b s' value.toNat ↔ s' = s) ∧
      s.length ≤ 20 ∧ (∀ size, 20 ≤ size → Stdio.uint_tmp size value (BitVec.ofNat 64 b) upper = some s) ∧
      Stdio.Emits (Stdio.append_uint · value (BitVec.ofNat 64 b) upper) s) ∧
    ∃ s, Stdio.Emits (Stdio.append_uint · (BitVec.ofInt 64 v) 10 false) s ∧
      s.length + 1 ≤ 12 ∧
      (∀ out : List UInt8, 12 ≤ out.length → int_to_str v out = some (s ++ 0 :: out.drop (s.length + 1))) ∧
      (∀ r, digits 0 (s ++ 0 :: r) = some v) ∧ NeverOverflows s := by
  have hge : 10 ≤ b := by omega
  have hle : b ≤ 16 := by omega
  constructor
  · refine ⟨(numeral b value.toNat).map (digitOf upper), ?_, ?_, ?_, ?_⟩
    · intro s'
      exact isNumeral_iff (by omega) hle upper s' value.toNat
    · rw [List.length_map]
      exact Stdio.numeral_length_uint64 hge value
    · intro size hsize
      exact Stdio.uint_tmp_numeral hge hle hsize value upper
    · exact Stdio.emits_append_uint hge hle value upper
  · obtain ⟨n, rfl⟩ := Int.eq_ofNat_of_zero_le hv
    have hn : n < 2 ^ 31 := by
      simp only [INT_MAX] at hmax
      omega
    refine ⟨text 10 n, ?_, ?_, fun out hout => int_to_str_text hn hout, digits_text hn, text_neverOverflows hn⟩
    · have hval : (BitVec.ofInt 64 n).toNat = n := by
        rw [BitVec.ofInt_natCast, BitVec.toNat_ofNat]
        omega
      have hemits := Stdio.emits_append_uint (b := 10) (by decide) (by decide) (BitVec.ofInt 64 n) false
      rwa [hval, digitOf_false] at hemits
    · have := text_length_int hn
      omega

/-- The largest values of both types, and the base 16. -/
theorem number_rendering_exact_max :
    (∃ s, IsNumeral true 16 s (2 ^ 64 - 1) ∧ s.length ≤ 20) ∧
      ∃ s, int_to_str INT_MAX (List.replicate 12 0) = some (s ++ 0 :: (List.replicate 12 0).drop (s.length + 1)) ∧
        digits 0 (s ++ [0]) = some INT_MAX := by
  obtain ⟨⟨s, hs, hlen, -⟩, t, -, -, hwrite, hread, -⟩ :=
    number_rendering_exact (BitVec.allOnes 64) 16 (.inr rfl) true INT_MAX (by decide) (by decide)
  exact ⟨⟨s, (hs s).2 rfl, hlen⟩, t, hwrite _ (by decide), hread []⟩

/-! ## The processes -/

theorem store_pid_returns {out_pids : Option (List Int)} {size r : Nat} (hout : ∀ pids ∈ out_pids, size ≤ pids.length)
    (hr : r < size) (pid : Int) :
    ∃ out', store_pid out_pids r pid = some out' ∧ ∀ pids ∈ out', size ≤ pids.length := by
  cases out_pids with
  | none => exact ⟨none, rfl, hout⟩
  | some pids =>
    have hlen := hout pids rfl
    refine ⟨some (pids.set r pid), if_pos (by omega), ?_⟩
    intro pids' hpids'
    cases hpids'
    rwa [List.length_set]

/-- The arguments of a process are read as its rank and the size. -/
theorem parse_launched {path : List UInt8} {r size : Nat} (hr : r < size) (hsize : size ≤ 16) (x y : List UInt8) :
    parse_rank_args 3 [some path, some (text 10 r ++ 0 :: x), some (text 10 size ++ 0 :: y), none] =
      some (.ok ((r : Int), (size : Int))) := by
  unfold parse_rank_args rank_arg
  simp only [List.getElem?_cons_succ, List.getElem?_cons_zero]
  rw [digits_text (by omega), digits_text (by omega), if_neg (by omega)]
  exact if_neg (by simp only [MPI_MAX_RANKS]; omega)

/-- Each process that is started finds its number among them as its rank. -/
def Ranked (size : Nat) (started : List Argv) : Prop :=
  ∀ (r : Nat) (argv : Argv), started[r]? = some argv → parse_rank_args 3 argv = some (.ok ((r : Int), (size : Int)))

theorem Ranked.snoc {size : Nat} {started : List Argv} (h : Ranked size started) {argv : Argv}
    (hargv : parse_rank_args 3 argv = some (.ok ((started.length : Int), (size : Int)))) :
    Ranked size (started ++ [argv]) := by
  intro r argv' hr
  by_cases hlt : r < started.length
  · rw [List.getElem?_append_left hlt] at hr
    exact h r argv' hr
  · rw [List.getElem?_append_right (by omega), List.getElem?_singleton] at hr
    split_ifs at hr with hzero
    obtain rfl : r = started.length := by omega
    cases hr
    exact hargv

/-- The loop starts a process for each rank, up to the first `spawnv` that fails. -/
theorem launch_loop_spec {path y : List UInt8} {rank_str : Nat → List UInt8} {spawnv : Nat → Int} {size : Nat}
    (hsize : size ≤ 16) (hlen : ∀ r, (rank_str r).length = 12) {n : Nat} {started : List Argv}
    (hn : started.length + n = size) (hranked : Ranked size started) {out_pids : Option (List Int)}
    (hout : ∀ pids ∈ out_pids, size ≤ pids.length) :
    ∃ l, launch_loop path (text 10 size ++ 0 :: y) rank_str spawnv n started.length started out_pids = some l ∧
      Ranked size l.started ∧
      (l.rc = MPI_SUCCESS ∧ l.started.length = size ∨
        l.rc = MPI_ERR_INTERN ∧ l.started.length < size ∧ spawnv l.started.length < 0) := by
  induction n generalizing started out_pids with
  | zero => exact ⟨_, rfl, hranked, .inl ⟨rfl, hn⟩⟩
  | succ n ih =>
    have hr : started.length < size := by omega
    have hwrite := @int_to_str_text started.length (by omega) (rank_str started.length) (by rw [hlen])
    rw [launch_loop, hwrite, Option.bind_some]
    by_cases hfail : spawnv started.length < 0
    · rw [if_pos hfail]
      exact ⟨_, rfl, hranked, .inr ⟨rfl, hr, hfail⟩⟩
    · obtain ⟨out', hstore, hout'⟩ := store_pid_returns hout hr (spawnv started.length)
      rw [if_neg hfail, hstore, Option.bind_some]
      have hnext := fun x => hranked.snoc (@parse_launched path started.length size hr hsize x y)
      obtain ⟨l, hloop, hl⟩ := ih (by rw [List.length_append, List.length_singleton]; omega) (hnext _) hout'
      rw [List.length_append, List.length_singleton] at hloop
      exact ⟨l, hloop, hl⟩

/-- For every size that the library allows, whatever the stack holds and `spawnv`
returns: `MPI_Launch` stores nothing outside its buffers, every process it has started
reads its own rank and the size from its arguments, and there are as many as the size
unless a `spawnv` has failed. -/
theorem MPI_Launch_ranks (path : List UInt8) {size : Nat} (hpos : 1 ≤ size) (hmax : size ≤ 16)
    {out_pids : Option (List Int)} (hout : ∀ pids ∈ out_pids, size ≤ pids.length) (frame : LaunchFrame)
    (spawnv : Nat → Int) :
    ∃ l, MPI_Launch path size out_pids frame spawnv = some l ∧ Ranked size l.started ∧
      (l.rc = MPI_SUCCESS ∧ l.started.length = size ∨
        l.rc = MPI_ERR_INTERN ∧ l.started.length < size ∧ spawnv l.started.length < 0) := by
  have hrange : ¬ ((size : Int) < 1 ∨ (size : Int) > MPI_MAX_RANKS) := by
    simp only [MPI_MAX_RANKS]
    omega
  have hnone : Ranked size [] := fun r argv h => by cases h
  have hwrite := @int_to_str_text size (by omega) frame.size_str (by rw [frame.size_len])
  rw [MPI_Launch, if_neg hrange, hwrite, Option.bind_some, Int.toNat_natCast]
  exact launch_loop_spec hmax frame.rank_len (Nat.zero_add size) hnone hout

end LibNeoos.Mpi
