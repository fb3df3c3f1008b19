import LibNeoos.Start.Tls
/-!
# From `_start` to `main`

The kernel leaves one block on the stack: `argc`, the arguments and a zero, the
environment and a zero, the auxiliary vector up to `AT_NULL`. `_start` of `crt0.asm`
finds the regions one from another, the last one by a scan, and `start.c` walks the
auxiliary vector and the program headers in memory. The walks are compared with the
lists of `Start.Tls`.
-/

namespace LibNeoos.Start

/-! ## `crt0.asm` -/

inductive Reg where
  | rdi | rsi | rdx | rcx | rsp
  deriving DecidableEq

/-- The instructions that `_start` uses. -/
inductive Instr where
  /-- `mov dst, [base]` -/
  | load (dst base : Reg)
  /-- `mov dst, src` -/
  | mov (dst src : Reg)
  /-- `lea dst, [base + disp]` -/
  | lea (dst base : Reg) (disp : Word)
  | shl (dst : Reg) (k : Nat)
  | add (dst src : Reg)
  /-- `add dst, imm` -/
  | addi (dst : Reg) (imm : Word)
  /-- `cmp qword [base], imm` -/
  | cmp (base : Reg) (imm : Word)
  | je (target : Nat)
  | jmp (target : Nat)
  | call
  deriving DecidableEq

abbrev scan_env : Nat := 6
abbrev found_auxv : Nat := 10
/-- The `call __libc_start`. -/
abbrev libc_call : Nat := 11

def _start : List Instr := [
  .load .rdi .rsp,
  .lea .rsi .rsp 8,
  .lea .rdx .rdi 1,
  .shl .rdx 3,
  .add .rdx .rsi,
  .mov .rcx .rdx,
  -- scan_env
  .cmp .rcx 0,
  .je found_auxv,
  .addi .rcx 8,
  .jmp scan_env,
  -- found_auxv
  .addi .rcx 8,
  .call]

/-- The registers, the zero flag and the number of the next instruction. -/
structure Cpu where
  regs : Reg → Word
  zf : Bool
  pc : Nat

/-- The next instruction, with the result of an operation in a register. -/
def Cpu.set (c : Cpu) (r : Reg) (v : Word) : Cpu := { c with regs := Function.update c.regs r v, pc := c.pc + 1 }

/-- An arithmetic result also sets the flag. -/
def Cpu.setFlags (c : Cpu) (r : Reg) (v : Word) : Cpu := { c.set r v with zf := v == 0 }

def Cpu.exec (m : Bytes) (c : Cpu) : Instr → Option Cpu
  | .load dst base => some (c.set dst (read64 m (c.regs base)))
  | .mov dst src => some (c.set dst (c.regs src))
  | .lea dst base disp => some (c.set dst (c.regs base + disp))
  | .shl dst k => some (c.setFlags dst (c.regs dst <<< k))
  | .add dst src => some (c.setFlags dst (c.regs dst + c.regs src))
  | .addi dst imm => some (c.setFlags dst (c.regs dst + imm))
  | .cmp base imm => some { c with zf := read64 m (c.regs base) == imm, pc := c.pc + 1 }
  | .je target => some { c with pc := if c.zf then target else c.pc + 1 }
  | .jmp target => some { c with pc := target }
  | .call => none

/-- One instruction; it ends at the call. -/
def Cpu.step (m : Bytes) (c : Cpu) : Option Cpu := _start[c.pc]?.bind (c.exec m)

/-- The machine gets from one state to the other. -/
def Reaches (m : Bytes) : Cpu → Cpu → Prop := Relation.ReflTransGen fun c c' => c.step m = some c'

/-! ## `start.c` -/

namespace Entry

/-- The loop of `getauxval`; `none` when `fuel` is used up. -/
def getauxval_loop (m : Bytes) (type : Word) : Nat → Word → Option Word
  | 0, _ => none
  | fuel + 1, p =>
    if read64 m p = AT_NULL then some 0
    else if read64 m p = type then some (read64 m (p + 8))
    else getauxval_loop m type fuel (p + 16)

def getauxval (m : Bytes) (auxv_table : Word) (fuel : Nat) (type : Word) : Option Word :=
  if auxv_table = 0 then some 0 else getauxval_loop m type fuel auxv_table

def tls_find_template (m : Bytes) (auxv_table : Word) (fuel : Nat) : Option Tls := do
  let phdr ← getauxval m auxv_table fuel AT_PHDR
  let phnum ← getauxval m auxv_table fuel AT_PHNUM
  let phent ← getauxval m auxv_table fuel AT_PHENT
  if phdr = 0 ∨ phnum = 0 ∨ phent = 0 then return {} else return tls_find_loop m phdr phent phnum.toNat 0

/-- How the process goes on. -/
inductive Fate where
  | exit (code : Int)
  | main (argc : BitVec 32) (argv : Word)
  deriving DecidableEq

/-- The process when `__libc_start` is done with its preparations. -/
structure Process where
  auxv_table : Word
  environ : Word
  tls : Tls
  mem : Bytes
  fs : Word
  fate : Fate

/-- `__libc_start`; `raw` and `prctl` are as in `tls_setup_self`. -/
def libc_start (m : Bytes) (fs : Word) (argc : BitVec 32) (argv envp auxv : Word) (raw : Word) (prctl : Int)
    (fuel : Nat) :
    Option Process := do
  let tls ← tls_find_template m auxv fuel
  let setup := tls_setup_self tls m fs raw prctl
  return { auxv_table := auxv, environ := envp, tls, mem := setup.mem, fs := setup.fs,
           fate := if setup.rc ≠ 0 then .exit 127 else .main argc argv }

end Entry

/-! ## The entry block -/

/-- The words are in memory from the address on. -/
def At (m : Bytes) : Word → List Word → Prop
  | _, [] => True
  | a, w :: ws => read64 m a = w ∧ At m (a + 8) ws

instance decidableAt (m : Bytes) : (a : Word) → (ws : List Word) → Decidable (At m a ws)
  | _, [] => .isTrue trivial
  | a, _ :: ws => @instDecidableAnd _ _ (inferInstanceAs (Decidable (_ = _))) (decidableAt m (a + 8) ws)

/-- The address `n` words on. -/
def offset (a : Word) (n : Nat) : Word := a + BitVec.ofNat 64 (8 * n)

def pairs (auxv : List (Word × Word)) : List Word := auxv.flatMap fun p => [p.1, p.2]

/-- The words of the block. -/
def layout (args envs : List Word) (auxv : List (Word × Word)) : List Word :=
  BitVec.ofNat 64 args.length :: (args ++ 0 :: (envs ++ 0 :: (pairs auxv ++ [AT_NULL])))

/-- The block that the kernel leaves at `rsp`. -/
structure EntryBlock (m : Bytes) (rsp : Word) (args envs : List Word) (auxv : List (Word × Word)) : Prop where
  words : At m rsp (layout args envs auxv)
  env : ∀ e ∈ envs, e ≠ 0
  types : ∀ p ∈ auxv, p.1 ≠ AT_NULL
  fits : rsp.toNat + 8 * (layout args envs auxv).length ≤ 2 ^ 64

variable {m : Bytes} {a : Word}

theorem offset_succ (a : Word) (n : Nat) : offset (a + 8) n = offset a (n + 1) := by
  unfold offset
  bv_omega

theorem offset_add_eight (a : Word) (n : Nat) : offset a n + 8 = offset a (n + 1) := by
  unfold offset
  bv_omega

theorem offset_offset (a : Word) (n k : Nat) : offset (offset a n) k = offset a (n + k) := by
  unfold offset
  bv_omega

theorem at_append {ws vs : List Word} : At m a (ws ++ vs) ↔ At m a ws ∧ At m (offset a ws.length) vs := by
  induction ws generalizing a with
  | nil => simp [At, offset]
  | cons w ws ih => rw [List.cons_append, At, At, ih, List.length_cons, offset_succ, and_assoc]

/-! ## `_start` finds the regions -/

/-- The address of the environment, from `argc` and the address of the arguments. -/
theorem envp_eq (rsp : Word) (n : Nat) : (BitVec.ofNat 64 n + 1) <<< 3 + (rsp + 8) = offset rsp (n + 2) := by
  unfold offset
  rw [BitVec.shiftLeft_eq_mul_twoPow]
  have h8 : BitVec.twoPow 64 3 = 8 := by decide
  rw [h8, BitVec.ofNat_mul, BitVec.ofNat_add]
  have h2 : BitVec.ofNat 64 2 = 2 := rfl
  have h8 : BitVec.ofNat 64 8 = 8 := rfl
  rw [h2, h8]
  generalize BitVec.ofNat 64 n = x
  bv_omega

/-- The instructions before the scan. -/
theorem prologue (c : Cpu) (hpc : c.pc = 0) :
    ∃ c', Reaches m c c' ∧ c'.pc = scan_env ∧ c'.regs .rdi = read64 m (c.regs .rsp) ∧ c'.regs .rsi = c.regs .rsp + 8 ∧
      c'.regs .rdx = (read64 m (c.regs .rsp) + 1) <<< 3 + (c.regs .rsp + 8) ∧ c'.regs .rcx = c'.regs .rdx := by
  obtain ⟨regs, zf, pc⟩ := c
  obtain rfl : pc = 0 := hpc
  exact ⟨_, .head rfl (.head rfl (.head rfl (.head rfl (.head rfl (.head rfl .refl))))), rfl, rfl, rfl, rfl, rfl⟩

/-- The scan over the environment stops at its end. -/
theorem scan_reaches {envs rest : List Word} (hwords : At m a (envs ++ 0 :: rest)) (henv : ∀ e ∈ envs, e ≠ 0) (c : Cpu)
    (hpc : c.pc = scan_env) (hrcx : c.regs .rcx = a) :
    ∃ c', Reaches m c c' ∧ c'.pc = found_auxv ∧ c'.regs .rcx = offset a envs.length ∧
      ∀ r, r ≠ .rcx → c'.regs r = c.regs r := by
  induction envs generalizing a c with
  | nil =>
    obtain ⟨regs, zf, pc⟩ := c
    obtain rfl : pc = scan_env := hpc
    subst hrcx
    obtain ⟨hzero, -⟩ := hwords
    refine ⟨⟨regs, true, found_auxv⟩, .head (b := ⟨regs, true, 7⟩) ?_ (.single rfl), rfl, ?_, fun r _ => rfl⟩
    · change some _ = some _
      simp only [hzero]
      rfl
    · simp [offset]
  | cons e envs ih =>
    obtain ⟨regs, zf, pc⟩ := c
    obtain rfl : pc = scan_env := hpc
    subst hrcx
    obtain ⟨he, hwords⟩ := hwords
    have hne := henv e (List.mem_cons_self ..)
    have hloop : Reaches m ⟨regs, zf, scan_env⟩
        ⟨Function.update regs .rcx (regs .rcx + 8), regs .rcx + 8 == 0, scan_env⟩ := by
      refine .head (b := ⟨regs, false, 7⟩) ?_ (.head rfl (.head rfl (.single rfl)))
      change some _ = some _
      simp only [he, beq_eq_false_iff_ne.2 hne]
    obtain ⟨c', hreach, hpc', hrcx', hregs⟩ := ih hwords (fun e' he' => henv e' (List.mem_cons_of_mem _ he'))
      ⟨Function.update regs .rcx (regs .rcx + 8), regs .rcx + 8 == 0, scan_env⟩ rfl
        (Function.update_self Reg.rcx _ regs)
    refine ⟨c', hloop.trans hreach, hpc', ?_, fun r hr => ?_⟩
    · rw [hrcx', offset_succ, List.length_cons]
    · exact (hregs r hr).trans (Function.update_of_ne hr ..)

/-- `_start` calls `__libc_start` with the number of arguments and the addresses of the
three regions. -/
theorem start_reaches {rsp : Word} {args envs : List Word} {auxv : List (Word × Word)}
    (h : EntryBlock m rsp args envs auxv) (c : Cpu) (hpc : c.pc = 0) (hrsp : c.regs .rsp = rsp) :
    ∃ c', Reaches m c c' ∧ c'.pc = libc_call ∧ c'.regs .rdi = BitVec.ofNat 64 args.length ∧
      c'.regs .rsi = offset rsp 1 ∧ c'.regs .rdx = offset rsp (args.length + 2) ∧
      c'.regs .rcx = offset rsp (args.length + envs.length + 3) := by
  obtain ⟨hargc, hwords⟩ := h.words
  obtain ⟨c₁, hreach₁, hpc₁, hrdi, hrsi, hrdx, hrcx⟩ := prologue (m := m) c hpc
  rw [hrsp, hargc] at hrdi
  rw [hrsp, hargc, envp_eq] at hrdx
  rw [hrdx] at hrcx
  have henvs : At m (offset rsp (args.length + 2)) (envs ++ 0 :: (pairs auxv ++ [AT_NULL])) := by
    have := (at_append.1 hwords).2.2
    rwa [offset_add_eight, offset_succ] at this
  obtain ⟨c₂, hreach₂, hpc₂, hrcx₂, hregs⟩ := scan_reaches henvs h.env c₁ hpc₁ hrcx
  obtain ⟨regs, zf, pc⟩ := c₂
  obtain rfl : pc = found_auxv := hpc₂
  refine ⟨_, (hreach₁.trans hreach₂).tail rfl, rfl, ?_, ?_, ?_, ?_⟩
  · exact (hregs .rdi (by decide)).trans hrdi
  · exact (hregs .rsi (by decide)).trans (hrsi.trans (by rw [hrsp]; rfl))
  · exact (hregs .rdx (by decide)).trans hrdx
  · change regs .rcx + 8 = _
    rw [show regs .rcx = _ from hrcx₂, offset_offset, offset_add_eight]
    congr 1
    omega

/-! ## `start.c` walks them -/

/-- The value of the first pair with the type. -/
def lookup (auxv : List (Word × Word)) (type : Word) : Option Word := (auxv.find? (·.1 = type)).map Prod.snd

theorem lookup_cons (p : Word × Word) (auxv : List (Word × Word)) (type : Word) :
    lookup (p :: auxv) type = if p.1 = type then some p.2 else lookup auxv type := by
  unfold lookup
  by_cases h : p.1 = type
  · rw [if_pos h, List.find?_cons_of_pos (by simpa using h)]
    rfl
  · rw [if_neg h, List.find?_cons_of_neg (by simpa using h)]

theorem getauxval_lookup {auxv : List (Word × Word)} (htypes : ∀ p ∈ auxv, p.1 ≠ AT_NULL) (type : Word) :
    getauxval (some auxv) type = (lookup auxv type).getD 0 := by
  change getauxval_loop type auxv = _
  induction auxv with
  | nil => rfl
  | cons p auxv ih =>
    rw [getauxval_loop, if_neg (htypes p (List.mem_cons_self ..)), lookup_cons,
      ih fun q hq => htypes q (List.mem_cons_of_mem _ hq)]
    split_ifs
    · rfl
    · rfl

/-- The walk in memory is the one over the list. -/
theorem getauxval_loop_at {auxv : List (Word × Word)} (htypes : ∀ p ∈ auxv, p.1 ≠ AT_NULL)
    (hwords : At m a (pairs auxv ++ [AT_NULL])) (type : Word) {fuel : Nat} (hfuel : auxv.length < fuel) :
    Entry.getauxval_loop m type fuel a = some (getauxval_loop type auxv) := by
  induction auxv generalizing a fuel with
  | nil =>
    obtain ⟨n, rfl⟩ : ∃ n, fuel = n + 1 := ⟨fuel - 1, by simp at hfuel; omega⟩
    rw [Entry.getauxval_loop, if_pos hwords.1]
    rfl
  | cons p auxv ih =>
    rw [List.length_cons] at hfuel
    obtain ⟨n, rfl⟩ : ∃ n, fuel = n + 1 := ⟨fuel - 1, by omega⟩
    obtain ⟨htype, hvalue, hwords⟩ := hwords
    have hne := htypes p (List.mem_cons_self ..)
    have hnext : a + 8 + 8 = a + 16 := by bv_omega
    rw [hnext] at hwords
    rw [Entry.getauxval_loop, htype, if_neg hne, hvalue, getauxval_loop, if_neg hne,
      ih (fun q hq => htypes q (List.mem_cons_of_mem _ hq)) hwords (by omega)]
    split_ifs
    · rfl
    · rfl

/-- The program headers that the three entries lead to; a null pointer leads to none. -/
def Reached (m : Bytes) (auxv : List (Word × Word)) (hs : List Elf64_Phdr) : Prop :=
  ∃ phdr phnum phent, lookup auxv AT_PHDR = some phdr ∧ lookup auxv AT_PHNUM = some phnum ∧
    lookup auxv AT_PHENT = some phent ∧ phdr ≠ 0 ∧ 56 ≤ phent.toNat ∧ hs.length = phnum.toNat ∧
    ∀ i (h : i < hs.length), readPhdr m (phdr + BitVec.ofNat 64 i * phent) = hs[i]

theorem headers_of_reached {auxv : List (Word × Word)} {hs : List Elf64_Phdr}
    (htypes : ∀ p ∈ auxv, p.1 ≠ AT_NULL) (h : Reached m auxv hs) : headers m (some auxv) = hs := by
  obtain ⟨phdr, phnum, phent, hphdr, hphnum, hphent, hne, hstride, hlen, hread⟩ := h
  have hpos : phent ≠ 0 := by
    rintro rfl
    exact absurd hstride (by decide)
  unfold headers
  rw [getauxval_lookup htypes, getauxval_lookup htypes, getauxval_lookup htypes, hphdr, hphnum, hphent,
    Option.getD_some, Option.getD_some, Option.getD_some, if_neg (by tauto)]
  apply List.ext_getElem
  · rw [List.length_map, List.length_range', hlen]
  · intro i hi hi'
    rw [List.getElem_map, List.getElem_range', ← hread i hi', Nat.one_mul, Nat.zero_add]

theorem headers_of_absent {auxv : List (Word × Word)} (htypes : ∀ p ∈ auxv, p.1 ≠ AT_NULL)
    (h : lookup auxv AT_PHDR = none ∨ lookup auxv AT_PHNUM = none ∨ lookup auxv AT_PHENT = none) :
    headers m (some auxv) = [] := by
  unfold headers
  rw [getauxval_lookup htypes, getauxval_lookup htypes, getauxval_lookup htypes]
  rcases h with h | h | h
  · rw [h, if_pos (.inl rfl)]
  · rw [h]
    split_ifs
    · rfl
    · rfl
  · rw [h, if_pos (.inr rfl)]

variable {rsp : Word} {args envs : List Word} {auxv : List (Word × Word)}

/-- The three regions of the block. -/
theorem EntryBlock.regions (h : EntryBlock m rsp args envs auxv) :
    At m (offset rsp 1) (args ++ [0]) ∧ At m (offset rsp (args.length + 2)) (envs ++ [0]) ∧
      At m (offset rsp (args.length + envs.length + 3)) (pairs auxv ++ [AT_NULL]) := by
  obtain ⟨-, hwords⟩ := h.words
  have hsplit : args ++ 0 :: (envs ++ 0 :: (pairs auxv ++ [AT_NULL])) =
      (args ++ [0]) ++ ((envs ++ [0]) ++ (pairs auxv ++ [AT_NULL])) := by simp
  have hlen : args.length + 2 + (envs.length + 1) = args.length + envs.length + 3 := by omega
  rw [hsplit] at hwords
  obtain ⟨hargs, hrest⟩ := at_append.1 hwords
  obtain ⟨henvs, hauxv⟩ := at_append.1 hrest
  rw [List.length_append, List.length_singleton, offset_succ] at henvs hauxv
  rw [List.length_append, List.length_singleton, offset_offset, hlen] at hauxv
  exact ⟨hargs, henvs, hauxv⟩

/-- The auxiliary vector is not at the address 0. -/
theorem EntryBlock.auxv_ne_zero (h : EntryBlock m rsp args envs auxv) :
    offset rsp (args.length + envs.length + 3) ≠ 0 := by
  have hfits := h.fits
  have hlen : args.length + envs.length + 3 < (layout args envs auxv).length := by
    simp only [layout, List.length_cons, List.length_append]
    omega
  generalize (layout args envs auxv).length = n at hfits hlen
  generalize args.length + envs.length = k at hlen ⊢
  unfold offset
  bv_omega

theorem EntryBlock.getauxval (h : EntryBlock m rsp args envs auxv) {fuel : Nat} (hfuel : auxv.length < fuel)
    (type : Word) :
    Entry.getauxval m (offset rsp (args.length + envs.length + 3)) fuel type =
      some (Start.getauxval (some auxv) type) := by
  rw [Entry.getauxval, if_neg h.auxv_ne_zero, getauxval_loop_at h.types h.regions.2.2 type hfuel]
  rfl

theorem EntryBlock.tls_find_template (h : EntryBlock m rsp args envs auxv) {fuel : Nat} (hfuel : auxv.length < fuel) :
    Entry.tls_find_template m (offset rsp (args.length + envs.length + 3)) fuel =
      some (Start.tls_find_template m (some auxv)) := by
  simp only [Entry.tls_find_template, h.getauxval hfuel, Option.bind_eq_bind, Option.bind_some, Start.tls_find_template]
  split_ifs
  · rfl
  · rfl

/-- For every entry block and every state in which `_start` begins on it: it calls
`__libc_start` with the number of arguments and the addresses of the three regions.
Then `getauxval` returns the value of the first pair of a type and 0 if there is none,
`__libc_start` takes its template from the first `PT_TLS` header of the table that the
vector leads to, and has none if the table has no such header or an entry is missing. -/
theorem startup_decodes (h : EntryBlock m rsp args envs auxv) (c : Cpu) (hpc : c.pc = 0) (hrsp : c.regs .rsp = rsp)
    {fuel : Nat} (hfuel : auxv.length < fuel) :
    ∃ c', Reaches m c c' ∧ c'.pc = libc_call ∧ c'.regs .rdi = BitVec.ofNat 64 args.length ∧
      (c'.regs .rsi = offset rsp 1 ∧ At m (c'.regs .rsi) (args ++ [0])) ∧
      (c'.regs .rdx = offset rsp (args.length + 2) ∧ At m (c'.regs .rdx) (envs ++ [0])) ∧
      (c'.regs .rcx = offset rsp (args.length + envs.length + 3) ∧ At m (c'.regs .rcx) (pairs auxv ++ [AT_NULL])) ∧
      (∀ type, Entry.getauxval m (c'.regs .rcx) fuel type = some ((lookup auxv type).getD 0)) ∧
      ∀ (fs raw : Word) (prctl : Int), ∃ p,
        Entry.libc_start m fs ((c'.regs .rdi).setWidth 32) (c'.regs .rsi) (c'.regs .rdx) (c'.regs .rcx) raw prctl fuel =
          some p ∧
        p.environ = c'.regs .rdx ∧ p.auxv_table = c'.regs .rcx ∧
        (∀ hs, Reached m auxv hs → (∀ ph, hs.find? Elf64_Phdr.isTls = some ph → p.tls = ph.template) ∧
          (hs.find? Elf64_Phdr.isTls = none → p.tls.tls_size = 0)) ∧
        (lookup auxv AT_PHDR = none ∨ lookup auxv AT_PHNUM = none ∨ lookup auxv AT_PHENT = none →
          p.tls.tls_size = 0) := by
  obtain ⟨c', hreach, hpc', hrdi, hrsi, hrdx, hrcx⟩ := start_reaches h c hpc hrsp
  obtain ⟨hargs, henvs, hauxv⟩ := h.regions
  refine ⟨c', hreach, hpc', hrdi, ⟨hrsi, hrsi ▸ hargs⟩, ⟨hrdx, hrdx ▸ henvs⟩, ⟨hrcx, hrcx ▸ hauxv⟩, fun type => ?_,
    fun fs raw prctl => ?_⟩
  · rw [hrcx, h.getauxval hfuel, getauxval_lookup h.types]
  · have htls := h.tls_find_template hfuel
    rw [← hrcx, tls_find_template_headers] at htls
    simp only [Entry.libc_start, htls, Option.bind_eq_bind, Option.bind_some]
    refine ⟨_, rfl, rfl, rfl, fun hs hreached => ⟨fun ph hfind => ?_, fun hfind => ?_⟩, fun habsent => ?_⟩
    · simp only [headers_of_reached h.types hreached, hfind]
      rfl
    · simp only [headers_of_reached h.types hreached, hfind]
      rfl
    · simp only [headers_of_absent h.types habsent]
      rfl

/-- A memory with the given words from 0x8000 on. -/
def stack (ws : List Word) : Bytes := fun b => byte (ws.getD ((b - 0x8000).toNat / 8) 0) ((b - 0x8000).toNat % 8)

/-- One argument, one environment string, and a table of two headers behind the block
of which the second is the template's. -/
theorem startup_decodes_one :
    let auxv : List (Word × Word) := [(AT_PHDR, 0x8060), (AT_PHENT, 56), (AT_PHNUM, 2)]
    let text : Elf64_Phdr := ⟨1, 0x400000, 0x1000, 0x1000, 0x1000⟩
    let tls : Elf64_Phdr := ⟨PT_TLS, 0x401000, 16, 40, 16⟩
    let m := stack (layout [0x500] [0x600] auxv ++ [1, 0, 0x400000, 0x400000, 0x1000, 0x1000, 0x1000] ++
      [7, 0x1000, 0x401000, 0x401000, 16, 40, 16])
    EntryBlock m 0x8000 [0x500] [0x600] auxv ∧ Reached m auxv [text, tls] ∧
      ∃ c', Reaches m ⟨fun _ => 0x8000, false, 0⟩ c' ∧ c'.regs .rdx = 0x8018 ∧ c'.regs .rcx = 0x8028 ∧
        Entry.getauxval m (c'.regs .rcx) 4 AT_PHENT = some 56 ∧
        ∀ (fs raw : Word) (prctl : Int), ∃ p, Entry.libc_start m fs ((c'.regs .rdi).setWidth 32) (c'.regs .rsi)
          (c'.regs .rdx) (c'.regs .rcx) raw prctl 4 = some p ∧ p.tls = ⟨48, 16, 0x401000, 16⟩ := by
  intro auxv text tls m
  have hblock : EntryBlock m 0x8000 [0x500] [0x600] auxv :=
    ⟨by decide +kernel, by simp, by simp [auxv], by decide⟩
  have hreached : Reached m auxv [text, tls] :=
    ⟨0x8060, 2, 56, rfl, rfl, rfl, by decide, by decide, rfl, by decide +kernel⟩
  obtain ⟨c', hreach, -, -, -, hrdx, hrcx, hget, hstart⟩ :=
    startup_decodes hblock ⟨fun _ => 0x8000, false, 0⟩ rfl rfl (show auxv.length < 4 by decide)
  refine ⟨hblock, hreached, c', hreach, hrdx.1.trans (by decide), hrcx.1.trans (by decide), hget AT_PHENT,
    fun fs raw prctl => ?_⟩
  obtain ⟨p, hp, -, -, htable, -⟩ := hstart fs raw prctl
  exact ⟨p, hp, ((htable _ hreached).1 tls (by decide)).trans (by decide)⟩

end LibNeoos.Start
