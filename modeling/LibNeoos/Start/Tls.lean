import LibNeoos.Lib.Align
import Mathlib.Logic.Function.Basic
/-!
# Thread-local storage at the start of a thread

`getauxval`, `align_up`, `tls_find_template` and `__tls_setup_self` of `start.c`, on
64-bit words and a memory of bytes. The linker decides independently where a
program looks for its thread-local variables: below the thread pointer by the size
of the template, rounded up to the template's alignment.

`align_up` rounds to at least 8. For smaller alignments the library's size can be
larger than the linker's, and then the program sees its initial values displaced
(`tls_displaced`); `tls_initial_values` says exactly when it does not.
-/

namespace LibNeoos.Start

open Lib

/-! ## Memory -/

abbrev Word := BitVec 64

/-- A byte for each address. -/
abbrev Bytes := Word → BitVec 8

/-- The bytes at an address, the lowest first. -/
def read32 (m : Bytes) (a : Word) : BitVec 32 := m (a + 3) ++ m (a + 2) ++ m (a + 1) ++ m a

def read64 (m : Bytes) (a : Word) : Word := read32 m (a + 4) ++ read32 m a

/-- Byte `i` of a word in memory. -/
def byte (v : Word) (i : Nat) : BitVec 8 := v.extractLsb' (8 * i) 8

def store64 (m : Bytes) (a v : Word) : Bytes := fun b => if (b - a).toNat < 8 then byte v (b - a).toNat else m b

/-- The loop of `memcpy`, after `n` rounds. -/
def memcpy (m : Bytes) (dst src : Word) : Nat → Bytes
  | 0 => m
  | n + 1 =>
    let m' := memcpy m dst src n
    Function.update m' (dst + BitVec.ofNat 64 n) (m' (src + BitVec.ofNat 64 n))

/-- The address is in the mapping of `len` bytes at `raw`. -/
def inMapping (raw len b : Word) : Prop := (b - raw).toNat < len.toNat

instance (raw len b : Word) : Decidable (inMapping raw len b) := inferInstanceAs (Decidable (_ < _))

/-- A new mapping is filled with zeros. -/
def mmapped (m : Bytes) (raw len : Word) : Bytes := fun b => if inMapping raw len b then 0 else m b

/-! ## The code -/

abbrev AT_NULL : Word := 0
abbrev AT_PHDR : Word := 3
abbrev AT_PHENT : Word := 4
abbrev AT_PHNUM : Word := 5

/-- The entries of the auxiliary vector; `auxv_table` is null until it is set. -/
abbrev Auxv := Option (List (Word × Word))

def getauxval_loop (type : Word) : List (Word × Word) → Word
  | [] => 0
  | p :: rest => if p.1 = AT_NULL then 0 else if p.1 = type then p.2 else getauxval_loop type rest

def getauxval (auxv_table : Auxv) (type : Word) : Word :=
  match auxv_table with
  | none => 0
  | some table => getauxval_loop type table

abbrev PT_TLS : BitVec 32 := 7

/-- The fields of `Elf64_Phdr` that are read. -/
structure Elf64_Phdr where
  p_type : BitVec 32
  p_vaddr : Word
  p_filesz : Word
  p_memsz : Word
  p_align : Word
  deriving DecidableEq, Repr

def readPhdr (m : Bytes) (a : Word) : Elf64_Phdr where
  p_type := read32 m a
  p_vaddr := read64 m (a + 16)
  p_filesz := read64 m (a + 32)
  p_memsz := read64 m (a + 40)
  p_align := read64 m (a + 48)

/-- The static variables about the template. -/
structure Tls where
  tls_size : Word := 0
  tls_align : Word := 0
  tls_image : Word := 0
  tls_filesz : Word := 0
  deriving DecidableEq, Repr

def align_up (v a : Word) : Word :=
  let a := if a < 8 then 8 else a
  (v + a - 1) &&& ~~~(a - 1)

/-- What the loop of `tls_find_template` sets for a header. -/
def Elf64_Phdr.template (ph : Elf64_Phdr) : Tls :=
  let tls_align := if ph.p_align ≠ 0 then ph.p_align else 8
  { tls_image := ph.p_vaddr, tls_filesz := ph.p_filesz, tls_align, tls_size := align_up ph.p_memsz tls_align }

/-- The loop of `tls_find_template` from index `i`, with `n` rounds to go. -/
def tls_find_loop (m : Bytes) (phdr phent : Word) : Nat → Nat → Tls
  | 0, _ => {}
  | n + 1, i =>
    let ph := readPhdr m (phdr + BitVec.ofNat 64 i * phent)
    if ph.p_type ≠ PT_TLS then tls_find_loop m phdr phent n (i + 1) else ph.template

def tls_find_template (m : Bytes) (auxv : Auxv) : Tls :=
  let phdr := getauxval auxv AT_PHDR
  let phnum := getauxval auxv AT_PHNUM
  let phent := getauxval auxv AT_PHENT
  if phdr = 0 ∨ phnum = 0 ∨ phent = 0 then {} else tls_find_loop m phdr phent phnum.toNat 0

/-- What a call of `__tls_setup_self` returns, and the memory and the thread pointer after it. -/
structure Setup where
  rc : Int
  mem : Bytes
  fs : Word

/-- `__tls_setup_self`; `raw` is what `mmap_raw` returns and `arch_prctl` what that call returns. -/
def tls_setup_self (g : Tls) (m : Bytes) (fs raw : Word) (arch_prctl : Int) : Setup :=
  if g.tls_size = 0 then ⟨0, m, fs⟩
  else if raw.toInt < 0 then ⟨(raw.setWidth 32).toInt, m, fs⟩
  else
    let need := g.tls_size + g.tls_align + 64
    let base := align_up raw g.tls_align
    let tp := base + g.tls_size
    let zeroed := mmapped m raw need
    let copied := if g.tls_filesz ≠ 0 then memcpy zeroed base g.tls_image g.tls_filesz.toNat else zeroed
    ⟨arch_prctl, store64 copied tp tp, if arch_prctl = 0 then tp else fs⟩

/-! ## The template that is found -/

/-- The program headers that the auxiliary vector points to. -/
def headers (m : Bytes) (auxv : Auxv) : List Elf64_Phdr :=
  if getauxval auxv AT_PHDR = 0 ∨ getauxval auxv AT_PHENT = 0 then []
  else (List.range' 0 (getauxval auxv AT_PHNUM).toNat).map fun i =>
    readPhdr m (getauxval auxv AT_PHDR + BitVec.ofNat 64 i * getauxval auxv AT_PHENT)

def Elf64_Phdr.isTls (ph : Elf64_Phdr) : Bool := ph.p_type = PT_TLS

theorem tls_find_loop_eq (m : Bytes) (phdr phent : Word) (n : Nat) : ∀ i, tls_find_loop m phdr phent n i =
    ((((List.range' i n).map fun i => readPhdr m (phdr + BitVec.ofNat 64 i * phent)).find? Elf64_Phdr.isTls).map
      Elf64_Phdr.template).getD {} := by
  induction n with
  | zero => exact fun i => rfl
  | succ n ih =>
    intro i
    simp only [tls_find_loop, List.range'_succ, List.map_cons]
    split_ifs with h
    · rw [ih, List.find?_cons_of_neg (by simpa [Elf64_Phdr.isTls] using h)]
    · rw [List.find?_cons_of_pos (by simpa [Elf64_Phdr.isTls] using h)]
      rfl

/-- `tls_find_template` finds the first header of type `PT_TLS`, and leaves the
variables alone if there is none. -/
theorem tls_find_template_headers (m : Bytes) (auxv : Auxv) :
    tls_find_template m auxv = (((headers m auxv).find? Elf64_Phdr.isTls).map Elf64_Phdr.template).getD {} := by
  unfold tls_find_template headers
  by_cases h0 : getauxval auxv AT_PHDR = 0 ∨ getauxval auxv AT_PHENT = 0
  · rw [if_pos (by tauto), if_pos h0]
    rfl
  · rw [if_neg h0]
    by_cases hnum : getauxval auxv AT_PHNUM = 0
    · rw [if_pos (by tauto), hnum]
      rfl
    · rw [if_neg (by tauto), tls_find_loop_eq]

theorem tls_find_template_eq {m : Bytes} {auxv : Auxv} {ph : Elf64_Phdr}
    (h : (headers m auxv).find? Elf64_Phdr.isTls = some ph) : tls_find_template m auxv = ph.template := by
  rw [tls_find_template_headers, h]
  rfl

/-! ## Alignment -/

/-- `align_up` rounds up to the alignment, but at least to 8. -/
theorem align_up_toNat {v a : Word} (ha : ∃ k, a.toNat = 2 ^ k) (h : v.toNat + max a.toNat 8 ≤ 2 ^ 64) :
    (align_up v a).toNat = roundup v.toNat (max a.toNat 8) := by
  obtain ⟨k, hk⟩ := ha
  unfold align_up
  by_cases ha : a < 8
  · have h8 : a.toNat < 8 := by simpa [BitVec.lt_def] using ha
    rw [if_pos ha, max_eq_right (by omega)]
    rw [max_eq_right (by omega)] at h
    exact toNat_masked_sum (a := 8) (k := 3) rfl h
  · have h8 : 8 ≤ a.toNat := by simpa [BitVec.lt_def] using ha
    rw [if_neg ha, max_eq_left h8]
    rw [max_eq_left h8] at h
    exact toNat_masked_sum hk h

/-- A template as the linker makes it: the alignment is 0 or a power of two, and the
image is a part of the template, which is not empty. -/
structure Elf64_Phdr.regular (ph : Elf64_Phdr) : Prop where
  align : ph.p_align = 0 ∨ ∃ k, ph.p_align.toNat = 2 ^ k
  filesz : ph.p_filesz.toNat ≤ ph.p_memsz.toNat
  memsz : 0 < ph.p_memsz.toNat

/-- No sum in the call wraps: the mapping ends below 2^64. -/
def noWrap (ph : Elf64_Phdr) (raw : Word) : Prop :=
  raw.toNat + roundup ph.p_memsz.toNat (max ph.p_align.toNat 8) + ph.template.tls_align.toNat + 64 < 2 ^ 64

variable {ph : Elf64_Phdr} {raw : Word}

theorem template_tls_align (ph : Elf64_Phdr) : ph.template.tls_align = if ph.p_align ≠ 0 then ph.p_align else 8 := rfl

theorem template_align (ph : Elf64_Phdr) : max ph.template.tls_align.toNat 8 = max ph.p_align.toNat 8 := by
  rw [template_tls_align]
  split_ifs with h
  · rfl
  · rw [not_not.1 h]
    rfl

theorem template_align_pow (ha : ph.p_align = 0 ∨ ∃ k, ph.p_align.toNat = 2 ^ k) :
    ∃ k, ph.template.tls_align.toNat = 2 ^ k := by
  rw [template_tls_align]
  split_ifs with h
  · exact ha.resolve_left h
  · exact ⟨3, rfl⟩

/-- The size of the block. -/
theorem template_size (ha : ph.p_align = 0 ∨ ∃ k, ph.p_align.toNat = 2 ^ k)
    (hw : ph.p_memsz.toNat + max ph.p_align.toNat 8 ≤ 2 ^ 64) :
    ph.template.tls_size.toNat = roundup ph.p_memsz.toNat (max ph.p_align.toNat 8) := by
  have hsize : ph.template.tls_size = align_up ph.p_memsz ph.template.tls_align := rfl
  rw [← template_align] at hw ⊢
  rw [hsize, align_up_toNat (template_align_pow ha) hw]

/-- The start of the block. -/
theorem base_eq (ha : ph.p_align = 0 ∨ ∃ k, ph.p_align.toNat = 2 ^ k)
    (hw : raw.toNat + max ph.p_align.toNat 8 ≤ 2 ^ 64) :
    (align_up raw ph.template.tls_align).toNat = roundup raw.toNat (max ph.p_align.toNat 8) := by
  rw [← template_align] at hw ⊢
  exact align_up_toNat (template_align_pow ha) hw

/-- It is in the mapping, at most an alignment above its start. -/
theorem base_toNat (ha : ph.p_align = 0 ∨ ∃ k, ph.p_align.toNat = 2 ^ k)
    (hw : raw.toNat + max ph.p_align.toNat 8 ≤ 2 ^ 64) :
    raw.toNat ≤ (align_up raw ph.template.tls_align).toNat ∧
      (align_up raw ph.template.tls_align).toNat < raw.toNat + max ph.p_align.toNat 8 := by
  rw [base_eq ha hw]
  exact ⟨le_roundup (by omega), roundup_lt (by omega)⟩

theorem tls_align_ge (ph : Elf64_Phdr) : max ph.p_align.toNat 8 ≤ ph.template.tls_align.toNat + 8 := by
  rw [← template_align]
  omega

/-- Neither rounding wraps. -/
theorem noWrap.sums (hw : noWrap ph raw) :
    ph.p_memsz.toNat + max ph.p_align.toNat 8 ≤ 2 ^ 64 ∧ raw.toNat + max ph.p_align.toNat 8 ≤ 2 ^ 64 := by
  have hle : ph.p_memsz.toNat ≤ roundup ph.p_memsz.toNat (max ph.p_align.toNat 8) := le_roundup (by omega)
  have := tls_align_ge ph
  unfold noWrap at hw
  omega

/-! ## The contents of the block -/

/-- `memcpy` copies the block that was there, if no byte of it is written before it is
read. -/
theorem memcpy_apply {m : Bytes} {dst src : Word} (n : Nat) (hn : n ≤ 2 ^ 64)
    (hsep : ∀ i < n, i ≤ (src + BitVec.ofNat 64 i - dst).toNat) (b : Word) :
    memcpy m dst src n b = if (b - dst).toNat < n then m (src + (b - dst)) else m b := by
  induction n generalizing b with
  | zero => simp [memcpy]
  | succ n ih =>
    have ih := ih (by omega) fun i hi => hsep i (by omega)
    have hsrc : memcpy m dst src n (src + BitVec.ofNat 64 n) = m (src + BitVec.ofNat 64 n) := by
      have := hsep n (by omega)
      rw [ih, if_neg (by omega)]
    have hself : (dst + BitVec.ofNat 64 n - dst).toNat = n := by
      have : dst + BitVec.ofNat 64 n - dst = BitVec.ofNat 64 n := by bv_omega
      rw [this, BitVec.toNat_ofNat]
      omega
    simp only [memcpy, hsrc]
    by_cases hb : b = dst + BitVec.ofNat 64 n
    · subst hb
      rw [Function.update_self, if_pos (by omega)]
      congr 1
      bv_omega
    · rw [Function.update_of_ne hb, ih]
      have hne : (b - dst).toNat ≠ n := by
        intro h
        apply hb
        bv_omega
      by_cases hlt : (b - dst).toNat < n
      · rw [if_pos hlt, if_pos (by omega)]
      · rw [if_neg hlt, if_neg (by omega)]

/-- A byte of the image, with zeros behind it. -/
def Elf64_Phdr.initial (ph : Elf64_Phdr) (m : Bytes) (o : Nat) : BitVec 8 :=
  if o < ph.p_filesz.toNat then m (ph.p_vaddr + BitVec.ofNat 64 o) else 0

/-- The image is not in the new mapping. -/
def apart (ph : Elf64_Phdr) (raw : Word) : Prop :=
  ∀ o < ph.p_filesz.toNat,
    ¬ inMapping raw (ph.template.tls_size + ph.template.tls_align + 64) (ph.p_vaddr + BitVec.ofNat 64 o)

theorem sub_self_offset (base : Word) (j : Nat) : base + BitVec.ofNat 64 j - base = BitVec.ofNat 64 j := by
  rw [BitVec.add_comm, BitVec.add_sub_cancel]

/-- An address below the thread pointer. -/
theorem below_toNat {base size : Word} {j : Nat} (hj : j < size.toNat) (hs : size.toNat + 8 ≤ 2 ^ 64) :
    ¬ (base + BitVec.ofNat 64 j - (base + size)).toNat < 8 := by
  bv_omega

/-- An address in the block, seen from the start of the mapping. -/
theorem block_toNat {base raw : Word} {j : Nat} (h : raw.toNat ≤ base.toNat) (hj : base.toNat + j < 2 ^ 64) :
    (base + BitVec.ofNat 64 j - raw).toNat = base.toNat - raw.toNat + j := by
  bv_omega

/-- An address outside the mapping, seen from the start of the block. -/
theorem outside_toNat {base raw x : Word} (h : raw.toNat ≤ base.toNat) (hx : base.toNat - raw.toNat ≤ (x - raw).toNat) :
    (x - base).toNat = (x - raw).toNat - (base.toNat - raw.toNat) := by
  bv_omega

/-- What a call does once it has a mapping. -/
theorem setup_mapped {m : Bytes} {fs : Word} {prctl : Int} (hsize : ph.template.tls_size ≠ 0) (hraw : 0 ≤ raw.toInt) :
    let base := align_up raw ph.template.tls_align
    let tp := base + ph.template.tls_size
    tls_setup_self ph.template m fs raw prctl =
      ⟨prctl, store64 (memcpy (mmapped m raw (ph.template.tls_size + ph.template.tls_align + 64)) base ph.p_vaddr
        ph.p_filesz.toNat) tp tp, if prctl = 0 then tp else fs⟩ := by
  unfold tls_setup_self
  rw [if_neg hsize, if_neg (by omega)]
  have hcopy : ∀ z : Bytes, (if ph.template.tls_filesz ≠ 0 then
      memcpy z (align_up raw ph.template.tls_align) ph.template.tls_image ph.template.tls_filesz.toNat else z) =
      memcpy z (align_up raw ph.template.tls_align) ph.p_vaddr ph.p_filesz.toNat := by
    intro z
    split_ifs with h0
    · rfl
    · have h0 : ph.p_filesz = 0 := not_not.1 h0
      rw [h0]
      rfl
  simp only [hcopy]

/-- What a successful call does. -/
theorem setup_eq {m : Bytes} {fs : Word} {prctl : Int} (hr : ph.regular) (hw : noWrap ph raw) (hraw : 0 ≤ raw.toInt)
    (hrc : (tls_setup_self ph.template m fs raw prctl).rc = 0) :
    let base := align_up raw ph.template.tls_align
    let tp := base + ph.template.tls_size
    (tls_setup_self ph.template m fs raw prctl).fs = tp ∧ (tls_setup_self ph.template m fs raw prctl).mem =
      store64 (memcpy (mmapped m raw (ph.template.tls_size + ph.template.tls_align + 64)) base ph.p_vaddr
        ph.p_filesz.toNat) tp tp := by
  have hsize : ph.template.tls_size ≠ 0 := by
    intro h0
    have h1 := template_size hr.align hw.sums.1
    have h2 : ph.p_memsz.toNat ≤ roundup ph.p_memsz.toNat (max ph.p_align.toNat 8) := le_roundup (by omega)
    have h3 := hr.memsz
    rw [h0] at h1
    simp at h1
    omega
  rw [setup_mapped hsize hraw] at hrc ⊢
  exact ⟨if_pos hrc, rfl⟩

/-- The block has the image, with zeros behind it. -/
theorem block_byte {m : Bytes} {j : Nat} (hr : ph.regular) (hw : noWrap ph raw) (hsep : apart ph raw)
    (hj : j < ph.template.tls_size.toNat) (v : Word) :
    store64 (memcpy (mmapped m raw (ph.template.tls_size + ph.template.tls_align + 64))
      (align_up raw ph.template.tls_align) ph.p_vaddr ph.p_filesz.toNat)
      (align_up raw ph.template.tls_align + ph.template.tls_size) v
        (align_up raw ph.template.tls_align + BitVec.ofNat 64 j) =
    ph.initial m j := by
  have hsize := template_size hr.align hw.sums.1
  have hle : ph.p_memsz.toNat ≤ roundup ph.p_memsz.toNat (max ph.p_align.toNat 8) := le_roundup (by omega)
  have hfile := hr.filesz
  obtain ⟨hlow, hhigh⟩ := base_toNat hr.align hw.sums.2
  have hge := tls_align_ge ph
  unfold noWrap at hw
  rw [← hsize] at hw hle
  unfold apart at hsep
  have hneed : (ph.template.tls_size + ph.template.tls_align + 64).toNat =
      ph.template.tls_size.toNat + ph.template.tls_align.toNat + 64 := by
    rw [BitVec.toNat_add, BitVec.toNat_add]
    simp only [BitVec.reduceToNat]
    omega
  unfold Elf64_Phdr.initial
  generalize align_up raw ph.template.tls_align = base at hlow hhigh ⊢
  generalize ph.template.tls_size = size at *
  generalize ph.template.tls_align = align at *
  have hjlt : (BitVec.ofNat 64 j).toNat = j := by
    rw [BitVec.toNat_ofNat]
    omega
  have hcopy : ∀ i < ph.p_filesz.toNat, i ≤ (ph.p_vaddr + BitVec.ofNat 64 i - base).toNat := by
    intro i hi
    have hout := hsep i hi
    unfold inMapping at hout
    rw [outside_toNat hlow (by omega)]
    omega
  rw [store64, if_neg (below_toNat hj (by omega)), memcpy_apply _ (by omega) hcopy, sub_self_offset, hjlt]
  by_cases hjf : j < ph.p_filesz.toNat
  · rw [if_pos hjf, if_pos hjf, mmapped, if_neg (hsep j hjf)]
  · have hin : inMapping raw (size + align + 64) (base + BitVec.ofNat 64 j) := by
      unfold inMapping
      rw [block_toNat hlow (by omega)]
      omega
    rw [if_neg hjf, if_neg hjf, mmapped, if_pos hin]

/-! ## Where the program looks -/

/-- The linker's alignment divides the library's. -/
theorem align_dvd (ha : ph.p_align = 0 ∨ ∃ k, ph.p_align.toNat = 2 ^ k) :
    max ph.p_align.toNat 1 ∣ max ph.p_align.toNat 8 := by
  rcases ha with h | ⟨k, hk⟩
  · rw [h]
    exact Nat.one_dvd _
  · have hpos := Nat.two_pow_pos k
    rw [hk, max_eq_left (by omega)]
    by_cases h8 : 8 ≤ 2 ^ k
    · rw [max_eq_left h8]
    · have hk3 : k ≤ 3 := by
        by_contra hk3
        have : 2 ^ 3 ≤ 2 ^ k := Nat.pow_le_pow_right (by decide) (by omega)
        omega
      rw [max_eq_right (by omega)]
      exact Nat.pow_dvd_pow 2 hk3

theorem linker_address {base size : Word} {n o : Nat} (h : n ≤ size.toNat) :
    base + size - BitVec.ofNat 64 n + BitVec.ofNat 64 o = base + BitVec.ofNat 64 (size.toNat - n + o) := by
  bv_omega

theorem self_pointer (m : Bytes) (tp v : Word) {i : Nat} (hi : i < 8) :
    store64 m tp v (tp + BitVec.ofNat 64 i) = byte v i := by
  have hlt : (BitVec.ofNat 64 i).toNat = i := by
    rw [BitVec.toNat_ofNat]
    omega
  rw [store64, sub_self_offset, hlt, if_pos hi]

/-- For every regular template that the headers have, every memory and every mapping
that does not wrap and is apart from the image: after a successful
`__tls_setup_self` each byte of the template, where the linker places it, has its
initial value, and the thread pointer points to itself, exactly if the linker's size
is the library's or all bytes of the image are 0. -/
theorem tls_initial_values {m₀ m : Bytes} {auxv : Auxv} {fs : Word} {prctl : Int}
    (hfind : (headers m₀ auxv).find? Elf64_Phdr.isTls = some ph) (hr : ph.regular) (hw : noWrap ph raw)
    (hsep : apart ph raw) (hraw : 0 ≤ raw.toInt)
    (hrc : (tls_setup_self (tls_find_template m₀ auxv) m fs raw prctl).rc = 0) :
    let after := tls_setup_self (tls_find_template m₀ auxv) m fs raw prctl
    ((∀ o < ph.p_memsz.toNat,
        after.mem (after.fs - BitVec.ofNat 64 (roundup ph.p_memsz.toNat (max ph.p_align.toNat 1)) + BitVec.ofNat 64 o) =
          if o < ph.p_filesz.toNat then m (ph.p_vaddr + BitVec.ofNat 64 o) else 0) ∧
      ∀ i < 8, after.mem (after.fs + BitVec.ofNat 64 i) = byte after.fs i) ↔
    (roundup ph.p_memsz.toNat (max ph.p_align.toNat 1) = roundup ph.p_memsz.toNat (max ph.p_align.toNat 8) ∨
      ∀ o < ph.p_filesz.toNat, m (ph.p_vaddr + BitVec.ofNat 64 o) = 0) := by
  rw [tls_find_template_eq hfind] at hrc ⊢
  obtain ⟨hfs, hmem⟩ := setup_eq hr hw hraw hrc
  have hsize := template_size hr.align hw.sums.1
  have hle : roundup ph.p_memsz.toNat (max ph.p_align.toNat 1) ≤ ph.template.tls_size.toNat := by
    rw [hsize]
    exact roundup_mono_of_dvd (by omega) (by omega) (align_dvd hr.align)
  have hmemsz : ph.p_memsz.toNat ≤ roundup ph.p_memsz.toNat (max ph.p_align.toNat 1) := le_roundup (by omega)
  -- the byte that is found for offset `o`
  have hbyte : ∀ o < ph.p_memsz.toNat, (tls_setup_self ph.template m fs raw prctl).mem
      ((tls_setup_self ph.template m fs raw prctl).fs -
        BitVec.ofNat 64 (roundup ph.p_memsz.toNat (max ph.p_align.toNat 1)) + BitVec.ofNat 64 o) =
      ph.initial m (ph.template.tls_size.toNat - roundup ph.p_memsz.toNat (max ph.p_align.toNat 1) + o) := by
    intro o ho
    rw [hmem, hfs, linker_address hle]
    exact block_byte hr hw hsep (by omega) _
  have hself : ∀ i < 8, (tls_setup_self ph.template m fs raw prctl).mem
      ((tls_setup_self ph.template m fs raw prctl).fs + BitVec.ofNat 64 i) =
      byte (tls_setup_self ph.template m fs raw prctl).fs i := by
    intro i hi
    rw [hmem, hfs]
    exact self_pointer _ _ _ hi
  have hzero : ∀ i, ph.p_filesz.toNat ≤ i → ph.initial m i = 0 := fun i hi => if_neg (by omega)
  have hshift := shifted_eq_iff (d := ph.template.tls_size.toNat - roundup ph.p_memsz.toNat (max ph.p_align.toNat 1))
    hzero hr.filesz
  have himage : (∀ i < ph.p_filesz.toNat, ph.initial m i = 0) ↔
      ∀ o < ph.p_filesz.toNat, m (ph.p_vaddr + BitVec.ofNat 64 o) = 0 := by
    refine forall_congr' fun i => imp_congr_right fun hi => ?_
    rw [Elf64_Phdr.initial, if_pos hi]
  rw [himage] at hshift
  refine ⟨fun h => ?_, fun h => ⟨fun o ho => ?_, hself⟩⟩
  · refine (hshift.1 fun o ho => ?_).imp_left fun hd => by omega
    rw [← hbyte o ho]
    exact h.1 o ho
  · rw [hbyte o ho]
    exact hshift.2 (h.imp_left fun hd => by omega) o ho

/-- A memory with one program header at 0x100 and an image at 0x200. -/
def sample (align memsz filesz : BitVec 8) (image : List (BitVec 8)) : Bytes := fun b =>
  match b.toNat with
  | 0x100 => 7
  | 0x111 => 2
  | 0x120 => filesz
  | 0x128 => memsz
  | 0x130 => align
  | n => if 0x200 ≤ n then image.getD (n - 0x200) 0 else 0

def sampleAuxv : Auxv := some [(AT_PHDR, 0x100), (AT_PHENT, 56), (AT_PHNUM, 1), (AT_NULL, 0)]

/-- Three bytes of initialised data in a template of 24 with alignment 16. -/
theorem tls_initial_values_aligned :
    let m := sample 16 24 3 [1, 2, 3]
    let after := tls_setup_self (tls_find_template m sampleAuxv) m 0 0x10008 0
    ∀ o < 24, after.mem (after.fs - BitVec.ofNat 64 (roundup 24 (max 16 1)) + BitVec.ofNat 64 o) =
      if o < 3 then m (0x200 + BitVec.ofNat 64 o) else 0 := by
  have hfind : (headers (sample 16 24 3 [1, 2, 3]) sampleAuxv).find? Elf64_Phdr.isTls = some ⟨7, 0x200, 3, 24, 16⟩ := by
    decide +kernel
  have hr : Elf64_Phdr.regular ⟨7, 0x200, 3, 24, 16⟩ := ⟨.inr ⟨4, rfl⟩, by decide, by decide⟩
  have hw : noWrap ⟨7, 0x200, 3, 24, 16⟩ 0x10008 := by
    unfold noWrap
    decide +kernel
  have hsep : apart ⟨7, 0x200, 3, 24, 16⟩ 0x10008 := by
    unfold apart
    decide +kernel
  exact ((tls_initial_values hfind hr hw hsep (by decide) (by decide +kernel)).2 (.inl rfl)).1

/-- Four bytes of initialised data with alignment 4: the library's block has 8 bytes,
the linker's 4, and the first variable reads 0 instead of 1. -/
theorem tls_displaced :
    let m := sample 4 4 4 [1, 2, 3, 4]
    let ph : Elf64_Phdr := ⟨7, 0x200, 4, 4, 4⟩
    let after := tls_setup_self (tls_find_template m sampleAuxv) m 0 0x10000 0
    (headers m sampleAuxv).find? Elf64_Phdr.isTls = some ph ∧ ph.regular ∧ noWrap ph 0x10000 ∧ apart ph 0x10000 ∧
    after.rc = 0 ∧ m (0x200 + BitVec.ofNat 64 0) = 1 ∧
    after.mem (after.fs - BitVec.ofNat 64 (roundup 4 (max 4 1)) + BitVec.ofNat 64 0) = 0 := by
  refine ⟨by decide +kernel, ⟨.inr ⟨2, rfl⟩, by decide, by decide⟩, ?_, ?_, by decide +kernel⟩
  · unfold noWrap
    decide +kernel
  · unfold apart
    decide +kernel

end LibNeoos.Start
