import LibNeoos.Start.Tls
/-!
# Where the block of a thread lies

`__tls_setup_self` asks for the size of the template, its alignment and 64 bytes, and
rounds the start of the mapping up to the alignment, but at least to 8. The slack
covers both: where the alignment is below 8, the 64 bytes do.
-/

namespace LibNeoos.Start

open Lib

/-- The number of bytes that are asked for. -/
def Elf64_Phdr.need (ph : Elf64_Phdr) : Nat :=
  roundup ph.p_memsz.toNat (max ph.p_align.toNat 8) + ph.template.tls_align.toNat + 64

/-- The bytes from `a` on lie in the mapping at `raw`. -/
def Inside (ph : Elf64_Phdr) (raw a : Word) (len : Nat) : Prop :=
  raw.toNat ≤ a.toNat ∧ a.toNat + len ≤ raw.toNat + ph.need

/-- Aligned to 8, and to the template's alignment if it has one. -/
def Aligned (ph : Elf64_Phdr) (a : Word) : Prop :=
  8 ∣ a.toNat ∧ (ph.p_align ≠ 0 → ph.p_align.toNat ∣ a.toNat)

variable {ph : Elf64_Phdr} {raw : Word}

theorem eight_dvd_align (ha : ph.p_align = 0 ∨ ∃ k, ph.p_align.toNat = 2 ^ k) : 8 ∣ max ph.p_align.toNat 8 := by
  rcases Nat.le_total ph.p_align.toNat 8 with h8 | h8
  · rw [max_eq_right h8]
  · rw [max_eq_left h8]
    rcases ha with h | ⟨k, hk⟩
    · rw [h] at h8
      exact absurd h8 (by decide)
    · rw [hk] at h8 ⊢
      have hk3 : 3 ≤ k := (Nat.pow_le_pow_iff_right (a := 2) (n := 3) (by decide)).1 h8
      exact Nat.pow_dvd_pow 2 hk3

/-- What is a multiple of the library's alignment is aligned. -/
theorem aligned_of_dvd (ha : ph.p_align = 0 ∨ ∃ k, ph.p_align.toNat = 2 ^ k) {a : Word}
    (h : max ph.p_align.toNat 8 ∣ a.toNat) : Aligned ph a := by
  refine ⟨(eight_dvd_align ha).trans h, fun h0 => ?_⟩
  have hpos : ph.p_align.toNat ≠ 0 := fun hz => h0 (BitVec.toNat_inj.1 hz)
  have hdvd := align_dvd ha
  rw [max_eq_left (Nat.one_le_iff_ne_zero.2 hpos)] at hdvd
  exact hdvd.trans h

/-- The sums of the call, if the mapping ends at 2^64 or below. -/
theorem sums_of_need (hw : raw.toNat + ph.need ≤ 2 ^ 64) :
    ph.p_memsz.toNat + max ph.p_align.toNat 8 ≤ 2 ^ 64 ∧ raw.toNat + max ph.p_align.toNat 8 ≤ 2 ^ 64 := by
  have hle : ph.p_memsz.toNat ≤ roundup ph.p_memsz.toNat (max ph.p_align.toNat 8) := le_roundup (by omega)
  have := tls_align_ge ph
  unfold Elf64_Phdr.need at hw
  omega

/-- The thread pointer. -/
theorem tp_toNat (ha : ph.p_align = 0 ∨ ∃ k, ph.p_align.toNat = 2 ^ k) (hw : raw.toNat + ph.need ≤ 2 ^ 64) :
    (align_up raw ph.template.tls_align + ph.template.tls_size).toNat =
      (align_up raw ph.template.tls_align).toNat + roundup ph.p_memsz.toNat (max ph.p_align.toNat 8) := by
  obtain ⟨hmem, hraw⟩ := sums_of_need hw
  have hsize := template_size ha hmem
  have hbase := (base_toNat ha hraw).2
  have := tls_align_ge ph
  unfold Elf64_Phdr.need at hw
  rw [BitVec.toNat_add_of_lt (by omega), hsize]

/-- The length that the call asks `mmap` for. -/
theorem need_toNat (ha : ph.p_align = 0 ∨ ∃ k, ph.p_align.toNat = 2 ^ k) (hw : raw.toNat + ph.need ≤ 2 ^ 64) :
    (ph.template.tls_size + ph.template.tls_align + 64).toNat = ph.need % 2 ^ 64 := by
  rw [BitVec.toNat_add, BitVec.toNat_add, template_size ha (sums_of_need hw).1, Elf64_Phdr.need]
  simp only [BitVec.reduceToNat]
  have := tls_align_ge ph
  omega

theorem copy_inside (ha : ph.p_align = 0 ∨ ∃ k, ph.p_align.toNat = 2 ^ k) (hfile : ph.p_filesz.toNat ≤ ph.p_memsz.toNat)
    (hw : raw.toNat + ph.need ≤ 2 ^ 64) :
    Inside ph raw (align_up raw ph.template.tls_align) ph.p_filesz.toNat := by
  obtain ⟨hlow, hhigh⟩ := base_toNat ha (sums_of_need hw).2
  have hge := tls_align_ge ph
  have hle : ph.p_memsz.toNat ≤ roundup ph.p_memsz.toNat (max ph.p_align.toNat 8) := le_roundup (by omega)
  refine ⟨hlow, ?_⟩
  unfold Elf64_Phdr.need
  omega

theorem self_inside (ha : ph.p_align = 0 ∨ ∃ k, ph.p_align.toNat = 2 ^ k) (hw : raw.toNat + ph.need ≤ 2 ^ 64) :
    Inside ph raw (align_up raw ph.template.tls_align + ph.template.tls_size) 8 := by
  obtain ⟨hlow, hhigh⟩ := base_toNat ha (sums_of_need hw).2
  have hge := tls_align_ge ph
  rw [Inside, tp_toNat ha hw]
  unfold Elf64_Phdr.need
  omega

/-- Seen from a block in the mapping, a byte outside the mapping is behind the block. -/
theorem Inside.outside {a b : Word} {len : Nat} (h : Inside ph raw a len) (hw : raw.toNat + ph.need ≤ 2 ^ 64)
    (hb : b.toNat < raw.toNat ∨ raw.toNat + ph.need ≤ b.toNat) : len ≤ (b - a).toNat := by
  obtain ⟨hlow, hhigh⟩ := h
  bv_omega

/-- `memcpy` writes only its destination. -/
theorem memcpy_outside {m : Bytes} {dst src b : Word} {n : Nat} (hb : n ≤ (b - dst).toNat) :
    memcpy m dst src n b = m b := by
  induction n with
  | zero => rfl
  | succ n ih =>
    have hne : b ≠ dst + BitVec.ofNat 64 n := by
      rintro rfl
      rw [sub_self_offset, BitVec.toNat_ofNat] at hb
      have := Nat.mod_le n (2 ^ 64)
      omega
    rw [memcpy, Function.update_of_ne hne, ih (by omega)]

/-- The mapping is the only memory the call changes. -/
theorem setup_outside (ha : ph.p_align = 0 ∨ ∃ k, ph.p_align.toNat = 2 ^ k)
    (hfile : ph.p_filesz.toNat ≤ ph.p_memsz.toNat) (hw : raw.toNat + ph.need ≤ 2 ^ 64) (m : Bytes) {b : Word}
    (hb : b.toNat < raw.toNat ∨ raw.toNat + ph.need ≤ b.toNat) :
    let base := align_up raw ph.template.tls_align
    let tp := base + ph.template.tls_size
    store64 (memcpy (mmapped m raw (ph.template.tls_size + ph.template.tls_align + 64)) base ph.p_vaddr
      ph.p_filesz.toNat)
      tp tp b = m b := by
  intro base tp
  have hout : 8 ≤ (b - tp).toNat := (self_inside ha hw).outside hw hb
  have hzero : ¬ inMapping raw (ph.template.tls_size + ph.template.tls_align + 64) b := by
    have hmap : Inside ph raw raw ph.need := ⟨Nat.le_refl _, Nat.le_refl _⟩
    have := hmap.outside hw hb
    have := Nat.mod_le ph.need (2 ^ 64)
    rw [inMapping, need_toNat ha hw]
    omega
  rw [store64, if_neg (by omega), memcpy_outside ((copy_inside ha hfile hw).outside hw hb), mmapped, if_neg hzero]

/-- For every `PT_TLS` header whose alignment is 0 or a power of two and whose image is
not larger than the template, and every mapping that ends at 2^64 or below: the bytes
that `__tls_setup_self` copies and the self-pointer lie in the mapping, the
self-pointer above the copy, and both are aligned. What the call does is the copy and
the store; it changes no byte outside the mapping. -/
theorem tls_block_inside (ph : Elf64_Phdr) (raw : Word) (ha : ph.p_align = 0 ∨ ∃ k, ph.p_align.toNat = 2 ^ k)
    (hfile : ph.p_filesz.toNat ≤ ph.p_memsz.toNat) (hraw : 0 ≤ raw.toInt) (hw : raw.toNat + ph.need ≤ 2 ^ 64) :
    let base := align_up raw ph.template.tls_align
    let tp := base + ph.template.tls_size
    Inside ph raw base ph.p_filesz.toNat ∧ Inside ph raw tp 8 ∧ base.toNat + ph.p_filesz.toNat ≤ tp.toNat ∧
    Aligned ph base ∧ Aligned ph tp ∧
    (ph.need < 2 ^ 64 → (ph.template.tls_size + ph.template.tls_align + 64).toNat = ph.need) ∧
    ∀ (m : Bytes) (fs : Word) (prctl : Int), ph.template.tls_size ≠ 0 →
      tls_setup_self ph.template m fs raw prctl =
        ⟨prctl, store64 (memcpy (mmapped m raw (ph.template.tls_size + ph.template.tls_align + 64)) base ph.p_vaddr
          ph.p_filesz.toNat) tp tp, if prctl = 0 then tp else fs⟩ ∧
      ∀ b : Word, b.toNat < raw.toNat ∨ raw.toNat + ph.need ≤ b.toNat →
        (tls_setup_self ph.template m fs raw prctl).mem b = m b := by
  intro base tp
  have hbase : base.toNat = roundup raw.toNat (max ph.p_align.toNat 8) := base_eq ha (sums_of_need hw).2
  have htp : tp.toNat = base.toNat + roundup ph.p_memsz.toNat (max ph.p_align.toNat 8) := tp_toNat ha hw
  have hdvd : max ph.p_align.toNat 8 ∣ base.toNat := hbase ▸ dvd_roundup
  refine ⟨copy_inside ha hfile hw, self_inside ha hw, ?_, aligned_of_dvd ha hdvd, ?_,
    fun h => ?_, fun m fs prctl h0 => ?_⟩
  · have hle : ph.p_memsz.toNat ≤ roundup ph.p_memsz.toNat (max ph.p_align.toNat 8) := le_roundup (by omega)
    omega
  · exact aligned_of_dvd ha (htp ▸ Nat.dvd_add hdvd dvd_roundup)
  · rw [need_toNat ha hw, Nat.mod_eq_of_lt h]
  · have heq := @setup_mapped ph raw m fs prctl h0 hraw
    refine ⟨heq, fun b hb => ?_⟩
    rw [heq]
    exact setup_outside ha hfile hw m hb

/-- Three bytes of data with alignment 16, and a mapping that is not aligned. -/
theorem tls_block_inside_aligned :
    let base := align_up 0x10008 16
    Inside ⟨7, 0x200, 3, 24, 16⟩ 0x10008 base 3 ∧ base = 0x10010 :=
  ⟨(tls_block_inside ⟨7, 0x200, 3, 24, 16⟩ 0x10008 (.inr ⟨4, rfl⟩) (by decide) (by decide) (by decide +kernel)).1,
    by decide⟩

end LibNeoos.Start
