import LibNeoos.Start.Tls
/-!
# `memmove` and `memcpy`

The regions may overlap, so a loop can overwrite bytes that it has still to read.
`memmove` goes up when the destination is below the source and down otherwise, and
then every byte is read before it is written.
-/

namespace LibNeoos.Cstring

open Start

/-- The second loop of `memmove`, with `i` rounds to go. -/
def move_down (m : Bytes) (dst src : Word) : Nat → Bytes
  | 0 => m
  | i + 1 => move_down (Function.update m (dst + BitVec.ofNat 64 i) (m (src + BitVec.ofNat 64 i))) dst src i

/-- The first loop is the one of `memcpy`. -/
def memmove (m : Bytes) (dst src : Word) (n : Nat) : Bytes :=
  if dst < src then memcpy m dst src n else move_down m dst src n

/-- The region of `n` bytes does not wrap around the address space. -/
def Fits (a : Word) (n : Nat) : Prop := a.toNat + n ≤ 2 ^ 64

instance (a : Word) (n : Nat) : Decidable (Fits a n) := inferInstanceAs (Decidable (_ ≤ _))

/-- No byte of the source is written before the upward loop reads it. -/
theorem unread_up {dst src : Word} {n i : Nat} (hsrc : Fits src n) (hi : i < n)
    (h : dst ≤ src ∨ src.toNat + n ≤ dst.toNat) : i ≤ (src + BitVec.ofNat 64 i - dst).toNat := by
  unfold Fits at hsrc
  rw [BitVec.le_def] at h
  bv_omega

/-- What is written before the downward loop reads byte `i` is above it. -/
theorem unread_down {dst src : Word} {n i : Nat} (hsrc : Fits src n) (hdst : Fits dst n) (hi : i < n) (h : src ≤ dst) :
    (src + BitVec.ofNat 64 i - dst).toNat ≤ i ∨ n ≤ (src + BitVec.ofNat 64 i - dst).toNat := by
  unfold Fits at hsrc hdst
  rw [BitVec.le_def] at h
  bv_omega

theorem move_down_apply {m : Bytes} {dst src : Word} (n : Nat) (hn : n ≤ 2 ^ 64)
    (hsep : ∀ i < n, (src + BitVec.ofNat 64 i - dst).toNat ≤ i ∨ n ≤ (src + BitVec.ofNat 64 i - dst).toNat) (b : Word) :
    move_down m dst src n b = if (b - dst).toNat < n then m (src + (b - dst)) else m b := by
  induction n generalizing m b with
  | zero => simp [move_down]
  | succ n ih =>
    rw [move_down, ih (by omega) fun i hi => (hsep i (by omega)).imp_right (by omega)]
    have hself : (dst + BitVec.ofNat 64 n - dst).toNat = n := by
      rw [sub_self_offset, BitVec.toNat_ofNat]
      omega
    by_cases hlt : (b - dst).toNat < n
    · -- the byte that the first round writes is not the one that is read for `b`
      have hne : src + (b - dst) ≠ dst + BitVec.ofNat 64 n := by
        intro heq
        have hoff : BitVec.ofNat 64 (b - dst).toNat = b - dst := by
          rw [BitVec.ofNat_toNat, BitVec.setWidth_eq]
        have := hsep (b - dst).toNat (by omega)
        rw [hoff, heq, hself] at this
        omega
      rw [if_pos hlt, if_pos (by omega), Function.update_of_ne hne]
    · rw [if_neg hlt]
      by_cases hb : b = dst + BitVec.ofNat 64 n
      · subst hb
        rw [Function.update_self, if_pos (by omega)]
        congr 1
        bv_omega
      · have hne : (b - dst).toNat ≠ n := by
          intro h
          apply hb
          bv_omega
        rw [Function.update_of_ne hb, if_neg (by omega)]

theorem memmove_apply {m : Bytes} {dst src : Word} {n : Nat} (hdst : Fits dst n) (hsrc : Fits src n) (b : Word) :
    memmove m dst src n b = if (b - dst).toNat < n then m (src + (b - dst)) else m b := by
  have hn : n ≤ 2 ^ 64 := by
    unfold Fits at hdst
    omega
  unfold memmove
  by_cases h : dst < src
  · rw [if_pos h]
    exact memcpy_apply n hn (fun i hi => unread_up hsrc hi (.inl (BitVec.le_of_lt h))) b
  · rw [if_neg h]
    exact move_down_apply n hn (fun i hi => unread_down hsrc hdst hi (BitVec.not_lt.1 h)) b

/-- For every memory, all regions that do not wrap and every length: after `memmove`
the destination has the bytes that were in the source, every other byte is as before,
and `memcpy` leaves the same memory if the regions do not overlap or the destination
is not above the source. -/
theorem memmove_correct (m : Bytes) (dst src : Word) (n : Nat) (hdst : Fits dst n) (hsrc : Fits src n) :
    (∀ i < n, memmove m dst src n (dst + BitVec.ofNat 64 i) = m (src + BitVec.ofNat 64 i)) ∧
    (∀ b : Word, b.toNat < dst.toNat ∨ dst.toNat + n ≤ b.toNat → memmove m dst src n b = m b) ∧
    (dst.toNat + n ≤ src.toNat ∨ src.toNat + n ≤ dst.toNat ∨ dst ≤ src → memcpy m dst src n = memmove m dst src n) := by
  have hn : n ≤ 2 ^ 64 := by
    unfold Fits at hdst
    omega
  refine ⟨fun i hi => ?_, fun b hb => ?_, fun h => ?_⟩
  · have hoff : (BitVec.ofNat 64 i).toNat = i := by
      rw [BitVec.toNat_ofNat]
      omega
    rw [memmove_apply hdst hsrc, sub_self_offset, hoff, if_pos hi]
  · rw [memmove_apply hdst hsrc, if_neg]
    unfold Fits at hdst
    bv_omega
  · have hup : dst ≤ src ∨ src.toNat + n ≤ dst.toNat := by
      rw [BitVec.le_def] at h ⊢
      omega
    funext b
    rw [memmove_apply hdst hsrc, memcpy_apply n hn fun i hi => unread_up hsrc hi hup]

/-- Four bytes moved up by one over themselves. -/
theorem memmove_correct_overlap :
    Fits 0x101 4 ∧ Fits 0x100 4 ∧
      ∀ i < 4, memmove (fun b => b.setWidth 8) 0x101 0x100 4 (0x101 + BitVec.ofNat 64 i) =
        (0x100 + BitVec.ofNat 64 i : Word).setWidth 8 :=
  ⟨by decide, by decide, (memmove_correct _ 0x101 0x100 4 (by decide) (by decide)).1⟩

end LibNeoos.Cstring
