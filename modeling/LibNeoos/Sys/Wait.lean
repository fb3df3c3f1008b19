import LibNeoos.Lib.Bytes
/-!
# Wait statuses

The macros of `sys/wait.h` test overlapping bit fields of the status word. On the
encodings each outcome is decoded to itself, but the word for a continued child is
also taken for one that a signal ended.
-/

namespace LibNeoos.Sys

open Lib

/-- An `int` that `wait4` stores. -/
abbrev Status := BitVec 32

def WIFEXITED (s : Status) : Bool := (s &&& 0x7f) == 0
def WEXITSTATUS (s : Status) : Status := s.sshiftRight 8 &&& 0xff
def WIFSIGNALED (s : Status) : Bool := (s &&& 0x7f) != 0 && (s &&& 0xff) != 0x7f
def WTERMSIG (s : Status) : Status := s &&& 0x7f
def WCOREDUMP (s : Status) : Status := s &&& 0x80
def WIFSTOPPED (s : Status) : Bool := (s &&& 0xff) == 0x7f
def WSTOPSIG (s : Status) : Status := s.sshiftRight 8 &&& 0xff
def WIFCONTINUED (s : Status) : Bool := s == 0xffff

/-! ## What a status stands for -/

/-- What has become of a child. A signal that ends it is one of 1 to 126. -/
inductive Outcome where
  | exited (code : BitVec 8)
  | signaled (sig : BitVec 7) (core : Bool) (valid : sig ≠ 0 ∧ sig ≠ 0x7f)
  | stopped (sig : BitVec 8)
  | continued

/-- Linux's encoding. -/
def Outcome.encode : Outcome → Status
  | .exited code => code.setWidth 32 <<< 8
  | .signaled sig core _ => sig.setWidth 32 ||| if core then 0x80 else 0
  | .stopped sig => sig.setWidth 32 <<< 8 ||| 0x7f
  | .continued => 0xffff

/-- The predicate for the outcome holds, and its decoders give what the outcome has. -/
def Outcome.decoded (s : Status) : Outcome → Prop
  | .exited code => WIFEXITED s = true ∧ WEXITSTATUS s = code.setWidth 32
  | .signaled sig core _ => WIFSIGNALED s = true ∧ WTERMSIG s = sig.setWidth 32 ∧ (WCOREDUMP s ≠ 0 ↔ core = true)
  | .stopped sig => WIFSTOPPED s = true ∧ WSTOPSIG s = sig.setWidth 32
  | .continued => WIFCONTINUED s = true

/-- At most one of the four predicates holds. -/
def Exclusive (s : Status) : Prop := [WIFEXITED s, WIFSIGNALED s, WIFSTOPPED s, WIFCONTINUED s].count true ≤ 1

/-! ## The predicates on numbers -/

theorem toNat_and_7f (s : Status) : (s &&& 0x7f).toNat = s.toNat % 128 := toNat_and_mask s (k := 7) (by decide)

theorem toNat_and_ff (s : Status) : (s &&& 0xff).toNat = s.toNat % 256 := toNat_and_mask s (k := 8) (by decide)

theorem WIFEXITED_iff (s : Status) : WIFEXITED s = true ↔ s.toNat % 128 = 0 := by
  rw [WIFEXITED, beq_iff_eq, ← BitVec.toNat_inj, toNat_and_7f]
  rfl

theorem WIFSTOPPED_iff (s : Status) : WIFSTOPPED s = true ↔ s.toNat % 256 = 127 := by
  rw [WIFSTOPPED, beq_iff_eq, ← BitVec.toNat_inj, toNat_and_ff]
  rfl

theorem WIFSIGNALED_iff (s : Status) : WIFSIGNALED s = true ↔ s.toNat % 128 ≠ 0 ∧ s.toNat % 256 ≠ 127 := by
  rw [WIFSIGNALED, Bool.and_eq_true, bne_iff_ne, bne_iff_ne, Ne, Ne, ← BitVec.toNat_inj, ← BitVec.toNat_inj,
    toNat_and_7f, toNat_and_ff]
  rfl

theorem WIFCONTINUED_iff (s : Status) : WIFCONTINUED s = true ↔ s.toNat = 65535 := by
  rw [WIFCONTINUED, beq_iff_eq, ← BitVec.toNat_inj]
  rfl

/-- The first three predicates exclude each other; a continued status is one of the
second. -/
theorem exclusive_iff (s : Status) : Exclusive s ↔ s ≠ 0xffff := by
  have he := WIFEXITED_iff s
  have hs := WIFSIGNALED_iff s
  have ht := WIFSTOPPED_iff s
  have hc := WIFCONTINUED_iff s
  have hne : s ≠ 0xffff ↔ s.toNat ≠ 65535 := by
    rw [Ne, ← BitVec.toNat_inj]
    rfl
  rw [hne, Exclusive]
  cases h1 : WIFEXITED s <;> cases h2 : WIFSIGNALED s <;> cases h3 : WIFSTOPPED s <;> cases h4 : WIFCONTINUED s <;>
    simp only [h1, h2, h3, h4, true_iff, false_iff, Bool.false_eq_true] at he hs ht hc <;>
    simp <;> omega

/-! ## The encodings -/

theorem encode_decoded (o : Outcome) : o.decoded o.encode := by
  cases o with
  | exited code =>
    revert code
    simp only [Outcome.decoded, Outcome.encode]
    decide +kernel
  | signaled sig core valid =>
    revert sig core
    simp only [Outcome.decoded, Outcome.encode]
    decide +kernel
  | stopped sig =>
    revert sig
    simp only [Outcome.decoded, Outcome.encode]
    decide +kernel
  | continued => exact rfl

/-- For every status at most one predicate holds exactly if it is not the one of a
continued child, and every outcome is decoded from its encoding. -/
theorem wait_status_partition (s : Status) (o : Outcome) : (Exclusive s ↔ s ≠ 0xffff) ∧ o.decoded o.encode :=
  ⟨exclusive_iff s, encode_decoded o⟩

/-- A continued child is also taken for one that signal 127 has ended. -/
theorem continued_is_signaled :
    ¬ Exclusive Outcome.continued.encode ∧ WIFCONTINUED Outcome.continued.encode = true ∧
      WIFSIGNALED Outcome.continued.encode = true ∧ WTERMSIG Outcome.continued.encode = 127 := by
  unfold Exclusive
  decide

end LibNeoos.Sys
