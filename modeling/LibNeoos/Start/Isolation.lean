import LibNeoos.Lib.Threads
import LibNeoos.Start.Block
/-!
# Thread-local storage of many threads

Every thread runs `__tls_setup_self` before its function, beside the other threads and in
one memory with them: `thread_trampoline` calls it, and the copy of the image is a loop
that other threads' steps come between. Here a step is one round of that loop, one store or
one system call, or a write of a running program, and all interleavings are considered.

The kernel gives mappings that end below 2^64 and overlap neither the image nor those in
use, and a program writes neither into the mapping of another thread nor into the image. If
the header is regular, each thread then has in its mapping what a call of `__tls_setup_self`
alone would leave there, changed by its own writes and nothing else (`tls_isolated`).
-/

namespace LibNeoos.Start

open Lib

/-! ## The code -/

/-- Where a thread is: before `__tls_setup_self`, after `i` rounds of its `memcpy`, before
`arch_prctl`, in its function, or gone. In its function it has written the bytes `wrote`, the
last one last. An image without thread-local storage has no mapping. -/
inductive Point where
  | fresh
  | copy (raw : Word) (i : Nat)
  | install (raw : Word)
  | runs (raw : Word) (wrote : List (Word × BitVec 8))
  | bare
  | exited
  deriving DecidableEq

structure Thread where
  point : Point := .fresh
  fs : Word := 0

/-- What a thread does next; `mmap_raw` returns `raw` and `arch_prctl` returns `rc`. -/
inductive Act where
  | mmap (raw : Word)
  | copy
  | self
  | prctl (rc : Int)
  | write (a : Word) (v : BitVec 8)

/-- The length of a mapping, the start of the block in it, and the thread pointer. -/
def Tls.len (g : Tls) : Word := g.tls_size + g.tls_align + 64
def Tls.base (g : Tls) (raw : Word) : Word := align_up raw g.tls_align
def Tls.tp (g : Tls) (raw : Word) : Word := g.base raw + g.tls_size

/-- A step of a thread. It exits when `__tls_setup_self` does not return 0. -/
def Thread.move (g : Tls) (m : Bytes) (p : Thread) : Act → Option (Bytes × Thread)
  | .mmap raw =>
    match p.point with
    | .fresh =>
      if g.tls_size = 0 then some (m, { p with point := .bare })
      else if raw.toInt < 0 then some (m, { p with point := .exited })
      else some (mmapped m raw g.len, { p with point := .copy raw 0 })
    | _ => none
  | .copy =>
    match p.point with
    | .copy raw i =>
      if i < g.tls_filesz.toNat then
        some (Function.update m (g.base raw + BitVec.ofNat 64 i) (m (g.tls_image + BitVec.ofNat 64 i)),
          { p with point := .copy raw (i + 1) })
      else none
    | _ => none
  | .self =>
    match p.point with
    | .copy raw i =>
      if i < g.tls_filesz.toNat then none else some (store64 m (g.tp raw) (g.tp raw), { p with point := .install raw })
    | _ => none
  | .prctl rc =>
    match p.point with
    | .install raw => some (m, if rc = 0 then ⟨.runs raw [], g.tp raw⟩ else { p with point := .exited })
    | _ => none
  | .write a v =>
    match p.point with
    | .runs raw wrote => some (Function.update m a v, { p with point := .runs raw (wrote ++ [(a, v)]) })
    | .bare => some (Function.update m a v, p)
    | _ => none

/-! ## The system -/

variable {T : Type} [DecidableEq T]

/-- The memory of the process and its threads. -/
abbrev Proc (T : Type) := Conf T Bytes Thread

abbrev step (ph : Elf64_Phdr) : Proc T → T × Act → Option (Proc T) := Conf.step fun _ => Thread.move ph.template

def start (m : Bytes) : Proc T := ⟨m, fun _ => {}⟩

/-- The mapping a thread uses. -/
def Point.mapping : Point → Option Word
  | .copy raw _ => some raw
  | .install raw => some raw
  | .runs raw _ => some raw
  | _ => none

/-- Two mappings do not overlap. -/
def Clear (ph : Elf64_Phdr) (raw raw' : Word) : Prop :=
  raw.toNat + ph.need ≤ raw'.toNat ∨ raw'.toNat + ph.need ≤ raw.toNat

/-- What the kernel and the programs do: a new mapping ends below 2^64 and overlaps neither
the image nor a mapping in use, and a program writes neither to the image nor into the
mapping of another thread. -/
def Allowed (ph : Elf64_Phdr) (s : Proc T) : T × Act → Prop
  | (t, .mmap raw) => 0 ≤ raw.toInt →
    noWrap ph raw ∧ apart ph raw ∧ ∀ u, u ≠ t → ∀ raw' ∈ (s.thr u).point.mapping, Clear ph raw raw'
  | (t, .write a _) =>
    (∀ o < ph.p_filesz.toNat, a ≠ ph.p_vaddr + BitVec.ofNat 64 o) ∧
      ∀ u, u ≠ t → ∀ raw' ∈ (s.thr u).point.mapping, ¬ inMapping raw' ph.template.len a
  | _ => True

instance (ph : Elf64_Phdr) (raw : Word) : Decidable (noWrap ph raw) := inferInstanceAs (Decidable (_ < _))

instance (ph : Elf64_Phdr) (raw : Word) : Decidable (apart ph raw) := inferInstanceAs (Decidable (∀ o < _, _))

instance (ph : Elf64_Phdr) (raw raw' : Word) : Decidable (Clear ph raw raw') := inferInstanceAs (Decidable (_ ∨ _))

/-- A condition on the mapping of a thread is decided there, not by trying every word. -/
instance (priority := 2000) (o : Option Word) (p : Word → Prop) [DecidablePred p] : Decidable (∀ raw ∈ o, p raw) :=
  Option.decidableForallMem o

instance [Fintype T] (ph : Elf64_Phdr) (s : Proc T) : (l : T × Act) → Decidable (Allowed ph s l)
  | (_, .mmap _) => inferInstanceAs (Decidable (_ → _ ∧ _ ∧ _))
  | (_, .write ..) => inferInstanceAs (Decidable (_ ∧ _))
  | (_, .copy) => inferInstanceAs (Decidable True)
  | (_, .self) => inferInstanceAs (Decidable True)
  | (_, .prctl _) => inferInstanceAs (Decidable True)

/-- The memory after some writes. -/
def replay (m : Bytes) (wrote : List (Word × BitVec 8)) : Bytes :=
  wrote.foldl (fun m w => Function.update m w.1 w.2) m

/-- The memory a thread would have if it were alone, from the memory `m` of the start on. -/
def Point.solo (g : Tls) (m : Bytes) : Point → Bytes
  | .copy raw i => memcpy (mmapped m raw g.len) (g.base raw) g.tls_image i
  | .install raw =>
    store64 (memcpy (mmapped m raw g.len) (g.base raw) g.tls_image g.tls_filesz.toNat) (g.tp raw) (g.tp raw)
  | .runs raw wrote =>
    replay (store64 (memcpy (mmapped m raw g.len) (g.base raw) g.tls_image g.tls_filesz.toNat) (g.tp raw)
      (g.tp raw)) wrote
  | _ => m

/-! ## Mappings -/

section
variable {ph : Elf64_Phdr} {raw raw' a : Word}

theorem noWrap.need (hw : noWrap ph raw) : raw.toNat + ph.need < 2 ^ 64 := by
  unfold noWrap at hw
  unfold Elf64_Phdr.need
  omega

theorem len_toNat (hr : ph.regular) (hw : noWrap ph raw) : ph.template.len.toNat = ph.need := by
  have hlt := hw.need
  rw [Tls.len, need_toNat hr.align hlt.le, Nat.mod_eq_of_lt (by omega)]

theorem inMapping_iff (hr : ph.regular) (hw : noWrap ph raw) :
    inMapping raw ph.template.len a ↔ raw.toNat ≤ a.toNat ∧ a.toNat < raw.toNat + ph.need := by
  have hlt := hw.need
  rw [inMapping, len_toNat hr hw]
  generalize ph.need = need at hlt ⊢
  have ha := a.isLt
  rw [BitVec.toNat_sub]
  omega

theorem size_ne_zero (hr : ph.regular) (hw : noWrap ph raw) : ph.template.tls_size ≠ 0 := by
  intro h0
  have hsize := template_size hr.align hw.sums.1
  have hle : ph.p_memsz.toNat ≤ roundup ph.p_memsz.toNat (max ph.p_align.toNat 8) := le_roundup (by omega)
  have hpos := hr.memsz
  have hzero : (0 : Word).toNat = 0 := rfl
  rw [h0, hzero] at hsize
  omega

theorem Clear.apart (hr : ph.regular) (hw : noWrap ph raw) (hw' : noWrap ph raw') (h : Clear ph raw raw') :
    inMapping raw ph.template.len a → ¬ inMapping raw' ph.template.len a := by
  rw [inMapping_iff hr hw, inMapping_iff hr hw']
  unfold Clear at h
  omega

/-- The block lies in the mapping. -/
theorem block_inMapping (hr : ph.regular) (hw : noWrap ph raw) {j : Nat} (hj : j < ph.template.tls_size.toNat) :
    inMapping raw ph.template.len (ph.template.base raw + BitVec.ofNat 64 j) := by
  obtain ⟨hlow, hhigh⟩ := self_inside hr.align hw.need.le
  have hbase := (base_toNat hr.align hw.sums.2).1
  have htp := tp_toNat hr.align hw.need.le
  rw [← template_size hr.align hw.sums.1] at htp
  rw [htp] at hhigh
  rw [inMapping_iff hr hw]
  have hlt := hw.need
  change raw.toNat ≤ (ph.template.base raw).toNat at hbase
  change (ph.template.base raw).toNat + ph.template.tls_size.toNat + 8 ≤ raw.toNat + ph.need at hhigh
  generalize ph.need = need at *
  generalize ph.template.base raw = base at *
  generalize ph.template.tls_size = size at *
  bv_omega

theorem copy_inMapping (hr : ph.regular) (hw : noWrap ph raw) {i : Nat} (hi : i < ph.p_filesz.toNat) :
    inMapping raw ph.template.len (ph.template.base raw + BitVec.ofNat 64 i) := by
  have hle : ph.p_memsz.toNat ≤ roundup ph.p_memsz.toNat (max ph.p_align.toNat 8) := le_roundup (by omega)
  have hfile := hr.filesz
  apply block_inMapping hr hw
  rw [template_size hr.align hw.sums.1]
  omega

theorem self_inMapping (hr : ph.regular) (hw : noWrap ph raw) (h : (a - ph.template.tp raw).toNat < 8) :
    inMapping raw ph.template.len a := by
  obtain ⟨hlow, hhigh⟩ := self_inside hr.align hw.need.le
  rw [inMapping_iff hr hw]
  have hlt := hw.need
  change raw.toNat ≤ (ph.template.tp raw).toNat at hlow
  change (ph.template.tp raw).toNat + 8 ≤ raw.toNat + ph.need at hhigh
  generalize ph.need = need at *
  generalize ph.template.tp raw = tp at *
  bv_omega

/-! ## What a step does -/

/-- The steps of a thread. -/
inductive Moves (g : Tls) (m : Bytes) : Thread → Act → Bytes → Thread → Prop
  | none {fs raw : Word} : Moves g m ⟨.fresh, fs⟩ (.mmap raw) m ⟨.bare, fs⟩
  | refused {fs raw : Word} : Moves g m ⟨.fresh, fs⟩ (.mmap raw) m ⟨.exited, fs⟩
  | mapped {fs raw : Word} (hraw : 0 ≤ raw.toInt) :
      Moves g m ⟨.fresh, fs⟩ (.mmap raw) (mmapped m raw g.len) ⟨.copy raw 0, fs⟩
  | copied {fs raw : Word} {i : Nat} (hi : i < g.tls_filesz.toNat) :
      Moves g m ⟨.copy raw i, fs⟩ .copy
        (Function.update m (g.base raw + BitVec.ofNat 64 i) (m (g.tls_image + BitVec.ofNat 64 i)))
        ⟨.copy raw (i + 1), fs⟩
  | stored {fs raw : Word} {i : Nat} (hi : g.tls_filesz.toNat ≤ i) :
      Moves g m ⟨.copy raw i, fs⟩ .self (store64 m (g.tp raw) (g.tp raw)) ⟨.install raw, fs⟩
  | installed {fs raw : Word} {rc : Int} : Moves g m ⟨.install raw, fs⟩ (.prctl rc) m ⟨.runs raw [], g.tp raw⟩
  | failed {fs raw : Word} {rc : Int} : Moves g m ⟨.install raw, fs⟩ (.prctl rc) m ⟨.exited, fs⟩
  | wrote {fs raw a : Word} {wrote : List (Word × BitVec 8)} {v : BitVec 8} :
      Moves g m ⟨.runs raw wrote, fs⟩ (.write a v) (Function.update m a v) ⟨.runs raw (wrote ++ [(a, v)]), fs⟩
  | wroteBare {fs a : Word} {v : BitVec 8} : Moves g m ⟨.bare, fs⟩ (.write a v) (Function.update m a v) ⟨.bare, fs⟩

theorem move_moves {g : Tls} {m m' : Bytes} {p p' : Thread} {act : Act} (h : p.move g m act = some (m', p')) :
    Moves g m p act m' p' := by
  obtain ⟨point, fs⟩ := p
  cases act with
  | mmap raw =>
    simp only [Thread.move] at h
    split at h
    · split_ifs at h with h0 hneg
      · cases h
        exact .none
      · cases h
        exact .refused
      · cases h
        exact .mapped (not_lt.1 hneg)
    · cases h
  | copy =>
    simp only [Thread.move] at h
    split at h
    · split_ifs at h with hi
      cases h
      exact .copied hi
    · cases h
  | self =>
    simp only [Thread.move] at h
    split at h
    · split_ifs at h with hi
      cases h
      exact .stored (not_lt.1 hi)
    · cases h
  | prctl rc =>
    simp only [Thread.move] at h
    split at h
    · cases h
      split_ifs
      · exact .installed
      · exact .failed
    · cases h
  | write b v =>
    simp only [Thread.move] at h
    split at h
    · cases h
      exact .wrote
    · cases h
      exact .wroteBare
    · cases h

variable {m₀ m m' : Bytes} {p p' : Thread} {act : Act}

/-- A step writes into the mapping the thread then has, or where the program says. -/
theorem Moves.outside (h : Moves ph.template m p act m' p') (hr : ph.regular)
    (hw : ∀ raw ∈ p'.point.mapping, noWrap ph raw)
    (ha : ∀ raw ∈ p'.point.mapping, ¬ inMapping raw ph.template.len a) (hact : ∀ v, act ≠ .write a v) : m' a = m a := by
  have hwrite : ∀ b v, act = .write b v → Function.update m b v a = m a := by
    rintro b v rfl
    refine Function.update_of_ne ?_ _ _
    rintro rfl
    exact hact v rfl
  cases h with
  | mapped => exact if_neg (ha _ rfl)
  | copied hi =>
    refine Function.update_of_ne ?_ _ _
    rintro rfl
    exact ha _ rfl (copy_inMapping hr (hw _ rfl) hi)
  | stored => exact if_neg fun h8 => ha _ rfl (self_inMapping hr (hw _ rfl) h8)
  | wrote => exact hwrite _ _ rfl
  | wroteBare => exact hwrite _ _ rfl
  | _ => rfl

/-- A step gives a thread the mapping it asked for, or leaves it the one it has. -/
theorem Moves.mapping (h : Moves ph.template m p act m' p') :
    ∀ raw ∈ p'.point.mapping, raw ∈ p.point.mapping ∨ (act = .mmap raw ∧ 0 ≤ raw.toInt) := by
  cases h with
  | mapped hraw =>
    rintro raw ⟨⟩
    exact .inr ⟨rfl, hraw⟩
  | copied => exact fun raw hraw => .inl hraw
  | stored => exact fun raw hraw => .inl hraw
  | installed => exact fun raw hraw => .inl hraw
  | wrote => exact fun raw hraw => .inl hraw
  | _ =>
    rintro raw ⟨⟩

/-- The image is as it was for a thread that is alone, while it copies. -/
theorem memcpy_image (hr : ph.regular) (hw : noWrap ph raw) (hsep : apart ph raw) {i o : Nat}
    (hi : i ≤ ph.p_filesz.toNat) (ho : o < ph.p_filesz.toNat) :
    memcpy (mmapped m raw ph.template.len) (ph.template.base raw) ph.p_vaddr i (ph.p_vaddr + BitVec.ofNat 64 o) =
      m (ph.p_vaddr + BitVec.ofNat 64 o) := by
  have hout : ¬ inMapping raw ph.template.len (ph.p_vaddr + BitVec.ofNat 64 o) := hsep o ho
  have hfar : ph.p_filesz.toNat ≤ (ph.p_vaddr + BitVec.ofNat 64 o - ph.template.base raw).toNat := by
    refine (copy_inside hr.align hr.filesz hw.need.le).outside hw.need.le ?_
    rw [inMapping_iff hr hw] at hout
    omega
  rw [memcpy_outside (by omega)]
  exact if_neg hout

/-- What is known of a thread: where its mapping lies, how far it has copied, its thread
pointer, and that its mapping is as if it were alone. -/
structure Private (ph : Elf64_Phdr) (m₀ m : Bytes) (p : Thread) : Prop where
  mapped : ∀ raw ∈ p.point.mapping, noWrap ph raw ∧ apart ph raw ∧ 0 ≤ raw.toInt
  copied : ∀ raw i, p.point = .copy raw i → i ≤ ph.p_filesz.toNat
  fs : ∀ raw wrote, p.point = .runs raw wrote → p.fs = ph.template.tp raw
  solo : ∀ raw ∈ p.point.mapping, ∀ a, inMapping raw ph.template.len a → m a = p.point.solo ph.template m₀ a

/-- The image is as it was at the start. -/
def Untouched (ph : Elf64_Phdr) (m₀ m : Bytes) : Prop :=
  ∀ o < ph.p_filesz.toNat, m (ph.p_vaddr + BitVec.ofNat 64 o) = m₀ (ph.p_vaddr + BitVec.ofNat 64 o)

/-- A thread's own step does in its mapping what it would do there alone. -/
theorem Private.own (h : Moves ph.template m p act m' p') (hr : ph.regular) (hm : Untouched ph m₀ m)
    (hnew : ∀ raw, act = .mmap raw → 0 ≤ raw.toInt → noWrap ph raw ∧ apart ph raw) (hp : Private ph m₀ m p) :
    Private ph m₀ m' p' := by
  have hmapped : ∀ raw ∈ p'.point.mapping, noWrap ph raw ∧ apart ph raw ∧ 0 ≤ raw.toInt := by
    intro raw hraw
    rcases h.mapping raw hraw with hold | ⟨hact, hpos⟩
    · exact hp.mapped raw hold
    · obtain ⟨hw, hsep⟩ := hnew raw hact hpos
      exact ⟨hw, hsep, hpos⟩
  refine ⟨hmapped, ?_, ?_, ?_⟩
  · intro raw i hpoint
    cases h with
    | mapped =>
      cases hpoint
      exact Nat.zero_le _
    | copied hi =>
      cases hpoint
      exact hi
    | _ => cases hpoint
  · intro raw w hpoint
    cases h with
    | installed =>
      cases hpoint
      rfl
    | wrote =>
      cases hpoint
      exact hp.fs _ _ rfl
    | _ => cases hpoint
  · cases h with
    | mapped =>
      rintro raw ⟨⟩ a ha
      show mmapped m _ _ a = mmapped m₀ _ _ a
      rw [mmapped, mmapped, if_pos ha, if_pos ha]
    | @copied fs raw i hi =>
      rintro raw ⟨⟩ a ha
      obtain ⟨hw, hsep, -⟩ := hp.mapped raw rfl
      rw [Point.solo, memcpy]
      by_cases heq : a = ph.template.base raw + BitVec.ofNat 64 i
      · -- the byte that is copied is one of the image
        subst heq
        rw [Function.update_self, Function.update_self]
        exact (hm i hi).trans (memcpy_image hr hw hsep (hp.copied raw i rfl) hi).symm
      · rw [Function.update_of_ne heq, Function.update_of_ne heq]
        exact hp.solo raw rfl a ha
    | @stored fs raw i hi =>
      rintro raw ⟨⟩ a ha
      obtain rfl : i = ph.template.tls_filesz.toNat := le_antisymm (hp.copied raw i rfl) hi
      rw [Point.solo, store64, store64]
      split_ifs
      · rfl
      · exact hp.solo raw rfl a ha
    | installed => exact hp.solo
    | @wrote fs raw b w v =>
      rintro raw ⟨⟩ a ha
      have happ : Point.solo ph.template m₀ (.runs raw (w ++ [(b, v)])) =
          Function.update (Point.solo ph.template m₀ (.runs raw w)) b v := by
        rw [Point.solo, replay, List.foldl_append]
        rfl
      rw [happ]
      by_cases heq : a = b
      · rw [heq, Function.update_self, Function.update_self]
      · rw [Function.update_of_ne heq, Function.update_of_ne heq]
        exact hp.solo raw rfl a ha
    | _ =>
      rintro raw ⟨⟩

end

/-! ## Runs -/

section
variable {ph : Elf64_Phdr} {m₀ : Bytes} {s s' : Proc T} {l : T × Act}

/-- The mappings of two threads do not overlap. -/
structure Isolated (ph : Elf64_Phdr) (m₀ : Bytes) (s : Proc T) : Prop where
  each : ∀ t, Private ph m₀ s.mem (s.thr t)
  clear : ∀ t u, u ≠ t → ∀ raw ∈ (s.thr t).point.mapping, ∀ raw' ∈ (s.thr u).point.mapping, Clear ph raw raw'
  image : Untouched ph m₀ s.mem

theorem Clear.symm {raw raw' : Word} (h : Clear ph raw raw') : Clear ph raw' raw := Or.symm h

theorem isolated_step (hr : ph.regular) (hi : Isolated ph m₀ s) (hok : Allowed ph s l) (h : step ph s l = some s') :
    Isolated ph m₀ s' := by
  obtain ⟨t, act⟩ := l
  have hself := Conf.step_self h
  have hmove := move_moves hself
  have hother : ∀ u, u ≠ t → s'.thr u = s.thr u := fun u hu => Conf.step_other h hu
  have hnew : ∀ raw, act = .mmap raw → 0 ≤ raw.toInt → noWrap ph raw ∧ apart ph raw := by
    rintro raw rfl hpos
    exact ⟨(hok hpos).1, (hok hpos).2.1⟩
  have hown := Private.own hmove hr hi.image hnew (hi.each t)
  -- the new mapping of `t`, if it has one, is clear of the others
  have hclear : ∀ u, u ≠ t → ∀ raw ∈ (s'.thr t).point.mapping, ∀ raw' ∈ (s.thr u).point.mapping, Clear ph raw raw' := by
    intro u hu raw hraw raw' hraw'
    rcases hmove.mapping raw hraw with hold | ⟨rfl, hpos⟩
    · exact hi.clear t u hu raw hold raw' hraw'
    · exact (hok hpos).2.2 u hu raw' hraw'
  have hout : ∀ a, (∀ raw ∈ (s'.thr t).point.mapping, ¬ inMapping raw ph.template.len a) → (∀ v, act ≠ .write a v) →
      s'.mem a = s.mem a := fun a ha hact => hmove.outside hr (fun raw hraw => (hown.mapped raw hraw).1) ha hact
  refine ⟨fun u => ?_, fun u x hx => ?_, ?_⟩
  · by_cases hu : u = t
    · rw [hu]
      exact hown
    · rw [hother u hu]
      have hp := hi.each u
      refine ⟨hp.mapped, hp.copied, hp.fs, fun raw hraw a ha => ?_⟩
      rw [← hp.solo raw hraw a ha]
      apply hout
      · intro raw' hraw' ha'
        exact (hclear u hu raw' hraw' raw hraw).apart hr (hown.mapped raw' hraw').1 (hp.mapped raw hraw).1 ha' ha
      · rintro v rfl
        exact hok.2 u hu raw hraw ha
  · by_cases hu : u = t
    · subst hu
      rw [hother x hx]
      exact hclear x hx
    · rw [hother u hu]
      by_cases hxt : x = t
      · subst hxt
        exact fun raw hraw raw' hraw' => (hclear u hu raw' hraw' raw hraw).symm
      · rw [hother x hxt]
        exact hi.clear u x hx
  · intro o ho
    rw [← hi.image o ho]
    apply hout
    · exact fun raw hraw => (hown.mapped raw hraw).2.1 o ho
    · rintro v rfl
      exact hok.1 o ho rfl

theorem run_isolated (hr : ph.regular) (h : Run (step ph) (fun s l _ => Allowed ph s l) (start m₀) s) :
    Isolated ph m₀ s := by
  refine h.inv (Isolated ph m₀) ⟨fun t => ⟨?_, ?_, ?_, ?_⟩, ?_, fun _ _ => rfl⟩ ?_
  · rintro raw ⟨⟩
  · rintro raw i ⟨⟩
  · rintro raw w ⟨⟩
  · rintro raw ⟨⟩
  · rintro t u - raw ⟨⟩
  · intro s l s' hi hok hst
    exact isolated_step hr hi hok hst

/-- A byte that was not written. -/
theorem replay_of_not_mem {m : Bytes} {wrote : List (Word × BitVec 8)} {a : Word} (h : a ∉ wrote.map Prod.fst) :
    replay m wrote a = m a := by
  induction wrote generalizing m with
  | nil => rfl
  | cons w wrote ih =>
    rw [List.map_cons, List.mem_cons, not_or] at h
    rw [replay, List.foldl_cons]
    show replay _ wrote a = m a
    rw [ih h.2, Function.update_of_ne h.1]

/-- In all interleavings: a thread that runs has in its mapping exactly what a call of
`__tls_setup_self` alone would have left there, changed by its own writes and no others,
and its thread pointer is that of the call. So each of its variables has the initial value
until the thread itself writes it. No other thread has a byte of that mapping in its own. -/
theorem tls_isolated (hr : ph.regular) (h : Run (step ph) (fun s l _ => Allowed ph s l) (start m₀) s) {t : T}
    {raw : Word} {wrote : List (Word × BitVec 8)} (ht : (s.thr t).point = .runs raw wrote) :
    (∀ a, inMapping raw ph.template.len a →
      s.mem a = replay (tls_setup_self ph.template m₀ 0 raw 0).mem wrote a) ∧
    (s.thr t).fs = (tls_setup_self ph.template m₀ 0 raw 0).fs ∧
    (∀ j < ph.template.tls_size.toNat, ph.template.base raw + BitVec.ofNat 64 j ∉ wrote.map Prod.fst →
      s.mem (ph.template.base raw + BitVec.ofNat 64 j) = ph.initial m₀ j) ∧
    ∀ u, u ≠ t → ∀ raw' ∈ (s.thr u).point.mapping, ∀ a,
      inMapping raw ph.template.len a → ¬ inMapping raw' ph.template.len a := by
  have hi := run_isolated hr h
  have hp := hi.each t
  have hmap : raw ∈ (s.thr t).point.mapping := by
    rw [ht]
    rfl
  obtain ⟨hw, hsep, hraw⟩ := hp.mapped raw hmap
  obtain ⟨hfs, hmem⟩ := @setup_eq ph raw m₀ 0 0 hr hw hraw (by rw [setup_mapped (size_ne_zero hr hw) hraw])
  have hsolo := hp.solo raw hmap
  rw [ht] at hsolo
  refine ⟨fun a ha => ?_, ?_, fun j hj hnot => ?_, fun u hu raw' hraw' a ha => ?_⟩
  · rw [hmem]
    exact hsolo a ha
  · rw [hfs]
    exact hp.fs raw wrote ht
  · rw [hsolo _ (block_inMapping hr hw hj), Point.solo, replay_of_not_mem hnot]
    exact block_byte hr hw hsep hj _
  · exact (hi.clear t u hu raw hmap raw' hraw').apart hr hw ((hi.each u).mapped raw' hraw').1 ha

/-- An image of two bytes for a template of 16, and the memory that has it. -/
def pairHeader : Elf64_Phdr := ⟨7, 0x200, 2, 16, 8⟩
def pairMem : Bytes := fun a => if a = 0x200 then 1 else 0

/-- Two threads copy the image at the same time and then write one byte each. -/
theorem tls_isolated_pair :
    ∃ s : Proc Bool, Run (step pairHeader) (fun s l _ => Allowed pairHeader s l) (start pairMem) s ∧
      ((s.thr false).point = .runs 0x10000 [(0x10001, 5)] ∧ (s.thr true).point = .runs 0x20000 [(0x20000, 9)]) ∧
      s.mem (pairHeader.template.base 0x10000 + BitVec.ofNat 64 0) = pairHeader.initial pairMem 0 := by
  have h : ((exec (step pairHeader) (fun s l => decide (Allowed pairHeader s l)) (start pairMem)
      ([(false, .mmap 0x10000), (true, .mmap 0x20000), (false, .copy), (true, .copy), (true, .copy), (false, .copy),
        (true, .self), (false, .self), (false, .prctl 0), (true, .prctl 0), (true, .write 0x20000 9),
        (false, .write 0x10001 5)] : List (Bool × Act))).map fun s =>
      decide ((s.thr false).point = .runs 0x10000 [(0x10001, 5)] ∧
        (s.thr true).point = .runs 0x20000 [(0x20000, 9)])) = some true := by
    decide +kernel
  have hr : pairHeader.regular := ⟨.inr ⟨3, rfl⟩, by decide, by decide⟩
  obtain ⟨s, hrun, hs⟩ := exec_reaches h fun s l _ hb => of_decide_eq_true hb
  exact ⟨s, hrun, hs, (tls_isolated hr hrun hs.1).2.2.1 0 (by decide) (by decide)⟩

end

end LibNeoos.Start
