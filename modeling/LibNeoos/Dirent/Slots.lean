import LibNeoos.Dirent.Listing
/-!
# The slots of the pool

As long as nobody begins to work on a slot that another call works on, each of
the four slots is at one point of its life: free, on its way through `opendir`,
open, on its way through `closedir` (`Phase`). `Agree` says that the memory, the
kernel and the threads are as the phases have it. Each step moves the slot its
call works on to its next phase and leaves the other slots, their files and
their streams alone.
-/

namespace LibNeoos.Dirent

open Lib

/-! ## Phases -/

/-- Where a slot is in its life. `picked` has no file yet, `file` has one that
is not read yet, `bad` one that cannot be read, `fill` and `clear` have some of their stores
done, `shut` is about to have its file closed. -/
inductive Phase where
  | free
  | picked
  | file (fd : Int) (dir : List Record)
  | bad (fd : Int)
  | fill (fd : Int) (dir : List Record) (first : List UInt8) (n : Nat)
  | live (st : Stream)
  | shut (fd : Int)
  | clear (n : Nat)

/-- The descriptor that belongs to a slot. -/
def Phase.fd : Phase → Option Int
  | .file fd _ => some fd
  | .bad fd => some fd
  | .fill fd _ _ _ => some fd
  | .live st => some st.fd
  | .shut fd => some fd
  | _ => none

/-- The open streams of a slot. -/
def Phase.streams : Phase → List Stream
  | .live st => [st]
  | _ => []

/-- No call has to finish before the slot can be used. -/
def Phase.settled : Phase → Prop
  | .free => True
  | .live _ => True
  | _ => False

/-- The phase a slot is in while a call on it is at this point. Before `readdir`
and `closedir` change anything the slot is free or open. -/
def Frame.phase : Frame → Option (Slot × Phase)
  | .opening i => some (i, .picked)
  | .first i fd dir => some (i, .file fd dir)
  | .reject i fd => some (i, .bad fd)
  | .fill i fd dir batch n => some (i, .fill fd dir batch n)
  | .closing i fd => some (i, .shut fd)
  | .clear i _ n => if n < closedir_stores.length then some (i, .clear n) else none
  | _ => none

theorem Frame.slot_of_phase {f : Frame} {i : Slot} {p : Phase} (h : f.phase = some (i, p)) : f.slot = some i := by
  cases f with
  | clear j rc n =>
    simp only [Frame.phase] at h
    split at h
    · rename_i hn
      cases h
      exact if_pos hn
    · cases h
  | _ =>
    simp only [Frame.phase, Option.some.injEq, Prod.mk.injEq, reduceCtorEq] at h <;> simp only [Frame.slot, h.1]

/-- A call at this point leaves slot `i` in the phase `p`, and works on no other. -/
def Frame.Fits (f : Frame) (i : Slot) (p : Phase) : Prop :=
  f.phase = some (i, p) ∨ (f.phase = none ∧ p.settled ∧ (f.slot = none ∨ f.slot = some i))

theorem Frame.Fits.slot {f : Frame} {i j : Slot} {p : Phase} (h : f.Fits i p) (hj : f.slot = some j) : j = i := by
  rcases h with h | ⟨-, -, h | h⟩
  · rw [Frame.slot_of_phase h] at hj
    exact (Option.some.inj hj).symm
  · rw [h] at hj
    cases hj
  · rw [h] at hj
    exact (Option.some.inj hj).symm

theorem Frame.Fits.phase {f : Frame} {i : Slot} {p : Phase} {q : Slot × Phase} (h : f.Fits i p)
    (hq : f.phase = some q) :
    q = (i, p) := by
  rcases h with h | ⟨h, -⟩
  · rw [h] at hq
    exact (Option.some.inj hq).symm
  · rw [h] at hq
    cases hq

theorem Frame.Fits.settled {f : Frame} {i : Slot} {p : Phase} (h : f.Fits i p) (hf : f.phase = none) : p.settled := by
  rcases h with h | ⟨-, h, -⟩
  · rw [hf] at h
    cases h
  · exact h

/-- What the memory and the kernel have for a slot in a phase. -/
def Rep (d : DIR) (fds : Int → Option File) : Phase → Prop
  | .free => d.in_use = false
  | .picked => d.in_use = false
  | .file fd dir => d.in_use = false ∧ fds fd = some ⟨dir, 0⟩
  | .bad fd => d.in_use = false ∧ ∃ f, fds fd = some f
  | .fill fd dir first n => ∃ f d₀, fds fd = some f ∧ f.dir = dir ∧ f.pos ≤ f.dir.length ∧ (f.pos = 0 → f.dir = []) ∧
      first = (f.batch 0).flatten ∧ first <+: d₀.buf ∧
      d = ((opendir_stores fd first.length).take n).foldl (fun d g => g d) d₀
  | .live st => d.in_use = true ∧ d.fd = st.fd ∧ ∃ f b c, fds st.fd = some f ∧ f.dir = st.dir ∧ Listing d f st b c
  | .shut fd => ∃ f, fds fd = some f
  | .clear n => n ≠ 0 → d.in_use = false

/-- The file of a slot is open. -/
theorem Rep.file {d : DIR} {fds : Int → Option File} {p : Phase} {fd : Int} (h : Rep d fds p) (hfd : p.fd = some fd) :
    ∃ f, fds fd = some f := by
  cases p with
  | free => cases hfd
  | picked => cases hfd
  | file fd' dir =>
    cases hfd
    exact ⟨_, h.2⟩
  | bad fd' =>
    cases hfd
    exact h.2
  | fill fd' dir first n =>
    cases hfd
    obtain ⟨f, -, hf, -⟩ := h
    exact ⟨f, hf⟩
  | live st =>
    cases hfd
    obtain ⟨-, -, f, -, -, hf, -⟩ := h
    exact ⟨f, hf⟩
  | shut fd' =>
    cases hfd
    exact h
  | clear n => cases hfd

/-- A slot's phase depends on no file but its own. -/
theorem Rep.congr {d : DIR} {fds fds' : Int → Option File} {p : Phase} (h : Rep d fds p)
    (hfds : ∀ fd, p.fd = some fd → fds' fd = fds fd) : Rep d fds' p := by
  cases p with
  | free => exact h
  | picked => exact h
  | file fd dir => exact ⟨h.1, by rw [hfds fd rfl]; exact h.2⟩
  | bad fd => exact ⟨h.1, by rw [hfds fd rfl]; exact h.2⟩
  | fill fd dir first n =>
    obtain ⟨f, d₀, hf, hrest⟩ := h
    exact ⟨f, d₀, by rw [hfds fd rfl, hf], hrest⟩
  | live st =>
    obtain ⟨hu, hd, f, b, c, hf, hl⟩ := h
    exact ⟨hu, hd, f, b, c, by rw [hfds st.fd rfl, hf], hl⟩
  | shut fd =>
    obtain ⟨f, hf⟩ := h
    exact ⟨f, by rw [hfds fd rfl, hf]⟩
  | clear n => exact h

/-- What a call of `readdir` or `closedir` has seen of its slot. -/
def Frame.Seen (m : Mem) (φ : Slot → Phase) : Frame → Prop
  | .refill i => (∃ st, φ i = .live st) ∧ (m.dirs i).valid ≤ (m.dirs i).next ∧ (m.dirs i).at_end = false
  | .loadFd i => ∃ st, φ i = .live st
  | _ => True

theorem Frame.Seen.congr {m m' : Mem} {φ φ' : Slot → Phase} {f : Frame} (h : f.Seen m φ)
    (hd : ∀ j, f.slot = some j → m'.dirs j = m.dirs j ∧ φ' j = φ j) : f.Seen m' φ' := by
  cases f with
  | refill i =>
    obtain ⟨hdir, hphase⟩ := hd i rfl
    simpa only [Frame.Seen, hdir, hphase] using h
  | loadFd i =>
    obtain ⟨-, hphase⟩ := hd i rfl
    simpa only [Frame.Seen, hphase] using h
  | _ => trivial

/-- The memory, the kernel and the threads are as the phases of the slots have it. -/
structure Agree {T : Type} (m : Mem) (thr : T → Frame) (φ : Slot → Phase) : Prop where
  one : ∀ t u i, (thr t).slot = some i → (thr u).slot = some i → t = u
  phase : ∀ t i p, (thr t).phase = some (i, p) → φ i = p
  rest : ∀ i, (∀ t p, (thr t).phase ≠ some (i, p)) → (φ i).settled
  seen : ∀ t, (thr t).Seen m φ
  rep : ∀ i, Rep (m.dirs i) m.fds (φ i)
  fds : ∀ i j fd, (φ i).fd = some fd → (φ j).fd = some fd → i = j
  streams : ∀ i, m.streams.filter (·.slot = i) = (φ i).streams

theorem agree_start {T : Type} : Agree {} (fun _ : T => .idle) fun _ => .free := by
  refine ⟨?_, ?_, ?_, ?_, ?_, ?_, ?_⟩
  · intro t u i ht
    cases ht
  · intro t i p ht
    cases ht
  · intro i _
    exact trivial
  · intro t
    exact trivial
  · intro i
    rfl
  · intro i j fd hi
    cases hi
  · intro i
    rfl

/-! ## What a step leaves alone -/

/-- From `m` to `m'` only slot `i`, its file and its streams change. -/
structure Elsewhere (φ : Slot → Phase) (i : Slot) (m m' : Mem) : Prop where
  dirs : ∀ j, j ≠ i → m'.dirs j = m.dirs j
  fds : ∀ j, j ≠ i → ∀ fd, (φ j).fd = some fd → m'.fds fd = m.fds fd
  streams : ∀ j, j ≠ i → m'.streams.filter (·.slot = j) = m.streams.filter (·.slot = j)

namespace Elsewhere
variable {φ : Slot → Phase} {i : Slot} {m m' m'' : Mem}

theorem refl : Elsewhere φ i m m := ⟨fun _ _ => rfl, fun _ _ _ _ => rfl, fun _ _ => rfl⟩

theorem trans (h : Elsewhere φ i m m') (h' : Elsewhere φ i m' m'') : Elsewhere φ i m m'' := by
  refine ⟨?_, ?_, ?_⟩
  · intro j hj
    rw [h'.dirs j hj, h.dirs j hj]
  · intro j hj fd hfd
    rw [h'.fds j hj fd hfd, h.fds j hj fd hfd]
  · intro j hj
    rw [h'.streams j hj, h.streams j hj]

theorem set (f : DIR → DIR) : Elsewhere φ i m (m.set i f) := by
  refine ⟨?_, fun _ _ _ _ => rfl, fun _ _ => rfl⟩
  intro j hj
  exact Function.update_of_ne hj _ _

/-- The file of no other slot is `fd`. -/
theorem setFile {fd : Int} (h : ∀ j, j ≠ i → (φ j).fd ≠ some fd) (f : Option File) :
    Elsewhere φ i m (m.setFile fd f) := by
  refine ⟨fun _ _ => rfl, ?_, fun _ _ => rfl⟩
  intro j hj fd' hfd'
  refine Function.update_of_ne ?_ _ _
  rintro rfl
  exact h j hj hfd'

theorem onStream {g : Stream → Stream} (hg : ∀ st, (g st).slot = st.slot) : Elsewhere φ i m (m.onStream i g) := by
  refine ⟨fun _ _ => rfl, fun _ _ _ _ => rfl, ?_⟩
  intro j hj
  simp only [Mem.onStream]
  induction m.streams with
  | nil => rfl
  | cons st l ih =>
    rw [List.map_cons, List.filter_cons, List.filter_cons, ih]
    by_cases hst : st.slot = i
    · simp [hst, hg, Ne.symm hj]
    · simp [hst]

theorem push {st : Stream} (hst : st.slot = i) : Elsewhere φ i m { m with streams := m.streams ++ [st] } := by
  refine ⟨fun _ _ => rfl, fun _ _ _ _ => rfl, ?_⟩
  intro j hj
  have hne : ¬ st.slot = j := fun h => hj (h.symm.trans hst)
  simp [List.filter_append, hne]

theorem drop : Elsewhere φ i m { m with streams := m.streams.filter (·.slot ≠ i) } := by
  refine ⟨fun _ _ => rfl, fun _ _ _ _ => rfl, ?_⟩
  intro j hj
  rw [List.filter_filter]
  refine List.filter_congr ?_
  intro st _
  by_cases hst : st.slot = j
  · simp [hst, hj]
  · simp [hst]

end Elsewhere

theorem filter_onStream (m : Mem) (i : Slot) {g : Stream → Stream} (hg : ∀ st, (g st).slot = st.slot) :
    (m.onStream i g).streams.filter (·.slot = i) = (m.streams.filter (·.slot = i)).map g := by
  simp only [Mem.onStream]
  induction m.streams with
  | nil => rfl
  | cons st l ih =>
    rw [List.map_cons, List.filter_cons, List.filter_cons, ih]
    by_cases hst : st.slot = i
    · simp [hst, hg]
    · simp [hst]

/-! ## The slot a call works on moves to its next phase -/

namespace Agree
variable {T : Type} {m m' : Mem} {thr thr' : T → Frame} {φ : Slot → Phase} {t : T} {i : Slot} {f : Frame}

/-- A slot that no call is changing is free or open. -/
theorem settled_of (h : Agree m thr φ) (hs : ∀ u, u ≠ t → (thr u).slot ≠ some i) (hp : (thr t).phase = none) :
    (φ i).settled := by
  refine h.rest i ?_
  intro u p hu
  by_cases hut : u = t
  · subst hut
    rw [hp] at hu
    cases hu
  · exact hs u hut (Frame.slot_of_phase hu)

/-- A step of thread `t` on slot `i`, the only call that works on it. -/
theorem act (h : Agree m thr φ) (p : Phase) (self : thr' t = f) (other : ∀ u, u ≠ t → thr' u = thr u)
    (alone : ∀ u, u ≠ t → (thr u).slot ≠ some i) (old : ∀ j, (thr t).slot = some j → j = i) (fits : f.Fits i p)
    (seen : f.Seen m' (Function.update φ i p)) (rep : Rep (m'.dirs i) m'.fds p)
    (own : ∀ fd, p.fd = some fd → ∀ j, j ≠ i → (φ j).fd ≠ some fd)
    (streams : m'.streams.filter (·.slot = i) = p.streams) (elsewhere : Elsewhere φ i m m') :
    Agree m' thr' (Function.update φ i p) := by
  refine ⟨?_, ?_, ?_, ?_, ?_, ?_, ?_⟩
  · intro u v j hu hv
    by_cases hut : u = t <;> by_cases hvt : v = t
    · rw [hut, hvt]
    · rw [hut, self] at hu
      rw [other v hvt, fits.slot hu] at hv
      exact absurd hv (alone v hvt)
    · rw [hvt, self] at hv
      rw [other u hut, fits.slot hv] at hu
      exact absurd hu (alone u hut)
    · rw [other u hut] at hu
      rw [other v hvt] at hv
      exact h.one u v j hu hv
  · intro u j q hu
    by_cases hut : u = t
    · rw [hut, self] at hu
      cases fits.phase hu
      exact Function.update_self ..
    · rw [other u hut] at hu
      have hji : j ≠ i := by
        rintro rfl
        exact alone u hut (Frame.slot_of_phase hu)
      rw [Function.update_of_ne hji]
      exact h.phase u j q hu
  · intro j hj
    by_cases hji : j = i
    · subst hji
      rw [Function.update_self]
      refine fits.settled (Option.eq_none_iff_forall_ne_some.2 ?_)
      intro q hq
      obtain rfl := fits.phase hq
      exact hj t p (by rw [self]; exact hq)
    · rw [Function.update_of_ne hji]
      refine h.rest j ?_
      intro u q hu
      by_cases hut : u = t
      · rw [hut] at hu
        exact hji (old j (Frame.slot_of_phase hu))
      · exact hj u q (by rw [other u hut]; exact hu)
  · intro u
    by_cases hut : u = t
    · rw [hut, self]
      exact seen
    · rw [other u hut]
      refine (h.seen u).congr ?_
      intro j hj
      have hji : j ≠ i := by
        rintro rfl
        exact alone u hut hj
      exact ⟨elsewhere.dirs j hji, Function.update_of_ne hji ..⟩
  · intro j
    by_cases hji : j = i
    · subst hji
      rw [Function.update_self]
      exact rep
    · rw [Function.update_of_ne hji, elsewhere.dirs j hji]
      exact (h.rep j).congr (elsewhere.fds j hji)
  · intro j k fd hj hk
    by_cases hji : j = i <;> by_cases hki : k = i
    · rw [hji, hki]
    · rw [hji, Function.update_self] at hj
      rw [Function.update_of_ne hki] at hk
      exact absurd hk (own fd hj k hki)
    · rw [hki, Function.update_self] at hk
      rw [Function.update_of_ne hji] at hj
      exact absurd hj (own fd hk j hji)
    · rw [Function.update_of_ne hji] at hj
      rw [Function.update_of_ne hki] at hk
      exact h.fds j k fd hj hk
  · intro j
    by_cases hji : j = i
    · subst hji
      rw [Function.update_self]
      exact streams
    · rw [Function.update_of_ne hji, ← h.streams j]
      exact elsewhere.streams j hji

/-- The common case: the call already works on the slot. -/
theorem moves (h : Agree m thr φ) (p : Phase) (self : thr' t = f) (other : ∀ u, u ≠ t → thr' u = thr u)
    (hs : (thr t).slot = some i) (fits : f.Fits i p) (seen : f.Seen m' (Function.update φ i p))
    (rep : Rep (m'.dirs i) m'.fds p) (own : ∀ fd, p.fd = some fd → ∀ j, j ≠ i → (φ j).fd ≠ some fd)
    (streams : m'.streams.filter (·.slot = i) = p.streams) (elsewhere : Elsewhere φ i m m') :
    Agree m' thr' (Function.update φ i p) := by
  refine h.act p self other ?_ ?_ fits seen rep own streams elsewhere
  · intro u hut hu
    exact hut (h.one u t i hu hs)
  · intro j hj
    rw [hs] at hj
    exact (Option.some.inj hj).symm

end Agree

end LibNeoos.Dirent
