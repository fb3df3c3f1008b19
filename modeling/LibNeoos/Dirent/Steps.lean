import LibNeoos.Dirent.Slots
/-!
# Every step keeps the slots in order

One lemma for each kind of step of `opendir`, `readdir` and `closedir`, and from
them `run_agree`: in a run in which nobody begins to work on a slot that another
call works on, the slots are in order in every state, and a step changes nothing
of the slots its call does not work on.
-/

namespace LibNeoos.Dirent

open Lib

/-- After a step of thread `t` the slots are in order again, and it changed
nothing but the slot it works on. -/
def Keeps {T : Type} (m : Mem) (thr : T → Frame) (φ : Slot → Phase) (t : T) (m' : Mem) (thr' : T → Frame) : Prop :=
  ∃ φ', Agree m' thr' φ' ∧ (m' = m ∨ ∃ i, (thr t).slot = some i ∧ Elsewhere φ i m m')

namespace Agree
variable {T : Type} {m m' : Mem} {thr thr' : T → Frame} {φ : Slot → Phase} {t : T} {i : Slot} {f : Frame}

/-- A step that changes no memory and no phase. -/
theorem quiet (h : Agree m thr φ) (self : thr' t = f) (other : ∀ u, u ≠ t → thr' u = thr u)
    (old : (thr t).phase = none) (new : f.phase = none)
    (alone : ∀ j, f.slot = some j → ∀ u, u ≠ t → (thr u).slot ≠ some j) (seen : f.Seen m φ) : Agree m thr' φ := by
  refine { h with one := ?_, phase := ?_, rest := ?_, seen := ?_ }
  · intro u v j hu hv
    by_cases hut : u = t <;> by_cases hvt : v = t
    · rw [hut, hvt]
    · rw [hut, self] at hu
      rw [other v hvt] at hv
      exact absurd hv (alone j hu v hvt)
    · rw [hvt, self] at hv
      rw [other u hut] at hu
      exact absurd hu (alone j hv u hut)
    · rw [other u hut] at hu
      rw [other v hvt] at hv
      exact h.one u v j hu hv
  · intro u j q hu
    by_cases hut : u = t
    · rw [hut, self, new] at hu
      cases hu
    · rw [other u hut] at hu
      exact h.phase u j q hu
  · intro j hj
    refine h.rest j ?_
    intro u q hu
    by_cases hut : u = t
    · rw [hut, old] at hu
      cases hu
    · exact hj u q (by rw [other u hut]; exact hu)
  · intro u
    by_cases hut : u = t
    · rw [hut, self]
      exact seen
    · rw [other u hut]
      exact h.seen u

/-- No other call works on the slot a call works on. -/
theorem alone (h : Agree m thr φ) (hs : (thr t).slot = some i) : ∀ u, u ≠ t → (thr u).slot ≠ some i := by
  intro u hut hu
  exact hut (h.one u t i hu hs)

/-- The file of a slot is no other slot's. -/
theorem own (h : Agree m thr φ) {fd : Int} (hfd : (φ i).fd = some fd) : ∀ j, j ≠ i → (φ j).fd ≠ some fd := by
  intro j hji hj
  exact hji (h.fds j i fd hj hfd)

/-- A slot in use that no call is changing is open. -/
theorem live_of (h : Agree m thr φ) (hs : (thr t).slot = some i) (hp : (thr t).phase = none)
    (hu : (m.dirs i).in_use = true) : ∃ st, φ i = .live st := by
  have hset := h.settled_of (h.alone hs) hp
  have hrep := h.rep i
  cases hφ : φ i with
  | live st => exact ⟨st, rfl⟩
  | free =>
    rw [hφ] at hrep
    exact absurd (hrep.symm.trans hu) (by decide)
  | _ =>
    rw [hφ] at hset
    exact hset.elim

/-- A slot that is not open has no streams. -/
theorem no_streams (h : Agree m thr φ) (hφ : (φ i).streams = []) : m.streams.filter (·.slot = i) = [] := by
  rw [h.streams i, hφ]

/-! ## `opendir` -/

/-- The scan finds the slot free. -/
theorem pick (h : Agree m thr φ) (other : ∀ u, u ≠ t → thr' u = thr u) {k : Nat} (hp : thr t = .scan k)
    (self : thr' t = .opening i) (alone : ∀ u, u ≠ t → (thr u).slot ≠ some i) (hfree : (m.dirs i).in_use = false) :
    Agree m thr' (Function.update φ i .picked) := by
  have hφ : (φ i).streams = [] := by
    have hrep := h.rep i
    cases hφ : φ i with
    | live st =>
      rw [hφ] at hrep
      exact absurd (hfree.symm.trans hrep.1) (by decide)
    | _ => rfl
  refine h.act .picked self other alone ?_ (.inl rfl) trivial hfree ?_ (h.no_streams hφ) .refl
  · intro j hj
    rw [hp] at hj
    cases hj
  · intro fd hfd
    cases hfd

theorem open_fails (h : Agree m thr φ) (other : ∀ u, u ≠ t → thr' u = thr u) (hp : thr t = .opening i) {r : Result}
    (self : thr' t = .done r) : Agree m thr' (Function.update φ i .free) := by
  have hφ : φ i = .picked := h.phase t i _ (by rw [hp]; rfl)
  have hrep := h.rep i
  rw [hφ] at hrep
  refine h.moves .free self other (by rw [hp]; rfl) (.inr ⟨rfl, trivial, .inl rfl⟩) trivial hrep ?_ ?_ .refl
  · intro fd hfd
    cases hfd
  · exact h.no_streams (by rw [hφ]; rfl)

theorem opens (h : Agree m thr φ) (other : ∀ u, u ≠ t → thr' u = thr u) (hp : thr t = .opening i) {fd : Int}
    {dir : List Record} (hnew : m.fds fd = none) (self : thr' t = .first i fd dir) :
    Elsewhere φ i m (m.setFile fd (some ⟨dir, 0⟩)) ∧
      Agree (m.setFile fd (some ⟨dir, 0⟩)) thr' (Function.update φ i (.file fd dir)) := by
  have hφ : φ i = .picked := h.phase t i _ (by rw [hp]; rfl)
  have hrep := h.rep i
  rw [hφ] at hrep
  -- the files of all slots are open, and the new descriptor was not
  have hown : ∀ j, j ≠ i → (φ j).fd ≠ some fd := by
    intro j _ hj
    obtain ⟨f, hf⟩ := (h.rep j).file hj
    rw [hnew] at hf
    cases hf
  have helse : Elsewhere φ i m (m.setFile fd (some ⟨dir, 0⟩)) := .setFile hown _
  refine ⟨helse, h.moves (.file fd dir) self other (by rw [hp]; rfl) (.inl rfl) trivial ?_ ?_ ?_ helse⟩
  · exact ⟨hrep, Function.update_self ..⟩
  · rintro fd' ⟨⟩
    exact hown
  · exact h.no_streams (by rw [hφ]; rfl)

theorem first_fails (h : Agree m thr φ) (other : ∀ u, u ≠ t → thr' u = thr u) {fd : Int} {dir : List Record}
    (hp : thr t = .first i fd dir) (self : thr' t = .reject i fd) : Agree m thr' (Function.update φ i (.bad fd)) := by
  have hφ : φ i = .file fd dir := h.phase t i _ (by rw [hp]; rfl)
  have hrep := h.rep i
  rw [hφ] at hrep
  refine h.moves (.bad fd) self other (by rw [hp]; rfl) (.inl rfl) trivial ⟨hrep.1, _, hrep.2⟩ ?_ ?_ .refl
  · rintro fd' ⟨⟩
    exact h.own (by rw [hφ]; rfl)
  · exact h.no_streams (by rw [hφ]; rfl)

/-- The first batch is in the buffer. -/
theorem first_batch (h : Agree m thr φ) (other : ∀ u, u ≠ t → thr' u = thr u) {fd : Int} {dir : List Record}
    (hp : thr t = .first i fd dir) {n : Nat} {f f' : File} {bytes : List UInt8} (hf : m.fds fd = some f)
    (hg : f.getdents n = some (bytes, f')) (self : thr' t = .fill i fd dir bytes 0) :
    Elsewhere φ i m ((m.set i (·.write bytes)).setFile fd (some f')) ∧
      Agree ((m.set i (·.write bytes)).setFile fd (some f')) thr' (Function.update φ i (.fill fd dir bytes 0)) := by
  have hφ : φ i = .file fd dir := h.phase t i _ (by rw [hp]; rfl)
  have hrep := h.rep i
  rw [hφ] at hrep
  obtain ⟨-, hdir⟩ := hrep
  rw [hf] at hdir
  cases hdir
  obtain ⟨hsame, hpos, hle, hbytes, hend⟩ := File.getdents_some hg
  have hown : ∀ j, j ≠ i → (φ j).fd ≠ some fd := h.own (by rw [hφ]; rfl)
  have helse : Elsewhere φ i m ((m.set i (·.write bytes)).setFile fd (some f')) :=
    (Elsewhere.set _).trans (.setFile hown _)
  refine ⟨helse, h.moves (.fill fd dir bytes 0) self other (by rw [hp]; rfl) (.inl rfl) trivial ?_ ?_ ?_ helse⟩
  · refine ⟨f', (m.dirs i).write bytes, Function.update_self .., hsame, hle, ?_, hbytes, List.prefix_append .., ?_⟩
    · intro h0
      rw [hsame]
      exact List.length_eq_zero_iff.1 (hend (by omega)).symm
    · exact Function.update_self ..
  · rintro fd' ⟨⟩
    exact hown
  · exact h.no_streams (by rw [hφ]; rfl)

theorem rejected (h : Agree m thr φ) (other : ∀ u, u ≠ t → thr' u = thr u) {fd : Int} (hp : thr t = .reject i fd)
    {r : Result} (self : thr' t = .done r) :
    Elsewhere φ i m (m.setFile fd none) ∧ Agree (m.setFile fd none) thr' (Function.update φ i .free) := by
  have hφ : φ i = .bad fd := h.phase t i _ (by rw [hp]; rfl)
  have hrep := h.rep i
  rw [hφ] at hrep
  have helse : Elsewhere φ i m (m.setFile fd none) := .setFile (h.own (by rw [hφ]; rfl)) _
  refine ⟨helse, h.moves .free self other (by rw [hp]; rfl) (.inr ⟨rfl, trivial, .inl rfl⟩) trivial hrep.1 ?_ ?_ helse⟩
  · intro fd' hfd
    cases hfd
  · exact h.no_streams (by rw [hφ]; rfl)

/-- One of the stores of `opendir`. -/
theorem fill_store (h : Agree m thr φ) (other : ∀ u, u ≠ t → thr' u = thr u) {fd : Int} {dir : List Record}
    {bytes : List UInt8} {n : Nat} (hp : thr t = .fill i fd dir bytes n) {g : DIR → DIR}
    (hg : (opendir_stores fd bytes.length)[n]? = some g) (self : thr' t = .fill i fd dir bytes (n + 1)) :
    Agree (m.set i g) thr' (Function.update φ i (.fill fd dir bytes (n + 1))) := by
  have hφ : φ i = .fill fd dir bytes n := h.phase t i _ (by rw [hp]; rfl)
  have hrep := h.rep i
  rw [hφ] at hrep
  obtain ⟨f, d₀, hf, hdir, hle, hend, hfirst, hbuf, hd⟩ := hrep
  refine h.moves (.fill fd dir bytes (n + 1)) self other (by rw [hp]; rfl) (.inl rfl) trivial ?_ ?_ ?_ (.set _)
  · refine ⟨f, d₀, hf, hdir, hle, hend, hfirst, hbuf, ?_⟩
    rw [List.take_add_one, hg, List.foldl_append, ← hd]
    exact Function.update_self ..
  · rintro fd' ⟨⟩
    exact h.own (by rw [hφ]; rfl)
  · exact h.no_streams (by rw [hφ]; rfl)

/-- `opendir` returns the stream. -/
theorem opened (h : Agree m thr φ) (other : ∀ u, u ≠ t → thr' u = thr u) {fd : Int} {dir : List Record}
    {bytes : List UInt8} {n : Nat} (hp : thr t = .fill i fd dir bytes n)
    (hn : (opendir_stores fd bytes.length)[n]? = none) {r : Result} (self : thr' t = .done r) :
    Elsewhere φ i m { m with streams := m.streams ++ [{ slot := i, fd := fd, dir := dir, first := bytes }] } ∧
      Agree { m with streams := m.streams ++ [{ slot := i, fd := fd, dir := dir, first := bytes }] } thr'
        (Function.update φ i (.live { slot := i, fd := fd, dir := dir, first := bytes })) := by
  have hφ : φ i = .fill fd dir bytes n := h.phase t i _ (by rw [hp]; rfl)
  have hrep := h.rep i
  rw [hφ] at hrep
  obtain ⟨f, d₀, hf, rfl, hle, hend, rfl, hbuf, hd⟩ := hrep
  rw [List.take_of_length_le (List.getElem?_eq_none_iff.1 hn)] at hd
  refine ⟨.push rfl, h.moves (.live _) self other (by rw [hp]; rfl) (.inr ⟨rfl, trivial, .inl rfl⟩) trivial ?_ ?_ ?_
    (.push rfl)⟩
  · simp only [hd]
    exact ⟨rfl, rfl, f, 0, 0, hf, rfl, Listing.opened hle hend hbuf⟩
  · rintro fd' ⟨⟩
    exact h.own (by rw [hφ]; rfl)
  · rw [List.filter_append, h.no_streams (by rw [hφ]; rfl)]
    simp [Phase.streams]

theorem opendir_step {a : Act} (h : Agree m thr φ) (other : ∀ u, u ≠ t → thr' u = thr u)
    (hx : ∀ i, begins m (thr t) a = some i → ∀ u, u ≠ t → (thr u).slot ≠ some i)
    (hs : opendir m (thr t) a = some (m', thr' t)) : Keeps m thr φ t m' thr' := by
  generalize hp : thr t = p at hs hx
  generalize self : thr' t = f at hs
  unfold opendir at hs
  split at hs
  · rename_i k
    have hphase : (thr t).phase = none := by rw [hp]; rfl
    split at hs
    · rename_i hk
      split at hs
      · rename_i hfree
        cases hs
        have hfree : (m.dirs ⟨k, hk⟩).in_use = false := by simpa using hfree
        have halone := hx ⟨k, hk⟩ (by simp [begins, hk, hfree])
        exact ⟨_, h.pick other hp self halone hfree, .inl rfl⟩
      · cases hs
        exact ⟨φ, h.quiet self other hphase rfl (fun j hj => by cases hj) trivial, .inl rfl⟩
    · cases hs
      exact ⟨φ, h.quiet self other hphase rfl (fun j hj => by cases hj) trivial, .inl rfl⟩
  · split at hs
    · cases hs
      exact ⟨_, h.open_fails other hp self, .inl rfl⟩
    · cases hs
  · rename_i i fd dir
    split at hs
    · rename_i hnew
      cases hs
      obtain ⟨helse, hagree⟩ := h.opens other hp hnew.2 self
      exact ⟨_, hagree, .inr ⟨i, by rw [hp]; rfl, helse⟩⟩
    · cases hs
  · split at hs
    · cases hs
      exact ⟨_, h.first_fails other hp self, .inl rfl⟩
    · cases hs
  · rename_i i fd dir n
    obtain ⟨⟨bytes, f'⟩, hg, hs⟩ := Option.map_eq_some_iff.1 hs
    obtain ⟨file, hf, hg⟩ := Option.bind_eq_some_iff.1 hg
    cases hs
    obtain ⟨helse, hagree⟩ := h.first_batch other hp hf hg self
    exact ⟨_, hagree, .inr ⟨i, by rw [hp]; rfl, helse⟩⟩
  · rename_i i fd rc
    cases hs
    obtain ⟨helse, hagree⟩ := h.rejected other hp self
    exact ⟨_, hagree, .inr ⟨i, by rw [hp]; rfl, helse⟩⟩
  · rename_i i fd dir bytes n
    split at hs
    · rename_i g hg
      cases hs
      exact ⟨_, h.fill_store other hp hg self, .inr ⟨i, by rw [hp]; rfl, .set _⟩⟩
    · rename_i hn
      cases hs
      obtain ⟨helse, hagree⟩ := h.opened other hp hn self
      exact ⟨_, hagree, .inr ⟨i, by rw [hp]; rfl, helse⟩⟩
  · cases hs

/-! ## `readdir` -/

/-- `readdir` changes its stream and answers. -/
theorem answers (h : Agree m thr φ) (other : ∀ u, u ≠ t → thr' u = thr u) (hs : (thr t).slot = some i) {st : Stream}
    (hφ : φ i = .live st) (g : Stream → Stream) (hslot : ∀ st, (g st).slot = st.slot) (hfd : (g st).fd = st.fd)
    (helse : Elsewhere φ i m m') (hstreams : m'.streams = m.streams) {r : Result} (self : thr' t = .done r)
    (hrep : Rep (m'.dirs i) m'.fds (.live (g st))) :
    Elsewhere φ i m (m'.onStream i g) ∧ Agree (m'.onStream i g) thr' (Function.update φ i (.live (g st))) := by
  have helse' : Elsewhere φ i m (m'.onStream i g) := helse.trans (.onStream hslot)
  refine ⟨helse', h.moves (.live (g st)) self other hs (.inr ⟨rfl, trivial, .inl rfl⟩) trivial hrep ?_ ?_ helse'⟩
  · rintro fd ⟨⟩
    exact h.own (by rw [hφ, hfd]; rfl)
  · rw [filter_onStream _ _ hslot, hstreams, h.streams i, hφ]
    rfl

/-- A record is handed out. -/
theorem hand_out (h : Agree m thr φ) (other : ∀ u, u ≠ t → thr' u = thr u) (hs : (thr t).slot = some i) {st : Stream}
    (hφ : φ i = .live st) (helse : Elsewhere φ i m m') (hstreams : m'.streams = m.streams) {f : File} {b c : Nat}
    (hin : (m'.dirs i).in_use = true) (hfd : (m'.dirs i).fd = st.fd) (hf : m'.fds st.fd = some f)
    (hdir : f.dir = st.dir) (hl : Listing (m'.dirs i) f st b c) (hlt : (m'.dirs i).next < (m'.dirs i).valid)
    {r : Result} (self : thr' t = .done r) :
    Keeps m thr φ t ((m'.set i (·.handOut.2)).onStream i (·.answer (some (m'.dirs i).handOut.1))) thr' := by
  have hrep : Rep ((m'.set i (·.handOut.2)).dirs i) (m'.set i (·.handOut.2)).fds
      (.live (st.answer (some (m'.dirs i).handOut.1))) := by
    rw [Mem.set_dirs]
    exact ⟨hin, hfd, f, b, c + 1, hf, hdir, hl.handOut hlt⟩
  obtain ⟨helse', hagree⟩ := h.answers other hs hφ (·.answer (some (m'.dirs i).handOut.1)) (fun _ => rfl) rfl
    (helse.trans (.set _)) hstreams self hrep
  exact ⟨_, hagree, .inr ⟨i, hs, helse'⟩⟩

/-- Nothing is handed out, and the stream is at its end from now on. -/
theorem finish (h : Agree m thr φ) (other : ∀ u, u ≠ t → thr' u = thr u) (hs : (thr t).slot = some i) {st : Stream}
    (hφ : φ i = .live st) (g : Stream → Stream) (hslot : ∀ st, (g st).slot = st.slot) (hfd : (g st).fd = st.fd)
    (helse : Elsewhere φ i m m') (hstreams : m'.streams = m.streams) {r : Result} (self : thr' t = .done r)
    (hrep : Rep { m'.dirs i with at_end := true } m'.fds (.live (g st))) :
    Keeps m thr φ t ((m'.set i ({ · with at_end := true })).onStream i g) thr' := by
  have hrep' : Rep ((m'.set i ({ · with at_end := true })).dirs i) m'.fds (.live (g st)) := by
    rw [Mem.set_dirs]
    exact hrep
  obtain ⟨helse', hagree⟩ := h.answers other hs hφ g hslot hfd (helse.trans (.set _)) hstreams self hrep'
  exact ⟨_, hagree, .inr ⟨i, hs, helse'⟩⟩

theorem read_step (h : Agree m thr φ) (other : ∀ u, u ≠ t → thr' u = thr u) (hp : thr t = .read i)
    (hs : readdir m (.read i) .go = some (m', thr' t)) : Keeps m thr φ t m' thr' := by
  have hslot : (thr t).slot = some i := by rw [hp]; rfl
  have hphase : (thr t).phase = none := by rw [hp]; rfl
  generalize self : thr' t = f at hs
  simp only [readdir] at hs
  split at hs
  · cases hs
    exact ⟨φ, h.quiet self other hphase rfl (fun j hj => by cases hj) trivial, .inl rfl⟩
  · rename_i hu
    obtain ⟨st, hφ⟩ := h.live_of hslot hphase (by simpa using hu)
    have hrep := h.rep i
    rw [hφ] at hrep
    obtain ⟨hin, hfd, f, b, c, hf, hdir, hl⟩ := hrep
    split at hs
    · rename_i hge
      split at hs
      · rename_i hend
        cases hs
        obtain ⟨helse, hagree⟩ := h.answers other hslot hφ (·.answer none) (fun _ => rfl) rfl .refl rfl self
          ⟨hin, hfd, f, b, c, hf, hdir, hl.atEnd hend⟩
        exact ⟨_, hagree, .inr ⟨i, hslot, helse⟩⟩
      · rename_i hend
        cases hs
        refine ⟨φ, h.quiet self other hphase rfl ?_ ⟨⟨st, hφ⟩, hge, by simpa using hend⟩, .inl rfl⟩
        rintro j ⟨⟩
        exact h.alone hslot
    · rename_i hlt
      cases hs
      exact h.hand_out other hslot hφ .refl rfl hin hfd hf hdir hl (Nat.lt_of_not_ge hlt) self

theorem refill_step {a : Act} (h : Agree m thr φ) (other : ∀ u, u ≠ t → thr' u = thr u) (hp : thr t = .refill i)
    (hs : readdir m (.refill i) a = some (m', thr' t)) : Keeps m thr φ t m' thr' := by
  have hslot : (thr t).slot = some i := by rw [hp]; rfl
  obtain ⟨⟨st, hφ⟩, hge, hopen⟩ : (∃ st, φ i = .live st) ∧ _ := by
    have := h.seen t
    rwa [hp] at this
  have hrep := h.rep i
  rw [hφ] at hrep
  obtain ⟨hin, hfd, f, b, c, hf, hdir, hl⟩ := hrep
  generalize self : thr' t = x at hs
  cases a with
  | getdentsFails e =>
    simp only [readdir] at hs
    split at hs
    · cases hs
      exact h.finish other hslot hφ (fun st => { st.answer none with failed := true }) (fun _ => rfl) rfl .refl rfl self
        ⟨hin, hfd, f, b, c, hf, hdir, hl.fails hge⟩
    · cases hs
  | getdents n =>
    simp only [readdir] at hs
    obtain ⟨⟨bytes, f'⟩, hg, hs⟩ := Option.map_eq_some_iff.1 hs
    rw [hfd] at hg hs
    rw [hf] at hg
    have helse : Elsewhere φ i m ((m.set i (·.write bytes)).setFile st.fd (some f')) :=
      (Elsewhere.set _).trans (.setFile (h.own (by rw [hφ]; rfl)) _)
    simp only at hs
    split at hs
    · rename_i hlen
      obtain rfl : bytes = [] := List.length_eq_zero_iff.1 (by omega)
      obtain ⟨rfl, hend⟩ := File.getdents_nil hg
      cases hs
      refine h.finish other hslot hφ (·.answer none) (fun _ => rfl) rfl helse rfl self ?_
      simp only [Mem.setFile_dirs, Mem.set_dirs]
      exact ⟨hin, hfd, f', b, c, Mem.setFile_fds .., hdir, hl.ends hge hend⟩
    · rename_i hlen
      cases hs
      refine h.hand_out other hslot hφ (helse.trans (.set _)) rfl ?_ ?_ (Mem.setFile_fds ..)
        ((File.getdents_some hg).1.trans hdir) (b := f.pos) (c := f.pos) ?_ ?_ self
      all_goals simp only [Mem.set_dirs, Mem.setFile_dirs]
      · exact hin
      · exact hfd
      · exact hl.refill hge hopen hg
      · omega
  | _ => cases hs

theorem readdir_step {a : Act} (h : Agree m thr φ) (other : ∀ u, u ≠ t → thr' u = thr u)
    (hs : readdir m (thr t) a = some (m', thr' t)) : Keeps m thr φ t m' thr' := by
  cases hp : thr t with
  | read i =>
    rw [hp] at hs
    cases a with
    | go => exact h.read_step other hp hs
    | _ => cases hs
  | refill i =>
    rw [hp] at hs
    exact h.refill_step other hp hs
  | _ =>
    rw [hp] at hs
    cases hs

/-! ## `closedir` -/

theorem test_step (h : Agree m thr φ) (other : ∀ u, u ≠ t → thr' u = thr u) (hp : thr t = .test i)
    (hs : closedir m (.test i) .go = some (m', thr' t)) : Keeps m thr φ t m' thr' := by
  have hslot : (thr t).slot = some i := by rw [hp]; rfl
  have hphase : (thr t).phase = none := by rw [hp]; rfl
  generalize self : thr' t = f at hs
  simp only [closedir] at hs
  split at hs
  · cases hs
    exact ⟨φ, h.quiet self other hphase rfl (fun j hj => by cases hj) trivial, .inl rfl⟩
  · rename_i hu
    cases hs
    refine ⟨φ, h.quiet self other hphase rfl ?_ (h.live_of hslot hphase (by simpa using hu)), .inl rfl⟩
    rintro j ⟨⟩
    exact h.alone hslot

/-- The stream is no longer open. -/
theorem shut (h : Agree m thr φ) (other : ∀ u, u ≠ t → thr' u = thr u) (hp : thr t = .loadFd i)
    (self : thr' t = .closing i (m.dirs i).fd) :
    Agree { m with streams := m.streams.filter (·.slot ≠ i) } thr' (Function.update φ i (.shut (m.dirs i).fd)) := by
  obtain ⟨st, hφ⟩ : ∃ st, φ i = .live st := by
    have := h.seen t
    rwa [hp] at this
  have hrep := h.rep i
  rw [hφ] at hrep
  obtain ⟨-, hfd, f, -, -, hf, -, -⟩ := hrep
  refine h.moves (.shut (m.dirs i).fd) self other (by rw [hp]; rfl) (.inl rfl) trivial ⟨f, by rw [hfd]; exact hf⟩ ?_ ?_
    .drop
  · rintro fd' ⟨⟩
    exact h.own (by rw [hφ, hfd]; rfl)
  · rw [List.filter_filter]
    refine List.filter_eq_nil_iff.2 ?_
    intro st' _
    simp

theorem closed (h : Agree m thr φ) (other : ∀ u, u ≠ t → thr' u = thr u) {fd rc : Int} (hp : thr t = .closing i fd)
    (self : thr' t = .clear i rc 0) :
    Elsewhere φ i m (m.setFile fd none) ∧ Agree (m.setFile fd none) thr' (Function.update φ i (.clear 0)) := by
  have hφ : φ i = .shut fd := h.phase t i _ (by rw [hp]; rfl)
  have helse : Elsewhere φ i m (m.setFile fd none) := .setFile (h.own (by rw [hφ]; rfl)) _
  refine ⟨helse, h.moves (.clear 0) self other (by rw [hp]; rfl)
    (.inl rfl) trivial (fun h0 => absurd rfl h0) ?_ ?_ helse⟩
  · intro fd' hfd
    cases hfd
  · exact h.no_streams (by rw [hφ]; rfl)

/-- The first store of `closedir` frees the slot and no other takes that back. -/
theorem closedir_stores_in_use {n : Nat} {g : DIR → DIR} (hg : closedir_stores[n]? = some g) {d : DIR}
    (hd : n ≠ 0 → d.in_use = false) : (g d).in_use = false := by
  match n, hg with
  | 0, hg => cases hg; rfl
  | 1, hg => cases hg; exact hd (by decide)
  | 2, hg => cases hg; exact hd (by decide)
  | 3, hg => cases hg; exact hd (by decide)
  | 4, hg => cases hg; exact hd (by decide)
  | n + 5, hg => cases hg

/-- A store of `closedir`; after the last one the slot is free. -/
theorem clear_store (h : Agree m thr φ) (other : ∀ u, u ≠ t → thr' u = thr u) {rc : Int} {n : Nat}
    (hp : thr t = .clear i rc n) {g : DIR → DIR} (hg : closedir_stores[n]? = some g)
    (self : thr' t = .clear i rc (n + 1)) : Keeps m thr φ t (m.set i g) thr' := by
  have hn : n < closedir_stores.length := (List.getElem?_eq_some_iff.1 hg).1
  have hslot : (thr t).slot = some i := by
    rw [hp]
    exact if_pos hn
  have hφ : φ i = .clear n := h.phase t i _ (by rw [hp]; exact if_pos hn)
  have hrep := h.rep i
  rw [hφ] at hrep
  have hfree : ((m.set i g).dirs i).in_use = false := by
    rw [Mem.set_dirs]
    exact closedir_stores_in_use hg hrep
  have hnone : m.streams.filter (·.slot = i) = [] := h.no_streams (by rw [hφ]; rfl)
  by_cases hlast : n + 1 < closedir_stores.length
  · refine ⟨_, h.moves (.clear (n + 1)) self other hslot (.inl (if_pos hlast)) trivial (fun _ => hfree) ?_ hnone
      (.set _), .inr ⟨i, hslot, .set _⟩⟩
    intro fd' hfd
    cases hfd
  · refine ⟨_, h.moves .free self other hslot (.inr ⟨if_neg hlast, trivial, .inl (if_neg hlast)⟩) trivial hfree ?_ hnone
      (.set _), .inr ⟨i, hslot, .set _⟩⟩
    intro fd' hfd
    cases hfd

theorem cleared (h : Agree m thr φ) (other : ∀ u, u ≠ t → thr' u = thr u) {rc : Int} {n : Nat}
    (hp : thr t = .clear i rc n) (hn : closedir_stores[n]? = none) {r : Result} (self : thr' t = .done r) :
    Agree m thr' φ := by
  have hlen : ¬ n < closedir_stores.length := Nat.not_lt.2 (List.getElem?_eq_none_iff.1 hn)
  refine h.quiet self other ?_ rfl (fun j hj => by cases hj) trivial
  rw [hp]
  exact if_neg hlen

theorem closedir_step {a : Act} (h : Agree m thr φ) (other : ∀ u, u ≠ t → thr' u = thr u)
    (hs : closedir m (thr t) a = some (m', thr' t)) : Keeps m thr φ t m' thr' := by
  cases hp : thr t with
  | test i =>
    rw [hp] at hs
    cases a with
    | go => exact h.test_step other hp hs
    | _ => cases hs
  | loadFd i =>
    rw [hp] at hs
    cases a with
    | go =>
      generalize self : thr' t = f at hs
      cases hs
      exact ⟨_, h.shut other hp self, .inr ⟨i, by rw [hp]; rfl, .drop⟩⟩
    | _ => cases hs
  | closing i fd =>
    rw [hp] at hs
    cases a with
    | closes rc =>
      generalize self : thr' t = f at hs
      cases hs
      obtain ⟨helse, hagree⟩ := h.closed other hp self
      exact ⟨_, hagree, .inr ⟨i, by rw [hp]; rfl, helse⟩⟩
    | _ => cases hs
  | clear i rc n =>
    rw [hp] at hs
    cases a with
    | go =>
      generalize self : thr' t = f at hs
      simp only [closedir] at hs
      split at hs
      · rename_i g hg
        cases hs
        exact h.clear_store other hp hg self
      · rename_i hn
        cases hs
        exact ⟨_, h.cleared other hp hn self, .inl rfl⟩
    | _ => cases hs
  | _ =>
    rw [hp] at hs
    cases hs

/-! ## All steps -/

theorem enter_step {a : Act} (h : Agree m thr φ) (other : ∀ u, u ≠ t → thr' u = thr u)
    (hx : ∀ i, begins m (thr t) a = some i → ∀ u, u ≠ t → (thr u).slot ≠ some i)
    (hs : enter (thr t) a = some (thr' t)) : Agree m thr' φ := by
  unfold enter at hs
  split at hs
  · rename_i hrest
    have hphase : (thr t).phase = none := by
      cases hp : thr t <;> simp [hp, Frame.resting] at hrest <;> rfl
    generalize self : thr' t = f at hs
    split at hs
    · cases hs
      exact h.quiet self other hphase rfl (fun j hj => by cases hj) trivial
    · cases hs
      exact h.quiet self other hphase rfl (fun j hj => by cases hj) trivial
    · rename_i i
      cases hs
      refine h.quiet self other hphase rfl ?_ trivial
      rintro j ⟨⟩
      exact hx i rfl
    · cases hs
      exact h.quiet self other hphase rfl (fun j hj => by cases hj) trivial
    · rename_i i
      cases hs
      refine h.quiet self other hphase rfl ?_ trivial
      rintro j ⟨⟩
      exact hx i rfl
    · cases hs
  · cases hs

theorem move_step {a : Act} (h : Agree m thr φ) (other : ∀ u, u ≠ t → thr' u = thr u)
    (hx : ∀ i, begins m (thr t) a = some i → ∀ u, u ≠ t → (thr u).slot ≠ some i)
    (hs : move m (thr t) a = some (m', thr' t)) : Keeps m thr φ t m' thr' := by
  unfold move at hs
  simp only [Option.or_eq_some_iff] at hs
  obtain hs | ⟨-, hs | ⟨-, hs | ⟨-, hs⟩⟩⟩ := hs
  · obtain ⟨f, hf, hs⟩ := Option.map_eq_some_iff.1 hs
    cases hs
    exact ⟨φ, h.enter_step other hx hf, .inl rfl⟩
  · exact h.opendir_step other hx hs
  · exact h.readdir_step other hs
  · exact h.closedir_step other hs

end Agree

section
variable {T : Type} [DecidableEq T]

/-- In a run in which nobody begins to work on a slot that another call works
on, the slots are in order. -/
theorem run_agree {s : Sys T} (h : Run step exclusive start s) : ∃ φ, Agree s.mem s.thr φ := by
  refine h.inv (fun s => ∃ φ, Agree s.mem s.thr φ) ⟨_, agree_start⟩ ?_
  rintro s ⟨t, a⟩ s' ⟨φ, hφ⟩ hx hs
  obtain ⟨φ', hφ', -⟩ := hφ.move_step (fun u hu => Conf.step_other hs hu) hx (Conf.step_self hs)
  exact ⟨φ', hφ'⟩

end

end LibNeoos.Dirent
