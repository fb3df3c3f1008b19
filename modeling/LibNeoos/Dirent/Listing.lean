import LibNeoos.Dirent.Code
import LibNeoos.Lib.Packed
/-!
# One stream and its directory

What an open stream has in its buffer and what it has returned, against the
records of its directory: `b` records come before the batch in the buffer, `c`
have been handed out. Each thing `readdir` can do to a stream keeps `Listing`,
and `Listing.log_eq` reads from it what the calls so far have returned.
-/

namespace LibNeoos.Dirent

open Lib

/-! ## Batches -/

/-- The records in the buffer: those from number `b` on that were fetched. -/
def File.batch (f : File) (b : Nat) : List (List UInt8) := ((f.dir.take f.pos).drop b).map Record.bytes

theorem File.batch_length (f : File) (b : Nat) (h : f.pos ≤ f.dir.length) : (f.batch b).length = f.pos - b := by
  simp [File.batch, h]

theorem File.batch_ne_nil (f : File) (b : Nat) : ∀ r ∈ f.batch b, r ≠ [] := by
  intro r hr hnil
  obtain ⟨x, -, rfl⟩ := List.mem_map.1 hr
  have := x.long
  simp [hnil] at this

theorem File.batch_get (f : File) {b c : Nat} (hb : b ≤ c) (hc : c < f.dir.length)
    (h : c - b < (f.batch b).length) : (f.batch b)[c - b] = f.dir[c].bytes := by
  have hidx : b + (c - b) = c := by omega
  simp [File.batch, hidx]

/-- What `getdents` hands out. -/
theorem File.getdents_some {f f' : File} {n : Nat} {bytes : List UInt8} (h : f.getdents n = some (bytes, f')) :
    f'.dir = f.dir ∧ f'.pos = f.pos + n ∧ f'.pos ≤ f'.dir.length ∧ bytes = (f'.batch f.pos).flatten ∧
      (n = 0 → f.pos = f.dir.length) := by
  unfold File.getdents at h
  simp only at h
  split at h
  · rename_i hok
    obtain ⟨hle, hend, -⟩ := hok
    simp only [Option.some.injEq, Prod.mk.injEq] at h
    obtain ⟨rfl, rfl⟩ := h
    refine ⟨rfl, rfl, hle, ?_, hend⟩
    simp only [File.batch, List.drop_take, Nat.add_sub_cancel_left]
  · cases h

/-- `getdents` hands out nothing only at the end. -/
theorem File.getdents_nil {f f' : File} {n : Nat} (h : f.getdents n = some ([], f')) :
    f' = f ∧ f.pos = f.dir.length := by
  obtain ⟨hdir, hpos, hle, hbytes, hend⟩ := File.getdents_some h
  have hn : n = 0 := by
    by_contra hne
    have hlt := Packed.offset_lt (f'.batch_ne_nil f.pos) (c := 0) (by rw [f'.batch_length f.pos hle]; omega)
    rw [← hbytes] at hlt
    cases hlt
  refine ⟨?_, hend hn⟩
  cases f
  cases f'
  simp_all

/-! ## Reading a record in place -/

theorem d_reclen_record {buf : List UInt8} {offset : Nat} {r : Record}
    (h : (buf.drop offset).take r.bytes.length = r.bytes) : d_reclen buf offset = r.bytes.length := by
  have hget : ∀ k, k < r.bytes.length → buf.getD (offset + k) 0 = r.bytes.getD k 0 := by
    intro k hk
    have hk' := congrArg (fun l => l.getD k 0) h
    simpa [List.getD_eq_getElem?_getD, List.getElem?_take, hk] using hk'
  have hlong := r.long
  rw [← r.reclen, d_reclen, d_reclen, hget 16 (by omega), hget 17 (by omega)]

/-- In front of the rest of a buffer, block `c` of a batch is where its offset says. -/
theorem take_drop_batch {l : List (List UInt8)} {buf : List UInt8} (hbuf : l.flatten <+: buf) {c : Nat}
    (h : c < l.length) : (buf.drop (Packed.offset l c)).take l[c].length = l[c] := by
  obtain ⟨rest, rfl⟩ := hbuf
  have hle : Packed.offset l c + l[c].length ≤ l.flatten.length := by
    have hfit := congrArg List.length (Packed.take_drop_offset h)
    rw [List.length_take, List.length_drop] at hfit
    have := Packed.offset_le l c
    omega
  rw [List.drop_append_of_le_length (by omega), List.take_append_of_le_length (by rw [List.length_drop]; omega)]
  exact Packed.take_drop_offset h

/-! ## The listing -/

/-- The stream `d` has handed out the first `c` records of `f`, and its buffer
holds those from number `b` on. -/
structure Listing (d : DIR) (f : File) (st : Stream) (b c : Nat) : Prop where
  start_le : b ≤ c
  out_le : c ≤ f.pos
  pos_le : f.pos ≤ f.dir.length
  buf : (f.batch b).flatten <+: d.buf
  valid : d.valid = (f.batch b).flatten.length
  next : d.next = Packed.offset (f.batch b) (c - b)
  log : ∃ m, st.log = (f.dir.take c).map (fun r => some r.bytes) ++ List.replicate m none ∧ (m ≠ 0 → d.at_end = true)
  ended : d.at_end = true → c = f.pos ∧ (st.failed = true ∨ f.pos = f.dir.length)
  failed : st.failed = true → d.at_end = true
  fresh : st.log = [] → st.first = (f.batch 0).flatten
  begun : f.pos = 0 → d.at_end = true

namespace Listing
variable {d : DIR} {f f' : File} {st : Stream} {b c n : Nat} {bytes : List UInt8}

/-- The buffer is used up when everything fetched is handed out. -/
theorem next_lt_iff (h : Listing d f st b c) : d.next < d.valid ↔ c < f.pos := by
  have hlen := f.batch_length b h.pos_le
  have hbc := h.start_le
  rw [h.next, h.valid]
  constructor
  · intro hlt
    by_contra hge
    have hall : c - b = (f.batch b).length := by
      have := h.out_le
      omega
    rw [hall, Packed.offset_length] at hlt
    omega
  · intro hlt
    exact Packed.offset_lt (f.batch_ne_nil b) (by omega)

theorem out_le_length (h : Listing d f st b c) : c ≤ f.dir.length := h.out_le.trans h.pos_le

/-- Before the first answer nothing is handed out. -/
theorem out_zero (h : Listing d f st b c) (hlog : st.log = []) : c = 0 := by
  obtain ⟨m, hm, -⟩ := h.log
  rw [hlog] at hm
  have hlen := congrArg List.length hm
  have := h.out_le_length
  simp only [List.length_nil, List.length_append, List.length_map, List.length_take, List.length_replicate] at hlen
  omega

/-- `readdir` hands out the next record of the buffer. -/
theorem handOut (h : Listing d f st b c) (hlt : d.next < d.valid) :
    Listing d.handOut.2 f (st.answer (some d.handOut.1)) b (c + 1) := by
  have hc := h.next_lt_iff.1 hlt
  have hlen := f.batch_length b h.pos_le
  have hbc := h.start_le
  have hi : c - b < (f.batch b).length := by omega
  have hdir : c < f.dir.length := hc.trans_le h.pos_le
  have hblock : (d.buf.drop d.next).take f.dir[c].bytes.length = f.dir[c].bytes := by
    rw [h.next, ← f.batch_get hbc hdir hi]
    exact take_drop_batch h.buf hi
  have hreclen : d_reclen d.buf d.next = f.dir[c].bytes.length := d_reclen_record hblock
  have hout : d.handOut.1 = f.dir[c].bytes := by rw [DIR.handOut, hreclen, hblock]
  have hopen : d.at_end = false := by
    by_contra hend
    have := (h.ended (by simpa using hend)).1
    omega
  refine ⟨by omega, hc, h.pos_le, h.buf, h.valid, ?_, ⟨0, ?_, by simp⟩, ?_, h.failed, ?_, h.begun⟩
  · have hsucc : c + 1 - b = c - b + 1 := by omega
    rw [hsucc, Packed.offset_succ hi, ← h.next, f.batch_get hbc hdir hi, ← hreclen]
    rfl
  · obtain ⟨m, hm, hend⟩ := h.log
    have hm0 : m = 0 := by
      by_contra hne
      rw [hend hne] at hopen
      cases hopen
    rw [Stream.answer, hm, hm0, hout, List.take_succ_eq_append_getElem hdir, List.map_append]
    simp only [List.replicate_zero, List.append_nil, List.map_cons, List.map_nil]
  · intro hend
    exact absurd (hopen.symm.trans hend) (by decide)
  · simp [Stream.answer]

/-- When the buffer is used up, everything fetched is handed out. -/
theorem out_eq (h : Listing d f st b c) (hge : d.valid ≤ d.next) : c = f.pos := by
  have hnot := (not_congr h.next_lt_iff).1 (Nat.not_lt.2 hge)
  have := h.out_le
  omega

theorem log_none (h : Listing d f st b c) :
    ∃ m, (st.answer none).log = (f.dir.take c).map (fun r => some r.bytes) ++ List.replicate m none := by
  obtain ⟨m, hm, -⟩ := h.log
  exact ⟨m + 1, by rw [Stream.answer, hm, List.replicate_succ', List.append_assoc]⟩

/-- At the end `readdir` returns nothing. -/
theorem atEnd (h : Listing d f st b c) (hend : d.at_end = true) : Listing d f (st.answer none) b c := by
  obtain ⟨m, hm⟩ := h.log_none
  exact { h with log := ⟨m, hm, fun _ => hend⟩, fresh := by simp [Stream.answer] }

/-- `getdents` fails. -/
theorem fails (h : Listing d f st b c) (hge : d.valid ≤ d.next) :
    Listing { d with at_end := true } f { st.answer none with failed := true } b c := by
  obtain ⟨m, hm⟩ := h.log_none
  exact { h with
    log := ⟨m, hm, fun _ => rfl⟩
    ended := fun _ => ⟨h.out_eq hge, .inl rfl⟩
    failed := fun _ => rfl
    fresh := by simp [Stream.answer]
    begun := fun _ => rfl }

/-- `getdents` reports the end of the directory. -/
theorem ends (h : Listing d f st b c) (hge : d.valid ≤ d.next) (hend : f.pos = f.dir.length) :
    Listing { d with at_end := true } f (st.answer none) b c := by
  obtain ⟨m, hm⟩ := h.log_none
  exact { h with
    log := ⟨m, hm, fun _ => rfl⟩
    ended := fun _ => ⟨h.out_eq hge, .inr hend⟩
    failed := fun _ => rfl
    fresh := by simp [Stream.answer]
    begun := fun _ => rfl }

/-- `getdents` fills the buffer again. This is not the first batch: a stream
whose first batch was empty is at its end. -/
theorem refill (h : Listing d f st b c) (hge : d.valid ≤ d.next) (hne : d.at_end = false)
    (hg : f.getdents n = some (bytes, f')) :
    Listing { d.write bytes with valid := bytes.length, next := 0 } f' st f.pos f.pos := by
  obtain ⟨hdir, hpos, hle, hbytes, -⟩ := File.getdents_some hg
  have hc := h.out_eq hge
  have hbegun : f.pos ≠ 0 := by
    intro h0
    rw [h.begun h0] at hne
    cases hne
  refine ⟨le_rfl, by omega, hle, ?_, by rw [hbytes], by simp, ?_, ?_, h.failed, ?_, ?_⟩
  · rw [← hbytes]
    exact List.prefix_append _ _
  · rw [hdir, ← hc]
    exact h.log
  · intro hend
    exact absurd (hne.symm.trans hend) (by decide)
  · intro hlog
    exact absurd (hc.symm.trans (h.out_zero hlog)) hbegun
  · intro h0
    omega

/-- The first batch, in a stream that `opendir` has just set up. -/
theorem opened {d₀ : DIR} {i : Slot} {fd : Int} (hp : f.pos ≤ f.dir.length) (hend : f.pos = 0 → f.dir = [])
    (hbuf : (f.batch 0).flatten <+: d₀.buf) :
    Listing ((opendir_stores fd (f.batch 0).flatten.length).foldl (fun d g => g d) d₀) f
      { slot := i, fd := fd, dir := f.dir, first := (f.batch 0).flatten } 0 0 := by
  have hzero : (f.batch 0).flatten.length = 0 → f.pos = 0 := by
    intro h0
    by_contra hne
    have hlt := Packed.offset_lt (f.batch_ne_nil 0) (c := 0) (by rw [f.batch_length 0 hp]; omega)
    rw [Packed.offset_zero, h0] at hlt
    cases hlt
  refine ⟨le_rfl, Nat.zero_le _, hp, hbuf, rfl, rfl, ⟨0, by simp, by simp⟩, ?_, by simp, fun _ => rfl, ?_⟩
  · intro hat
    have h0 := hzero (by simpa [opendir_stores] using hat)
    rw [h0, hend h0]
    simp
  · intro h0
    simp [opendir_stores, File.batch, h0]

end Listing

end LibNeoos.Dirent
