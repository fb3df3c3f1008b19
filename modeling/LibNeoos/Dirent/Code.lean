import LibNeoos.Errno
import LibNeoos.Lib.Threads
import Mathlib.Data.Fin.Basic
/-!
# Directory streams

`opendir`, `readdir` and `closedir`, one operation at a time, and the system of
the threads that call them. Each test of `in_use` and each store to a stream by
`opendir` and `closedir` is a step of its own, and so is each system call;
`readdir` works on its stream in one step up to its system call and one from
there on.

Of the kernel the model has the open files: a directory's records, and how many
of them `getdents` has handed out. A label says what a system call answers. For
the properties the memory also has the streams that were opened and not closed
since, each with the descriptor and the first batch its `opendir` got and what
`readdir` has returned for it; no step reads that.
-/

namespace LibNeoos.Dirent

open Lib

abbrev DIRENT_BUF_SIZE : Nat := 512
abbrev MAX_OPEN_DIRS : Nat := 4

abbrev Slot : Type := Fin MAX_OPEN_DIRS

/-! ## Records -/

/-- `((struct dirent *)(buf + at))->d_reclen`. -/
def d_reclen (buf : List UInt8) (offset : Nat) : Nat :=
  (buf.getD (offset + 16) 0).toNat + 256 * (buf.getD (offset + 17) 0).toNat

/-- A record as `getdents` writes it: its `d_reclen` is its length. -/
structure Record where
  bytes : List UInt8
  long : 18 ≤ bytes.length
  reclen : d_reclen bytes 0 = bytes.length
  deriving DecidableEq, Repr

/-- An open directory: its records, and how many have been handed out. -/
structure File where
  dir : List Record
  pos : Nat
  deriving DecidableEq, Repr

/-- `getdents` hands out the next `n` records; none only at the end of the
directory, and no more than fit in the buffer. -/
def File.getdents (f : File) (n : Nat) : Option (List UInt8 × File) :=
  let bytes := (((f.dir.drop f.pos).take n).map Record.bytes).flatten
  if f.pos + n ≤ f.dir.length ∧ (n = 0 → f.pos = f.dir.length) ∧ bytes.length ≤ DIRENT_BUF_SIZE then
    some (bytes, { f with pos := f.pos + n })
  else none

/-! ## Memory -/

structure DIR where
  in_use : Bool := false
  fd : Int := 0
  buf : List UInt8 := List.replicate DIRENT_BUF_SIZE 0
  valid : Nat := 0
  next : Nat := 0
  at_end : Bool := false
  deriving DecidableEq, Repr

/-- The kernel writes to the buffer. -/
def DIR.write (d : DIR) (bytes : List UInt8) : DIR := { d with buf := bytes ++ d.buf.drop bytes.length }

/-- The record at `next`, and the stream behind it. -/
def DIR.handOut (d : DIR) : List UInt8 × DIR :=
  ((d.buf.drop d.next).take (d_reclen d.buf d.next), { d with next := d.next + d_reclen d.buf d.next })

/-- The stores of `opendir`. -/
def opendir_stores (fd : Int) (rc : Nat) : List (DIR → DIR) :=
  [({ · with in_use := true }), ({ · with fd := fd }), ({ · with valid := rc }), ({ · with next := 0 }),
    ({ · with at_end := rc == 0 })]

/-- The stores of `closedir`. -/
def closedir_stores : List (DIR → DIR) :=
  [({ · with in_use := false }), ({ · with fd := -1 }), ({ · with valid := 0 }), ({ · with next := 0 }),
    ({ · with at_end := false })]

/-- A stream that `opendir` returned: in which slot, the descriptor, the records
of the directory and the first batch of that call, what `readdir` has returned
since, and whether it met an error of `getdents`. -/
structure Stream where
  slot : Slot
  fd : Int
  dir : List Record
  first : List UInt8
  log : List (Option (List UInt8)) := []
  failed : Bool := false
  deriving DecidableEq, Repr

structure Mem where
  dirs : Slot → DIR := fun _ => {}
  fds : Int → Option File := fun _ => none
  streams : List Stream := []

def Mem.set (m : Mem) (i : Slot) (f : DIR → DIR) : Mem := { m with dirs := Function.update m.dirs i (f (m.dirs i)) }

def Mem.setFile (m : Mem) (fd : Int) (f : Option File) : Mem := { m with fds := Function.update m.fds fd f }

/-- Something happens to the stream in slot `i`. -/
def Mem.onStream (m : Mem) (i : Slot) (f : Stream → Stream) : Mem :=
  { m with streams := m.streams.map fun st => if st.slot = i then f st else st }

@[simp] theorem Mem.set_dirs (m : Mem) (i : Slot) (f : DIR → DIR) : (m.set i f).dirs i = f (m.dirs i) :=
  Function.update_self ..

@[simp] theorem Mem.setFile_fds (m : Mem) (fd : Int) (f : Option File) : (m.setFile fd f).fds fd = f :=
  Function.update_self ..

@[simp] theorem Mem.setFile_dirs (m : Mem) (fd : Int) (f : Option File) : (m.setFile fd f).dirs = m.dirs := rfl

/-- `readdir` returns `e`. -/
def Stream.answer (st : Stream) (e : Option (List UInt8)) : Stream := { st with log := st.log ++ [e] }

/-! ## Threads -/

/-- What a call returned. -/
inductive Result where
  | opened (d : Option Slot)
  | read (e : Option (List UInt8))
  | closed (rc : Int)
  deriving DecidableEq, Repr

/-- Where a thread is. `done` is back in the program's code with the result of
its last call. From `scan` to `fill` are the points of `opendir`: the loop, the
two system calls, the `close` of a descriptor that is no directory, and the
stores, `n` of which are done. `read` and `refill` are those of `readdir`, the
others those of `closedir`. The records and the bytes in `first` and `fill` are
what the kernel gave this call; of these the code has only the number of bytes. -/
inductive Frame where
  | idle
  | done (r : Result)
  | scan (i : Nat)
  | opening (i : Slot)
  | first (i : Slot) (fd : Int) (dir : List Record)
  | reject (i : Slot) (fd : Int)
  | fill (i : Slot) (fd : Int) (dir : List Record) (first : List UInt8) (n : Nat)
  | read (i : Slot)
  | refill (i : Slot)
  | test (i : Slot)
  | loadFd (i : Slot)
  | closing (i : Slot) (fd : Int)
  | clear (i : Slot) (rc : Int) (n : Nat)
  deriving DecidableEq, Repr

/-- A step: the program calls, the next operation, and what a system call
answers. -/
inductive Act where
  | opendir
  | readdir (d : Option Slot)
  | closedir (d : Option Slot)
  | go
  | openFails (e : Int)
  | opens (fd : Int) (dir : List Record)
  | getdentsFails (e : Int)
  | getdents (n : Nat)
  | closes (rc : Int)
  deriving DecidableEq

/-- Between two calls. -/
def Frame.resting : Frame → Bool
  | .idle => true
  | .done _ => true
  | _ => false

/-- The program calls one of the three; a pointer argument may be null. -/
def enter (p : Frame) (a : Act) : Option Frame :=
  if p.resting then
    match a with
    | .opendir => some (.scan 0)
    | .readdir none => some (.done (.read none))
    | .readdir (some i) => some (.read i)
    | .closedir none => some (.done (.closed (-EBADF)))
    | .closedir (some i) => some (.test i)
    | _ => none
  else none

def opendir (m : Mem) (p : Frame) (a : Act) : Option (Mem × Frame) :=
  match p, a with
  | .scan i, .go =>
    if h : i < MAX_OPEN_DIRS then
      if !(m.dirs ⟨i, h⟩).in_use then some (m, .opening ⟨i, h⟩) else some (m, .scan (i + 1))
    else some (m, .done (.opened none))
  | .opening _, .openFails e => if e < 0 then some (m, .done (.opened none)) else none
  | .opening i, .opens fd dir =>
    if 0 ≤ fd ∧ m.fds fd = none then some (m.setFile fd (some ⟨dir, 0⟩), .first i fd dir) else none
  | .first i fd _, .getdentsFails e => if e < 0 then some (m, .reject i fd) else none
  | .first i fd dir, .getdents n =>
    ((m.fds fd).bind (·.getdents n)).map fun r =>
      ((m.set i (·.write r.1)).setFile fd (some r.2), .fill i fd dir r.1 0)
  | .reject _ fd, .closes _ => some (m.setFile fd none, .done (.opened none))
  | .fill i fd dir first n, .go =>
    match (opendir_stores fd first.length)[n]? with
    | some f => some (m.set i f, .fill i fd dir first (n + 1))
    | none =>
      some ({ m with streams := m.streams ++ [{ slot := i, fd := fd, dir := dir, first := first }] },
        .done (.opened (some i)))
  | _, _ => none

def readdir (m : Mem) (p : Frame) (a : Act) : Option (Mem × Frame) :=
  match p, a with
  | .read i, .go =>
    let d := m.dirs i
    if !d.in_use then some (m, .done (.read none))
    else if d.next ≥ d.valid then
      if d.at_end then some (m.onStream i (·.answer none), .done (.read none)) else some (m, .refill i)
    else some ((m.set i (·.handOut.2)).onStream i (·.answer d.handOut.1), .done (.read d.handOut.1))
  | .refill i, .getdentsFails e =>
    if e < 0 then
      some ((m.set i ({ · with at_end := true })).onStream i fun st => { st.answer none with failed := true },
        .done (.read none))
    else none
  | .refill i, .getdents n =>
    ((m.fds (m.dirs i).fd).bind (·.getdents n)).map fun r =>
      let m := (m.set i (·.write r.1)).setFile (m.dirs i).fd (some r.2)
      if r.1.length ≤ 0 then ((m.set i ({ · with at_end := true })).onStream i (·.answer none), .done (.read none))
      else
        let m := m.set i ({ · with valid := r.1.length, next := 0 })
        let d := m.dirs i
        ((m.set i (·.handOut.2)).onStream i (·.answer d.handOut.1), .done (.read d.handOut.1))
  | _, _ => none

def closedir (m : Mem) (p : Frame) (a : Act) : Option (Mem × Frame) :=
  match p, a with
  | .test i, .go => if !(m.dirs i).in_use then some (m, .done (.closed (-EBADF))) else some (m, .loadFd i)
  -- from here on the stream counts as closed
  | .loadFd i, .go => some ({ m with streams := m.streams.filter (·.slot ≠ i) }, .closing i (m.dirs i).fd)
  | .closing i fd, .closes rc => some (m.setFile fd none, .clear i rc 0)
  | .clear i rc n, .go =>
    match closedir_stores[n]? with
    | some f => some (m.set i f, .clear i rc (n + 1))
    | none => some (m, .done (.closed rc))
  | _, _ => none

/-- One step of a thread. -/
def move (m : Mem) (p : Frame) (a : Act) : Option (Mem × Frame) :=
  ((enter p a).map (m, ·)).or ((opendir m p a).or ((readdir m p a).or (closedir m p a)))

abbrev Sys (T : Type) : Type := Conf T Mem Frame

section
variable {T : Type} [DecidableEq T]

abbrev step : Sys T → T × Act → Option (Sys T) := Conf.step fun _ => move

/-- No stream is open and no thread is in a call. -/
def start : Sys T := ⟨{}, fun _ => .idle⟩

end

/-- The slot a call works on: what `opendir` has picked, or what the caller passed;
`closedir` is done with it after its last store. -/
def Frame.slot : Frame → Option Slot
  | .opening i => some i
  | .first i _ _ => some i
  | .reject i _ => some i
  | .fill i _ _ _ _ => some i
  | .read i => some i
  | .refill i => some i
  | .test i => some i
  | .loadFd i => some i
  | .closing i _ => some i
  | .clear i _ n => if n < closedir_stores.length then some i else none
  | _ => none

/-- The slot a step begins to work on: `opendir` finds it free, or the caller
passes it. -/
def begins (m : Mem) (p : Frame) : Act → Option Slot
  | .readdir d => d
  | .closedir d => d
  | .go =>
    match p with
    | .scan i => if h : i < MAX_OPEN_DIRS then if !(m.dirs ⟨i, h⟩).in_use then some ⟨i, h⟩ else none else none
    | _ => none
  | _ => none

/-- Nobody begins to work on a slot that another thread's call works on. -/
def exclusive {T : Type} (s : Sys T) (l : T × Act) (_ : Sys T) : Prop :=
  ∀ i, begins s.mem (s.thr l.1) l.2 = some i → ∀ u, u ≠ l.1 → (s.thr u).slot ≠ some i

end LibNeoos.Dirent
