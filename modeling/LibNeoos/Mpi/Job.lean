import LibNeoos.Mpi.Launch
import LibNeoos.Mpi.Process
/-!
# A job from start to end

`MPI_Launch` and the `MPI_Init` of the processes it starts are two programs that meet in
an argument vector: the one writes two numbers into it, the other reads them and takes
them out again (`launched_job_starts`). In its life a process may begin and end several
sessions, with failures in between; it holds a socket in a session and none outside
(`sockets_conserved`).
-/

namespace LibNeoos.Mpi

open LibNeoos.Lib

/-! ## From the launcher to the ranks -/

/-- The vector `MPI_Launch` makes for a process. -/
def LaunchArgv (path : List UInt8) (argv : Argv) : Prop :=
  ∃ rank_str size_str, argv = [some path, some rank_str, some size_str, none]

theorem launch_loop_argv {path size_str : List UInt8} {rank_str : Nat → List UInt8} {spawnv : Nat → Int} {n r : Nat}
    {started : List Argv} {out_pids : Option (List Int)} {l : Launched}
    (h : launch_loop path size_str rank_str spawnv n r started out_pids = some l)
    (hs : ∀ argv ∈ started, LaunchArgv path argv) : ∀ argv ∈ l.started, LaunchArgv path argv := by
  induction n generalizing r started out_pids with
  | zero =>
    cases h
    exact hs
  | succ n ih =>
    obtain ⟨rank_str', -, h⟩ := Option.bind_eq_some_iff.1 h
    split at h
    · cases h
      exact hs
    · obtain ⟨out', -, h⟩ := Option.bind_eq_some_iff.1 h
      apply ih h
      intro argv hargv
      rcases List.mem_append.1 hargv with hargv | hargv
      · exact hs argv hargv
      · rw [List.mem_singleton.1 hargv]
        exact ⟨rank_str', size_str, rfl⟩

theorem MPI_Launch_argv {path : List UInt8} {size : Int} {out_pids : Option (List Int)} {frame : LaunchFrame}
    {spawnv : Nat → Int} {l : Launched} (h : MPI_Launch path size out_pids frame spawnv = some l) :
    ∀ argv ∈ l.started, LaunchArgv path argv := by
  unfold MPI_Launch at h
  split at h
  · cases h
    simp
  · obtain ⟨size_str, -, h⟩ := Option.bind_eq_some_iff.1 h
    exact launch_loop_argv h (by simp)

/-- `MPI_Init` in a process that `MPI_Launch` has started as rank `r`: it reads nothing
outside its arguments, takes the rank and the size from them, and when it succeeds the
program's own arguments are its name alone. -/
theorem MPI_Init_launched {path : List UInt8} {argv : Argv} (hargv : LaunchArgv path argv) {r size : Nat}
    (hparse : parse_rank_args 3 argv = some (.ok ((r : Int), (size : Int)))) (w : Kernel) :
    MPI_Init {} (some 3) (some argv) w ≠ .fault ∧
      ∀ rc g argc' argv', MPI_Init {} (some 3) (some argv) w = .returned rc g argc' argv' →
        g.mpi_rank = r ∧ g.mpi_size = size ∧
          (rc = MPI_SUCCESS → argc' = some 1 ∧ ∃ v, argv' = some v ∧ v[0]? = some (some path) ∧ v[1]? = some none) := by
  obtain ⟨rank_str, size_str, rfl⟩ := hargv
  obtain ⟨v, hshift, -, hzero, hrest⟩ := @shift_spec [some path, some rank_str, some size_str, none] 3 (by decide) rfl
  refine ⟨MPI_Init_defined (by simp [hparse]) hshift, fun rc g argc' argv' h => ?_⟩
  obtain ⟨rc', g', hg', hrank, hsize⟩ := MPI_Init_rank rfl h
  rw [Statics.parse_rank_args, hparse] at hg'
  cases hg'
  refine ⟨hrank, hsize, ?_⟩
  rintro rfl
  obtain ⟨hargc, v', hv', hargv⟩ := MPI_Init_success h
  obtain rfl : v = v' := Option.some.inj (hshift.symm.trans hv')
  exact ⟨hargc, v, hargv, hzero, hrest 1 (by decide) (by decide)⟩

/-- A job of any size the library allows, whatever the stacks hold, whichever `spawnv`
fails and whatever the system calls of the processes return: the launcher stores nothing
outside its buffers, and as many processes start as the size says unless a `spawnv` has
failed. The one started as number `r` becomes rank `r` of that size in its `MPI_Init`,
which reads nothing outside the vector and leaves the program its name as the only
argument. -/
theorem launched_job_starts (path : List UInt8) {size : Nat} (hpos : 1 ≤ size) (hmax : size ≤ MPI_MAX_RANKS)
    {out_pids : Option (List Int)} (hout : ∀ pids ∈ out_pids, size ≤ pids.length) (frame : LaunchFrame)
    (spawnv : Nat → Int) :
    ∃ l, MPI_Launch path size out_pids frame spawnv = some l ∧
      (l.rc = MPI_SUCCESS ∧ l.started.length = size ∨
        l.rc = MPI_ERR_INTERN ∧ l.started.length < size ∧ spawnv l.started.length < 0) ∧
      ∀ (r : Nat) (argv : Argv), l.started[r]? = some argv → ∀ w : Kernel,
        MPI_Init {} (some 3) (some argv) w ≠ .fault ∧
        ∀ rc g argc' argv', MPI_Init {} (some 3) (some argv) w = .returned rc g argc' argv' →
          g.mpi_rank = r ∧ g.mpi_size = size ∧
            (rc = MPI_SUCCESS → argc' = some 1 ∧ ∃ v, argv' = some v ∧ v[0]? = some (some path) ∧
              v[1]? = some none) := by
  obtain ⟨l, hl, hranked, hrc⟩ := MPI_Launch_ranks path hpos hmax hout frame spawnv
  refine ⟨l, hl, hrc, fun r argv hr w => ?_⟩
  exact MPI_Init_launched (MPI_Launch_argv hl argv (List.mem_of_getElem? hr)) (hranked r argv hr) w

/-- Two processes are started, and the second finds that it is rank 1 of 2. -/
theorem launched_job_starts_two :
    ∃ l argv, MPI_Launch [112] 2 none ⟨List.replicate 12 7, fun _ => List.replicate 12 9, rfl, fun _ => rfl⟩
      (fun r => r + 10) =
        some l ∧ l.started[1]? = some argv ∧
      ∀ w rc g argc' argv', MPI_Init {} (some 3) (some argv) w = .returned rc g argc' argv' →
        g.mpi_rank = 1 ∧ g.mpi_size = 2 := by
  have hout : ∀ pids ∈ (none : Option (List Int)), 2 ≤ pids.length := fun _ h => by cases h
  obtain ⟨l, hl, hrc, hinit⟩ := launched_job_starts [112] (show 1 ≤ 2 by decide) (by decide) hout
    ⟨List.replicate 12 7, fun _ => List.replicate 12 9, rfl, fun _ => rfl⟩ (fun r => (r : Int) + 10)
  have hlen : l.started.length = 2 := by
    rcases hrc with ⟨-, h⟩ | ⟨-, -, h⟩
    · exact h
    · omega
  obtain ⟨argv, hargv⟩ : ∃ argv, l.started[1]? = some argv := ⟨_, List.getElem?_eq_getElem (by omega)⟩
  refine ⟨l, argv, hl, hargv, fun w rc g argc' argv' h => ?_⟩
  obtain ⟨hrank, hsize, -⟩ := (hinit 1 argv hargv w).2 rc g argc' argv' h
  exact ⟨hrank, hsize⟩

/-! ## Sockets -/

namespace Process

/-- A process has the socket of its session and no other. -/
structure Sockets (g : Statics) : Prop where
  socks : g.socks = g.socket?.toList
  ready : g.mpi_ready = true ↔ 0 ≤ g.mpi_sock

theorem Sockets.of_none {g : Statics} (hready : g.mpi_ready = false) (hsock : g.mpi_sock < 0) (hsocks : g.socks = []) :
    Sockets g := by
  refine ⟨by simp [Statics.socket?, hsock, hsocks], ?_⟩
  simp only [hready, Bool.false_eq_true, false_iff]
  omega

theorem Sockets.down {g : Statics} (h : Sockets g) (hready : g.mpi_ready = false) : g.mpi_sock < 0 ∧ g.socks = [] := by
  have hneg : g.mpi_sock < 0 := by
    by_contra hge
    have := h.ready.2 (by omega)
    rw [hready] at this
    cases this
  exact ⟨hneg, by simp [h.socks, Statics.socket?, hneg]⟩

theorem Sockets.up {g : Statics} (h : Sockets g) (hready : g.mpi_ready = true) :
    0 ≤ g.mpi_sock ∧ g.socks = [g.mpi_sock] := by
  have hpos := h.ready.1 hready
  exact ⟨hpos, by simp [h.socks, Statics.socket?, show ¬ g.mpi_sock < 0 by omega]⟩

/-- Every way out of `MPI_Init`: it has closed what it has opened, or it is ready. -/
theorem Sockets.init {g g' : Statics} {argc argc' : Option Int} {argv argv' : Option Argv} {w : Kernel} {rc : Int}
    (hs : Sockets g) (h : MPI_Init g argc argv w = .returned rc g' argc' argv') : Sockets g' := by
  unfold MPI_Init at h
  by_cases hr : g.mpi_ready = true
  · rw [if_pos hr] at h
    cases h
    exact hs
  have hdown : g.mpi_ready = false := by simpa using hr
  obtain ⟨hneg, hnil⟩ := hs.down hdown
  rw [if_neg hr] at h
  split at h
  · split at h
    · cases h
    · cases h
      exact hs
    · dsimp only at h
      split at h
      · rename_i hsock
        cases h
        exact .of_none hdown hsock hnil
      · rename_i hsock
        split at h
        · cases h
          exact .of_none hdown (by decide : (-1 : Int) < 0) (by simp [Statics.close, hnil])
        · split at h
          · cases h
          · split at h
            · cases h
              refine ⟨by simp [Statics.socket?, hsock, hnil], ?_⟩
              simp only [true_iff]
              omega
            · cases h
              exact .of_none rfl (by decide : (-1 : Int) < 0) (by simp [Statics.close, hnil])
            · cases h
  · cases h
    exact hs

theorem Sockets.finalize {g : Statics} (hs : Sockets g) : Sockets (MPI_Finalize g).2 := by
  unfold MPI_Finalize
  cases hr : g.mpi_ready with
  | false => simpa using hs
  | true =>
    refine .of_none rfl (by decide : (-1 : Int) < 0) ?_
    simp [Statics.close, (hs.up hr).2]

theorem step_sockets {s s' : State} {a : Act} (hs : Sockets s.g) (h : step s a = some s') : Sockets s'.g := by
  have hpool : ∀ pool, Sockets { s.g with pool := pool } := fun pool => ⟨hs.socks, hs.ready⟩
  cases a with
  | call op =>
    simp only [step] at h
    split at h <;> cases h
    exact hs
  | go =>
    simp only [step] at h
    split at h
    · cases h
      exact hs
    · cases h
      exact ⟨hs.socks, hs.ready⟩
    · split at h <;> cases h <;> exact hpool _
    · cases h
  | sent n =>
    simp only [step] at h
    split at h <;> cases h
    exact hs
  | recvd x =>
    simp only [step] at h
    split at h
    · split at h <;> cases h <;> exact hpool _
    · cases h
  | init argc argv w =>
    simp only [step] at h
    split at h
    · rename_i hi
      cases h
      exact hs.init hi
    · cases h
  | finalize =>
    simp only [step] at h
    split at h
    · cases h
      exact hs.finalize
    · cases h

/-- In every state a process reaches, whatever it calls, whatever arrives and whichever
of its system calls fail: in a session it has one socket open, the one it uses, and
outside a session none. -/
theorem sockets_conserved {ok : State → Act → State → Prop} {s : State} (h : Run step ok start s) :
    s.g.socks = s.g.socket?.toList ∧ (s.g.mpi_ready = true ↔ s.g.socks.length = 1) := by
  have hs : Sockets s.g := by
    refine h.inv (fun s => Sockets s.g) (.of_none rfl (by decide) rfl) ?_
    intro s a s' hs _ hst
    exact step_sockets hs hst
  refine ⟨hs.socks, ?_⟩
  cases hr : s.g.mpi_ready with
  | false => simp [(hs.down hr).2]
  | true => simp [(hs.up hr).2]

/-- An `MPI_Init` whose `bind` fails, one that succeeds, and the end of that session. -/
theorem sockets_conserved_retry :
    (∃ s, Run step any start s ∧ s.session = 1 ∧ (s.g.mpi_ready = true ↔ s.g.socks.length = 1)) ∧
      ∃ s, Run step any start s ∧ (s.session = 1 ∧ s.g.mpi_ready = false) ∧ s.g.socks = s.g.socket?.toList := by
  have hinit : (exec step (fun _ _ => true) start
      [.init (some 3) (some [some [112], some [48], some [49], none]) ⟨4, -98, []⟩, initAlone]).map
        (fun s => decide (s.session = 1)) = some true := by
    decide +kernel
  have hend : (exec step (fun _ _ => true) start
      [.init (some 3) (some [some [112], some [48], some [49], none]) ⟨4, -98, []⟩, initAlone, .finalize]).map
        (fun s => decide (s.session = 1 ∧ s.g.mpi_ready = false)) = some true := by
    decide +kernel
  obtain ⟨s, hr, hs⟩ := exec_reaches hinit fun _ _ _ _ => trivial
  obtain ⟨t, ht, hup⟩ := exec_reaches hend fun _ _ _ _ => trivial
  exact ⟨⟨s, hr, hs, (sockets_conserved hr).2⟩, ⟨t, ht, hup, (sockets_conserved ht).1⟩⟩

end Process

end LibNeoos.Mpi
