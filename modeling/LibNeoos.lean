import LibNeoos.Lib.Runs
import LibNeoos.Lib.Mailbox
import LibNeoos.Lib.Linked
import LibNeoos.Lib.Phased
import LibNeoos.Mpi.Pool
import LibNeoos.Mpi.Match
import LibNeoos.Mpi.Api
import LibNeoos.Mpi.World
import LibNeoos.Mpi.Transport
import LibNeoos.Mpi.Sends
import LibNeoos.Mpi.Startup
import LibNeoos.Mpi.Delivery
import LibNeoos.Mpi.UserRecv
import LibNeoos.Mpi.Contract
import LibNeoos.Mpi.Calls
import LibNeoos.Mpi.Plan
import LibNeoos.Mpi.Simulation
import LibNeoos.Mpi.Refinement
import LibNeoos.Mpi.Ordinals
import LibNeoos.Mpi.Collectives
import LibNeoos.Mpi.Barrier
import LibNeoos.Mpi.Isolation
import LibNeoos.Mpi.Progress
import LibNeoos.Errno
import LibNeoos.Lib.Threads
import LibNeoos.Pthread.Mutex
import LibNeoos.Pthread.Cond
import LibNeoos.Pthread.Wakeup
import LibNeoos.Semaphore.Wakeup
import LibNeoos.Lib.Owners
import LibNeoos.Thread.Slots
import LibNeoos.Pthread.Table
import LibNeoos.Pthread.Invariant
import LibNeoos.Pthread.Join
import LibNeoos.Lib.Align
import LibNeoos.Start.Tls
import LibNeoos.Mpi.Residue
import LibNeoos.Mpi.Retry
import LibNeoos.Lib.Rounds
import LibNeoos.Mpi.Quiet
import LibNeoos.Pthread.Conserve
import LibNeoos.Semaphore.Range
import LibNeoos.Mpi.Copies
import LibNeoos.Mpi.Init
import LibNeoos.Mpi.Truncate
import LibNeoos.Semaphore.Timed
import LibNeoos.Mpi.Process
import LibNeoos.Dirent.Code
import LibNeoos.Lib.Packed
import LibNeoos.Dirent.Listing
import LibNeoos.Dirent.Slots
import LibNeoos.Dirent.Steps
import LibNeoos.Dirent.Streams
import LibNeoos.Cstring.Compare
import LibNeoos.Lib.Numeral
import LibNeoos.Cstring.Move
import LibNeoos.Start.Block
import LibNeoos.Sys.Wait
import LibNeoos.Start.Entry
import LibNeoos.Mpi.Arguments
import LibNeoos.Inet.Parse
import LibNeoos.Lib.Cursor
import LibNeoos.Inet.RoundTrip
import LibNeoos.Stdio.Buffer
import LibNeoos.Stdio.Printf
import LibNeoos.Mpi.Launch
import LibNeoos.Lib.Linear
import LibNeoos.Semaphore.Atomic
import LibNeoos.Pthread.Atomic
import LibNeoos.Mpi.Channel
import LibNeoos.Mpi.Completion
import LibNeoos.Lib.Terminate
import LibNeoos.Mpi.Terminate
import LibNeoos.Lib.Buffer
import LibNeoos.Mpi.Wire
import LibNeoos.Mpi.Job
import LibNeoos.Start.Isolation
import LibNeoos.Mpi.Receive
