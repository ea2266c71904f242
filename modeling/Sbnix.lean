import Sbnix.Memory.Frames
import Sbnix.Library.Ring
import Sbnix.Library.Run
import Sbnix.Memory.Paging
import Sbnix.Memory.Tables
import Sbnix.Memory.Pool
import Sbnix.Library.Sharing
import Sbnix.Memory.Cow
import Sbnix.Memory.Spaces
import Sbnix.Memory.Fork
import Sbnix.Memory.Mmu
import Sbnix.Memory.Fault
import Sbnix.Memory.EagerCopy
import Sbnix.Memory.Process
import Sbnix.Memory.Calls
import Sbnix.Memory.Lookup
import Sbnix.Memory.Loading
import Sbnix.Memory.Heap
import Sbnix.Memory.ForkedHeap
import Sbnix.Sched.Queue
import Sbnix.Sched.Model
import Sbnix.Sched.Invariant
import Sbnix.Sched.Pids
import Sbnix.Sched.Waiting
import Sbnix.Library.Stack
import Sbnix.Console.Screen
import Sbnix.Console.Print
import Sbnix.Console.Write
import Sbnix.Console.Keyboard
import Sbnix.Context.Switch
import Sbnix.Context.Frames
import Sbnix.Context.Exceptions
import Sbnix.Library.Bytes
import Sbnix.Library.Numerals
import Sbnix.Files.Strings
import Sbnix.Files.Tar
import Sbnix.Memory.Direct
import Sbnix.Memory.Exhausted
import Sbnix.Files.Descriptors
import Sbnix.Files.Inherit
import Sbnix.Files.Counts
import Sbnix.Files.Pipe
import Sbnix.Files.Reading
import Sbnix.Sched.RoundRobin
import Sbnix.Sched.Timer
import Sbnix.Sched.Capacity
import Sbnix.Memory.CowWalk
import Sbnix.Memory.Remap
import Sbnix.Memory.Image
import Sbnix.Files.Open
import Sbnix.Files.Chdir
import Sbnix.Files.Listing
import Sbnix.Libc.Numbers
import Sbnix.Libc.Copies
import Sbnix.Shell.Parse
import Sbnix.Shell.Bounds
import Sbnix.Shell.Path
import Sbnix.Console.Format
import Sbnix.Console.Clock
import Sbnix.Libc.Printf
import Sbnix.Sched.Ps
import Sbnix.Sched.Fairness
import Sbnix.Files.Pipeline
import Sbnix.Console.Strokes
import Sbnix.Libc.Scanf
import Sbnix.Shell.Session
import Sbnix.Shell.Script
import Sbnix.Context.Reading
import Sbnix.Context.Lines
import Sbnix.Memory.Lifetime
import Sbnix.Shell.Directory
import Sbnix.Context.Gates
import Sbnix.Sched.Syscalls
