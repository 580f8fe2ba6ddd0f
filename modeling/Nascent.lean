import Nascent.Lib.Linked
import Nascent.Lib.Bytes
import Nascent.Lib.Memory
import Nascent.Lib.Strings
import Nascent.Lib.Runs
import Nascent.Lib.Radix
import Nascent.Lib.Lines
import Nascent.Lib.Forest
import Nascent.Lib.Count
import Nascent.Lib.Numeral
import Nascent.Lib.Words
import Nascent.Lib.Tiling
import Nascent.Lib.Chunks
import Nascent.Lib.Pool
import Nascent.Asm.Machine
import Nascent.Asm.Stubs
import Nascent.Asm.Switch
import Nascent.Page.Model
import Nascent.Page.Address
import Nascent.Page.FreeList
import Nascent.Page.Boot
import Nascent.Page.Alloc
import Nascent.Page.Pointers
import Nascent.Page.Indices
import Nascent.Virmem.Model
import Nascent.Virmem.Tables
import Nascent.Virmem.Write
import Nascent.Virmem.Map
import Nascent.Virmem.DirectMap
import Nascent.Virmem.Account
import Nascent.Virmem.Mapping
import Nascent.Virmem.Cost
import Nascent.Virmem.Teardown
import Nascent.Virmem.Regain
import Nascent.Virmem.Release
import Nascent.Virmem.Kernel
import Nascent.Cow.Model
import Nascent.Cow.Exact
import Nascent.Cow.Operations
import Nascent.Cow.Eager
import Nascent.Cow.Simulation
import Nascent.Cow.Isolation
import Nascent.Cow.Overmap
import Nascent.Sched.Model
import Nascent.Sched.Fields
import Nascent.Sched.Queue
import Nascent.Sched.Orderly
import Nascent.Sched.Actions
import Nascent.Sched.Links
import Nascent.Sched.Refine
import Nascent.Sched.Boot
import Nascent.Sched.Lists
import Nascent.Sched.Sleep
import Nascent.Sched.Kin
import Nascent.Sched.Recycling
import Nascent.Sched.FreePcbs
import Nascent.Sched.Children
import Nascent.Sched.Wakeup
import Nascent.Sched.Orphans
import Nascent.Sched.Rotation
import Nascent.Tarfs.Model
import Nascent.Tarfs.Archive
import Nascent.Tarfs.Files
import Nascent.Tarfs.Directory
import Nascent.Tarfs.Opens
import Nascent.Tarfs.Copies
import Nascent.Tarfs.Listing
import Nascent.Shell.Script
import Nascent.Tarfs.Paths
import Nascent.Tarfs.Dots
import Nascent.Tarfs.Climb
import Nascent.Tarfs.Cwd
import Nascent.Fault.Lazy
import Nascent.Fault.Inherit
import Nascent.Fault.Present
import Nascent.Fault.Fork
import Nascent.Fault.Loads
import Nascent.Lib.Ring
import Nascent.Malloc.Model
import Nascent.Malloc.Blocks
import Nascent.Malloc.Free
import Nascent.Malloc.Search
import Nascent.Malloc.Sound
import Nascent.Malloc.Refused
import Nascent.Malloc.Pages
import Nascent.Proc.Model
import Nascent.Proc.Fork
import Nascent.Proc.Vmas
import Nascent.Exec.Args
import Nascent.Exec.Model
import Nascent.Exec.Walks
import Nascent.Exec.Segment
import Nascent.Exec.Overlap
import Nascent.Exec.Frames
import Nascent.Exec.Intact
import Nascent.Exec.Stack
import Nascent.Proc.Life
import Nascent.Exec.AllOrNothing
import Nascent.Shell.Env
import Nascent.Shell.Words
import Nascent.Console.Model
import Nascent.Console.Numbers
import Nascent.Console.Parse
import Nascent.Console.Batch
import Nascent.Console.Page
import Nascent.Console.Terminal
import Nascent.Console.Pending
import Nascent.Console.Keyboard
import Nascent.Disk.Ahci
import Nascent.Lib.Turns
import Nascent.Sched.Turns
import Nascent.Sched.Readers
import Nascent.Asm.Syscall
import Nascent.Asm.Gates
import Nascent.Asm.Pic
import Nascent.Asm.Fork
import Nascent.Asm.Twice
import Nascent.Sched.Ps
import Nascent.Virmem.Start
import Nascent.Disk.Pci
import Nascent.Console.Status
import Nascent.Console.Format
import Nascent.Shell.Programs
import Nascent.Shell.Commands
