import Xv6.Lib.Ring
import Xv6.Lib.Bytes
import Xv6.Lib.Run
import Xv6.Lib.Prog
import Xv6.Lib.Redo
import Xv6.Lib.Exact
import Xv6.Lib.Slots
import Xv6.Lib.Wrapping
import Xv6.Lib.Radix
import Xv6.Lib.Loop
import Xv6.Lib.Pool
import Xv6.Lib.Walk
import Xv6.Lib.Extent
import Xv6.Lib.Copy
import Xv6.Lib.Cstring
import Xv6.Param
import Xv6.Bio.Cache
import Xv6.Bio.Coherence
import Xv6.Bio.Sequential
import Xv6.Bio.Quiescent
import Xv6.Log.Ops
import Xv6.Log.Reservation
import Xv6.Log.Commit
import Xv6.Log.World
import Xv6.Log.Solo
import Xv6.Log.Crash
import Xv6.Log.Recovery
import Xv6.Proc.Table
import Xv6.Proc.Hygiene
import Xv6.Fs.Layout
import Xv6.Fs.Inode
import Xv6.Fs.Blocks
import Xv6.Fs.Bmap
import Xv6.Fs.Content
import Xv6.Fs.Trunc
import Xv6.Fs.Calls
import Xv6.Fs.Syscall
import Xv6.Fs.View
import Xv6.Fs.Ops
import Xv6.Fs.Bitmap
import Xv6.Fs.Refine
import Xv6.Fs.Directory
import Xv6.Fs.Path
import Xv6.Fs.Components
import Xv6.Fs.Image
import Xv6.Fs.Tree
import Xv6.Fs.Files
import Xv6.Fs.Moves
import Xv6.Fs.Runs
import Xv6.Pipe.Protocol
import Xv6.Pipe.Channel
import Xv6.Pipe.Account
import Xv6.Pipe.Sleepers
import Xv6.Sched.Machine
import Xv6.Sched.Exclusion
import Xv6.Sched.Effects
import Xv6.Sched.Wakeup
import Xv6.Sched.Family
import Xv6.Cpu.Spinlock
import Xv6.Cpu.Threads
import Xv6.Cpu.Interrupts
import Xv6.Console.Output
import Xv6.Console.Input
import Xv6.Console.Discipline
import Xv6.Virtio.Driver
import Xv6.Virtio.Protocol
import Xv6.Vm.Phys
import Xv6.Vm.Pagetable
import Xv6.Vm.Freewalk
import Xv6.Vm.Maps
import Xv6.Vm.Copy
import Xv6.Vm.Copyinstr
import Xv6.Vm.Space
import Xv6.Vm.Sbrk
import Xv6.Vm.Lifecycle
import Xv6.Exec.Load
import Xv6.Exec.Args
import Xv6.Exec.Exec
import Xv6.User.Umalloc
import Xv6.User.Heap
import Xv6.User.Malloc
import Xv6.User.Core
import Xv6.User.Memmove
import Xv6.User.Match
import Xv6.User.Grep
import Xv6.User.Xargs
import Xv6.User.Find
import Xv6.Shell.Parser
import Xv6.Shell.Tokens
import Xv6.Shell.Grammar
import Xv6.Shell.Line
