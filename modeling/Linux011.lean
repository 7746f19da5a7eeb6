import Linux011.Lib.Transition
import Linux011.Lib.Count
import Linux011.Lib.Fold
import Linux011.Lib.Sizes
import Linux011.Lib.StringOps
import Linux011.Lib.Table
import Linux011.Lib.DeltaList
import Linux011.Lib.Fifo
import Linux011.Lib.CallStack
import Linux011.Lib.Bytes
import Linux011.Sched.SleepWake
import Linux011.Sched.WaitQueue
import Linux011.Sched.LostWakeup
import Linux011.Mm.Page
import Linux011.Mm.Memory
import Linux011.Mm.Account
import Linux011.Mm.Space
import Linux011.Mm.Copy
import Linux011.Mm.Fault
import Linux011.Mm.Process
import Linux011.Mm.Reach
import Linux011.Mm.CopyOnWrite
import Linux011.Mm.KernelStore
import Linux011.Mm.VerifyArea
import Linux011.Mm.Directory
import Linux011.Mm.CopyProcess
import Linux011.Lib.Linked
import Linux011.Lib.Chain
import Linux011.Buffer.Queues
import Linux011.Buffer.Cache
import Linux011.Buffer.Process
import Linux011.Buffer.Calls
import Linux011.Buffer.Representation
import Linux011.Buffer.Account
import Linux011.Buffer.Contents
import Linux011.Buffer.Discipline
import Linux011.Buffer.Store
import Linux011.Buffer.Written
import Linux011.Signal.Task
import Linux011.Sched.Scheduler
import Linux011.Sched.Family
import Linux011.Sched.Handing
import Linux011.Sched.Reap
import Linux011.Sched.Pids
import Linux011.Sched.Timer
import Linux011.Signal.Kill
import Linux011.Fs.File
import Linux011.Fs.Access
import Linux011.Fs.Descriptors
import Linux011.Fs.Volume
import Linux011.Fs.Writers
import Linux011.Fs.WriteBack
import Linux011.Fs.Pipe
import Linux011.Fs.PipeBytes
import Linux011.Fs.PipeQueue
import Linux011.Fs.Inode
import Linux011.Fs.Code
import Linux011.Fs.SelfWait
import Linux011.Fs.Ledger
import Linux011.Fs.Bitmap
import Linux011.Fs.Truncate
import Linux011.Exec.Segment
import Linux011.Exec.Slot
import Linux011.Exec.Program
import Linux011.Blk.Request
import Linux011.Blk.Slots
import Linux011.Blk.Conserved
import Linux011.Kmalloc.Malloc
import Linux011.Kmalloc.Buckets
import Linux011.Kmalloc.Objects
import Linux011.Kmalloc.Sound
import Linux011.Kmalloc.Interrupt
import Linux011.Tty.Screen
import Linux011.Tty.Write
import Linux011.Tty.Cursor
import Linux011.Tty.Line
import Linux011.Tty.Cooked
import Linux011.Tty.Echo
import Linux011.Tty.Reply
import Linux011.Tty.SavedCursor
import Linux011.Tty.Editing
import Linux011.Tty.Canonical
import Linux011.Tty.Output
import Linux011.Lib.Sweep
import Linux011.Lib.Ensures
import Linux011.Lib.SlotMap
import Linux011.Buffer.Pointers
import Linux011.Buffer.ReadAhead
import Linux011.Blk.Elevator
import Linux011.Blk.HdRetry
import Linux011.Fs.Permission
import Linux011.Fs.Dup2
import Linux011.Signal.SysKill
import Linux011.Fs.ReadSuper
import Linux011.Fs.Entries
import Linux011.Fs.DirMap
import Linux011.Fs.References
import Linux011.Fs.EmptyInode
import Linux011.Namei.Paths
import Linux011.Namei.DotDot
import Linux011.Sched.Interruptible
import Linux011.Tty.Alarm
import Linux011.Blk.LetGo
import Linux011.Lib.Registers
import Linux011.Exec.SegmentMacros
import Linux011.Lib.Calendar
import Linux011.Kernel.Mktime
import Linux011.Tty.PutQueue
import Linux011.Buffer.Init
import Linux011.Lib.Countdown
import Linux011.Lib.Cursor
import Linux011.Kernel.Number
import Linux011.Kernel.Format
import Linux011.Kernel.Vsprintf
import Linux011.Sched.Coprocessor
import Linux011.Boot.Image
import Linux011.Boot.Bootsect
import Linux011.Boot.Paging
import Linux011.Lib.Window
import Linux011.Tty.Cells
import Linux011.Tty.Terminal
import Linux011.Fs.FreeZones
import Linux011.Fs.FlatFile
import Linux011.Fs.OpenFiles
import Linux011.Tty.Serial
