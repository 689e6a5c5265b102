import EnhancedXv6.Alarm.Delivery
import EnhancedXv6.Alarm.Handlers
import EnhancedXv6.Alarm.Interval
import EnhancedXv6.Alarm.Transparency
import EnhancedXv6.Console.Editor
import EnhancedXv6.ExitWait.Protocol
import EnhancedXv6.FileSystem.Bitmap
import EnhancedXv6.FileSystem.Logged
import EnhancedXv6.FileSystem.Resolution
import EnhancedXv6.Grep.Lines
import EnhancedXv6.Heap.Requests
import EnhancedXv6.Lifecycle.Counters
import EnhancedXv6.Lifecycle.Inheritance
import EnhancedXv6.Lifecycle.Killing
import EnhancedXv6.Lifecycle.Times
import EnhancedXv6.Lifecycle.Waiting
import EnhancedXv6.Lifecycle.Waitx
import EnhancedXv6.Logging.Admission
import EnhancedXv6.Logging.Coherence
import EnhancedXv6.Logging.Crash
import EnhancedXv6.Logging.Reservation
import EnhancedXv6.Lottery.Locks
import EnhancedXv6.Lottery.Selection
import EnhancedXv6.Memory.Move
import EnhancedXv6.Mkfs.Lookup
import EnhancedXv6.Mlfq.Dispatch
import EnhancedXv6.Mlfq.Promotion
import EnhancedXv6.Mlfq.Starvation
import EnhancedXv6.Pipe.Wakeup
import EnhancedXv6.Printf.Output
import EnhancedXv6.Shell.Roundtrip
import EnhancedXv6.Sleep.Sleeplock
import EnhancedXv6.Sleep.Wakeup
import EnhancedXv6.Smp.Handoff
import EnhancedXv6.Smp.MlfqRace
import EnhancedXv6.Spinlock.Nesting
import EnhancedXv6.Virtio.Requests
import EnhancedXv6.Vm.ArgStack
import EnhancedXv6.Vm.Conservation
import EnhancedXv6.Vm.Growth
import EnhancedXv6.Vm.Isolation
