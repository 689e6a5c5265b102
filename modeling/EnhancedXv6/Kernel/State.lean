import EnhancedXv6.Trap.Trapframe
import EnhancedXv6.Buffer.ShiftBuffer
import Mathlib.Algebra.GroupWithZero.Nat
import Mathlib.Data.List.FinRange

/-!
# Kernel state

The process table, the per-hart `c->proc` pointers, the four MLFQ queues and the few global
variables that the scheduling, timing and alarm code reads.  The fields of `struct proc` keep the
names of proc.h; those that no modelled function uses (page table, kernel stack, context, current
directory) are left out.

A C `int` that counts (`start_time`, `wait_ticks`, `current_ticks`, `tickets`) is an `Int32`, a
`uint` a `UInt32`; additions wrap as the compiled code does.  Flags that are only ever set to 0 or
1 are `Bool`.  A `struct proc *` is `Option Slot`, with `none` for the null pointer.

Accesses that leave an array or dereference a null pointer have no C meaning.  The model stops
there with a `Fault` that names the access.
-/

namespace EnhancedXv6.Kernel

open Trap

/-! ## Parameters -/

abbrev NPROC : ℕ := 64

abbrev NCPU : ℕ := 8

abbrev NOFILE : ℕ := 16

abbrev NFILE : ℕ := 100

abbrev NINODE : ℕ := 50

instance : NeZero NINODE := ⟨by decide⟩

abbrev queueSize : ℕ := 4

instance : NeZero NPROC := ⟨by decide⟩

instance : NeZero NCPU := ⟨by decide⟩

instance : NeZero queueSize := ⟨by decide⟩

abbrev Slot := Fin NPROC

abbrev Hart := Fin NCPU

inductive Build
  | default | mlfq | lbs
  deriving DecidableEq, Repr

/-! ## Processes -/

inductive Procstate
  | unused | used | sleeping | runnable | running | zombie
  deriving DecidableEq, Repr

/-- Sleep channels: kernel addresses, of which the address of a process and of `ticks` are
told apart. -/
inductive Chan
  | null | proc (p : Slot) | ticks | addr (a : UInt64)
  deriving DecidableEq, Repr

/-- `struct proc`.  The defaults are those of a zeroed table. -/
structure Proc where
  state : Procstate := .unused
  chan : Chan := .null
  killed : Bool := false
  xstate : Int32 := 0
  pid : Int32 := 0
  parent : Option Slot := none
  trapframe : Trapframe := .zero
  ofile : Fin NOFILE → Option (Fin NFILE) := fun _ ↦ none
  rtime : UInt32 := 0
  ctime : UInt32 := 0
  etime : UInt32 := 0
  sysCounter : Fin 32 → UInt64 := fun _ ↦ 0
  handlingAlarm : UInt64 := 0
  ticksOfAlarm : Int32 := 0
  currentTicks : Int32 := 0
  trapframeAlarm : Option Trapframe := none
  alarmStatus : Bool := false
  priorityQueueNumber : ℕ := 0
  startTime : Int32 := 0
  waitTicks : Int32 := 0
  statusQueue : Bool := false
  numberProcess : ℤ := 0
  tickets : Int32 := 0
  startTimeLbs : Int32 := 0

structure MlfqQueue where
  head : ℤ := 0
  tail : ℤ := 0
  length : ℤ := 0
  priorityQueueTicks : Int32
  mlfqQueue : Vector (Option Slot) NPROC

/-- The global variables of the kernel.  `forkChild p` is the local `np` of a `fork` that process
`p` has begun and not yet finished; `next` is the state of `rand`. -/
structure State where
  proc : Slot → Proc
  cpu : Hart → Option Slot
  queue : Fin queueSize → MlfqQueue
  ticks : UInt32
  nextpid : Int32
  initproc : Option Slot
  forkChild : Slot → Option Slot
  next : UInt64

/-- Where the model stops: a kernel panic, or an access C gives no meaning to. -/
inductive Fault
  /-- a call of `panic` -/
  | panic (message : String)
  /-- `mlfq_queue[i]` with `i` outside `[0, NPROC)` -/
  | mlfqIndex (i : ℤ)
  /-- `queue[i]` with `i` outside `[0, queue_size)` -/
  | queueIndex (i : ℕ)
  /-- `pop` called on a queue whose `tail` is not positive -/
  | emptyPop
  /-- `pop` found a null pointer at the front -/
  | nullEntry
  /-- a trapframe copied to the null pointer that `kalloc` returned -/
  | nullFrame
  /-- a `struct proc` copied to an address that is no slot of the table -/
  | wildCopy
  deriving DecidableEq, Repr

/-- The faults of the queue operations, as opposed to panics and failed allocations. -/
def Fault.isQueueFault : Fault → Bool
  | .mlfqIndex _ | .queueIndex _ | .emptyPop | .nullEntry | .wildCopy => true
  | .panic _ | .nullFrame => false

/-! ## Updates -/

def setState (state : Procstate) (pr : Proc) : Proc := { pr with state := state }

namespace State

def modify (s : State) (p : Slot) (f : Proc → Proc) : State :=
  { s with proc := fun i ↦ if i = p then f (s.proc i) else s.proc i }

def setQueue (s : State) (q : Fin queueSize) (k : MlfqQueue) : State :=
  { s with queue := fun i ↦ if i = q then k else s.queue i }

def setCpu (s : State) (h : Hart) (p : Option Slot) : State :=
  { s with cpu := fun i ↦ if i = h then p else s.cpu i }

def setNext (s : State) (next : UInt64) : State :=
  { s with next := next }

variable (s : State) (p : Slot) (f : Proc → Proc) (q : Fin queueSize) (k : MlfqQueue) (h : Hart)

@[simp] theorem modify_proc (i : Slot) :
    (s.modify p f).proc i = if i = p then f (s.proc i) else s.proc i := rfl
theorem modify_eq_self (hf : f (s.proc p) = s.proc p) : s.modify p f = s := by
  have hproc : (s.modify p f).proc = s.proc := by
    funext i
    by_cases hi : i = p
    · subst hi
      simpa using hf
    · simp [hi]
  exact congrArg (fun proc ↦ { s with proc := proc }) hproc

@[simp] theorem modify_cpu : (s.modify p f).cpu = s.cpu := rfl
@[simp] theorem modify_queue : (s.modify p f).queue = s.queue := rfl
@[simp] theorem modify_ticks : (s.modify p f).ticks = s.ticks := rfl
@[simp] theorem modify_initproc : (s.modify p f).initproc = s.initproc := rfl
@[simp] theorem modify_forkChild : (s.modify p f).forkChild = s.forkChild := rfl

@[simp] theorem setQueue_queue (i : Fin queueSize) :
    (s.setQueue q k).queue i = if i = q then k else s.queue i := rfl
@[simp] theorem setQueue_proc : (s.setQueue q k).proc = s.proc := rfl
@[simp] theorem setQueue_cpu : (s.setQueue q k).cpu = s.cpu := rfl
@[simp] theorem setQueue_ticks : (s.setQueue q k).ticks = s.ticks := rfl
@[simp] theorem setQueue_initproc : (s.setQueue q k).initproc = s.initproc := rfl
@[simp] theorem setQueue_forkChild : (s.setQueue q k).forkChild = s.forkChild := rfl

@[simp] theorem setCpu_cpu (c : Option Slot) (i : Hart) :
    (s.setCpu h c).cpu i = if i = h then c else s.cpu i := rfl
@[simp] theorem setCpu_proc (c : Option Slot) : (s.setCpu h c).proc = s.proc := rfl
@[simp] theorem setCpu_queue (c : Option Slot) : (s.setCpu h c).queue = s.queue := rfl
@[simp] theorem setCpu_ticks (c : Option Slot) : (s.setCpu h c).ticks = s.ticks := rfl
@[simp] theorem setCpu_initproc (c : Option Slot) : (s.setCpu h c).initproc = s.initproc := rfl
@[simp] theorem setCpu_forkChild (c : Option Slot) : (s.setCpu h c).forkChild = s.forkChild := rfl

@[simp] theorem setNext_proc (next : UInt64) : (s.setNext next).proc = s.proc := rfl
@[simp] theorem setNext_cpu (next : UInt64) : (s.setNext next).cpu = s.cpu := rfl
@[simp] theorem setNext_forkChild (next : UInt64) : (s.setNext next).forkChild = s.forkChild := rfl

end State

/-- The order of the loops `for (p = proc; p < &proc[NPROC]; p++)`. -/
abbrev table : List Slot := List.finRange NPROC

end EnhancedXv6.Kernel
