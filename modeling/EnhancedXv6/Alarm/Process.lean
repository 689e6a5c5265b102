import EnhancedXv6.Kernel.Syscall
import EnhancedXv6.Transition.System

/-!
# A process between its traps

One process as the trap code sees it: user code that may do anything to its registers, and the path
of each trap through `uservec`, `usertrap`, `syscall`, `usertrapret` and `userret`.  Timer
interrupts, other device interrupts, faults and system calls come in any order.

Everything else in the kernel is one event, `interfere`, which may happen at any time and may change
every field of the process that is not part of its trap and alarm state: those fields are written by
the code on this path and by `clockintr` only.
-/

namespace EnhancedXv6.Alarm

open Kernel Trap Transition

inductive Mode
  /-- created and not yet run -/
  | forkret
  | user (ctx : UserContext)
  /-- in `usertrap` at a timer interrupt, before the alarm code -/
  | timer
  /-- in `usertrap` at a system call, before `syscall()` -/
  | syscall
  /-- in `usertrap`, before the last test of `killed` -/
  | leave
  | exited

structure Thread where
  proc : Proc
  mode : Mode

/-- The fields of `o`, except for the trap and alarm state of `pr`. -/
def keepAlarm (pr o : Proc) : Proc :=
  { o with
    trapframe := pr.trapframe
    trapframeAlarm := pr.trapframeAlarm
    alarmStatus := pr.alarmStatus
    ticksOfAlarm := pr.ticksOfAlarm
    handlingAlarm := pr.handlingAlarm
    currentTicks := pr.currentTicks }

inductive ThreadEvent
  /-- user code runs up to the given context -/
  | run (ctx : UserContext)
  /-- a timer interrupt in user mode, on hart `h` -/
  | timer (h : Hart)
  /-- another device interrupt in user mode -/
  | device
  /-- an exception in user mode other than a system call -/
  | fault
  | ecall
  /-- the alarm code; `kalloc` tells whether it gets a page -/
  | alarm (kalloc : Bool)
  /-- the call of `syscall()` -/
  | syscall (answer : Answer)
  /-- the return to user mode; the kernel leaves `scratch` in the registers -/
  | ret (kernel : KernelField → UInt64) (scratch : Reg → UInt64)
  /-- a timer interrupt on hart 0 while the process is in the kernel with interrupts on -/
  | kernelTick
  | interfere (o : Proc)

def resume (pr : Proc) (kernel : KernelField → UInt64) (scratch : Reg → UInt64) : Thread :=
  ⟨usertrapret pr kernel, .user (resumedContext (usertrapret pr kernel) scratch)⟩

def threadNext (t : Thread) (e : ThreadEvent) : Option Thread :=
  match e, t.mode with
  | .run ctx, .user _ => some ⟨t.proc, .user ctx⟩
  | .timer h, .user ctx =>
    let pr := saveContext t.proc ctx
    some ⟨if h = 0 then countTick pr else pr, .timer⟩
  | .device, .user ctx => some ⟨saveContext t.proc ctx, .leave⟩
  | .fault, .user ctx => some ⟨{ saveContext t.proc ctx with killed := true }, .leave⟩
  | .ecall, .user ctx =>
    let pr := saveContext t.proc ctx
    if pr.killed then some ⟨pr, .exited⟩
    else some ⟨{ pr with trapframe := pr.trapframe.setField .epc (pr.trapframe.field .epc + 4) },
      .syscall⟩
  | .alarm kalloc, .timer =>
    match alarmTick t.proc kalloc with
    | .ok pr => some ⟨pr, .leave⟩
    | .error _ => none
  | .syscall answer, .syscall =>
    match Kernel.syscall t.proc answer with
    | some pr => some ⟨pr, .leave⟩
    | none => some ⟨t.proc, .exited⟩
  | .ret kernel scratch, .leave =>
    if t.proc.killed then some ⟨t.proc, .exited⟩ else some (resume t.proc kernel scratch)
  | .ret kernel scratch, .forkret => some (resume t.proc kernel scratch)
  | .kernelTick, .forkret => some ⟨countTick t.proc, .forkret⟩
  | .kernelTick, .syscall => some ⟨countTick t.proc, .syscall⟩
  | .kernelTick, .leave => some ⟨countTick t.proc, .leave⟩
  | .interfere o, mode => some ⟨keepAlarm t.proc o, mode⟩
  | _, _ => none

/-- A process that `allocproc` made out of the slot contents `old`, with the frame that `fork` or
`userinit` gave it. -/
def newProc (b : Build) (pid : Int32) (ticks : UInt32) (old : Proc) (tf : Trapframe) : Proc :=
  { allocprocReady b ticks (allocprocFound pid old) with trapframe := tf }

/-- The run of the process `pr` from its creation on. -/
def thread (pr : Proc) : System Thread ThreadEvent where
  start := ⟨pr, .forkret⟩
  next := threadNext

/-! ## Concrete runs -/

/-- Registers and program counter of a program, as far as concrete runs use them. -/
def context (pc a0 a1 a7 : UInt64) : UserContext :=
  ⟨pc, fun r ↦ match r with
    | .a0 => a0
    | .a1 => a1
    | .a7 => a7
    | _ => 0⟩

def firstProc : Proc := newProc .default 1 0 {} .zero

def back : ThreadEvent := .ret (fun _ ↦ 0) (fun _ ↦ 0)

def callEvents (num a0 a1 : UInt64) (answer : Answer) : List ThreadEvent :=
  [.run (context 0x40 a0 a1 num), .ecall, .syscall answer, back]

end EnhancedXv6.Alarm
