import EnhancedXv6.Kernel.Trap

/-!
# System calls

`syscall()` reads the number of the call from the saved `a7`, looks it up in the table of syscall.c
and stores what the call returns in the saved `a0`.  `sigalarm` and `sigreturn` are modelled in
full.  Of the other calls only the value they return matters here, and for `exec` the image it
commits to; both are given by an `Answer`.
-/

namespace EnhancedXv6.Kernel

open Trap

inductive Sysno
  | fork | exit | wait | pipe | read | kill | exec | fstat | chdir | dup | getpid | sbrk | sleep
  | uptime | open | write | mknod | unlink | link | mkdir | close | waitx | getSysCount | sigalarm
  | sigreturn | settickets
  deriving DecidableEq, Repr

/-- The table `syscalls[]`; its first entry is null. -/
def syscalls : List (Option Sysno) :=
  [none, some .fork, some .exit, some .wait, some .pipe, some .read, some .kill, some .exec,
   some .fstat, some .chdir, some .dup, some .getpid, some .sbrk, some .sleep, some .uptime,
   some .open, some .write, some .mknod, some .unlink, some .link, some .mkdir, some .close,
   some .waitx, some .getSysCount, some .sigalarm, some .sigreturn, some .settickets]

/-- The conversion of a `uint64` to an `int`. -/
def truncateToInt (value : UInt64) : Int32 := value.toUInt32.toInt32

def argint (tf : Trapframe) (r : Reg) : Int32 := truncateToInt (tf.reg r)

def argaddr (tf : Trapframe) (r : Reg) : UInt64 := tf.reg r

def sysSigalarm (pr : Proc) : UInt64 × Proc :=
  let ticksSigalarm := argint pr.trapframe .a0
  (0, { pr with
    ticksOfAlarm := if ticksSigalarm = 1 then 0 else ticksSigalarm
    handlingAlarm := argaddr pr.trapframe .a1 })

def sysSigreturn (pr : Proc) : UInt64 × Proc :=
  match pr.trapframeAlarm with
  | none => (0, pr)
  | some tf => (0, { pr with trapframe := tf, trapframeAlarm := none, alarmStatus := false })

/-- The image that a successful `exec` commits to. -/
structure Image where
  entry : UInt64
  sp : UInt64

/-- What a system call other than `sigalarm` and `sigreturn` answers: its value and, for `exec`, the
new image unless it failed. -/
structure Answer where
  value : UInt64
  image : Option Image

/-- `exec()` as far as the trapframe goes. -/
def sysExec (pr : Proc) (answer : Answer) : UInt64 × Proc :=
  match answer.image with
  | none => (-1, pr)
  | some image =>
    let tf := pr.trapframe.setReg .a1 image.sp
    let tf := tf.setField .epc image.entry
    (answer.value, { pr with trapframe := tf.setReg .sp image.sp })

/-- One entry of the table: the value returned and the process, or `none` when the call does not
return. -/
def dispatchCall (pr : Proc) (answer : Answer) : Sysno → Option (UInt64 × Proc)
  | .exit => none
  | .exec => some (sysExec pr answer)
  | .sigalarm => some (sysSigalarm pr)
  | .sigreturn => some (sysSigreturn pr)
  | _ => some (answer.value, pr)

def callNumber (pr : Proc) : Int32 := truncateToInt (pr.trapframe.reg .a7)

def calledEntry (pr : Proc) : Option Sysno :=
  let num := callNumber pr
  if num > 0 ∧ num.toInt < syscalls.length then (syscalls.getD num.toInt.toNat none) else none

/-- `syscall()`, or `none` when the call does not return. -/
def syscall (pr : Proc) (answer : Answer) : Option Proc :=
  match calledEntry pr with
  | some entry => (dispatchCall pr answer entry).map fun r ↦
      { r.2 with
        trapframe := r.2.trapframe.setReg .a0 r.1
        sysCounter := fun i ↦
          if (i : ℤ) = (callNumber pr).toInt then r.2.sysCounter i + 1 else r.2.sysCounter i }
  | none => some { pr with trapframe := pr.trapframe.setReg .a0 (-1) }

/-- `sigreturn` with no saved frame restores nothing. -/
theorem syscall_sigreturn_outside {pr pr' : Proc} {answer : Answer}
    (hentry : calledEntry pr = some .sigreturn) (hsaved : pr.trapframeAlarm = none)
    (h : syscall pr answer = some pr') :
    pr'.trapframe = pr.trapframe.setReg .a0 0 ∧ pr'.trapframeAlarm = pr.trapframeAlarm ∧
      pr'.alarmStatus = pr.alarmStatus := by
  have hreturn : sysSigreturn pr = (0, pr) := by simp [sysSigreturn, hsaved]
  simp only [syscall, hentry, dispatchCall, hreturn, Option.map_some, Option.some.injEq] at h
  subst h
  exact ⟨rfl, rfl, rfl⟩

/-- `usertrapret()` up to the jump to `userret`: the fields that `uservec` needs at the next
trap. -/
def usertrapret (pr : Proc) (kernel : KernelField → UInt64) : Proc :=
  let tf := pr.trapframe.setField .kernelSatp (kernel .kernelSatp)
  let tf := tf.setField .kernelSp (kernel .kernelSp)
  let tf := tf.setField .kernelTrap (kernel .kernelTrap)
  { pr with trapframe := tf.setField .kernelHartid (kernel .kernelHartid) }

/-- The context with which `sret` resumes user code: `sepc` was set to the saved program counter. -/
def resumedContext (pr : Proc) (scratch : Reg → UInt64) : UserContext :=
  ⟨pr.trapframe.field .epc, userret pr.trapframe scratch⟩

end EnhancedXv6.Kernel
