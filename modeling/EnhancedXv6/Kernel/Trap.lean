import EnhancedXv6.Mlfq.Queue

/-!
# Traps and timer interrupts

`clockintr`, `usertrap` and `kerneltrap` of trap.c.  Timer interrupts reach every hart; only hart 0
advances the clock.  `usertrap` is cut at the points other modules refer to: entry (save of the user
context, clock, alarm), the aging loop, and the end of the time slice.
-/

namespace EnhancedXv6.Kernel

open Trap Mlfq Buffer Fallible

/-! ## The clock -/

def countTick (pr : Proc) : Proc :=
  if pr.state = .running then { pr with currentTicks := pr.currentTicks + 1 } else pr

def clockintr (b : Build) (s : State) (me : Option Slot) : State :=
  let s := { s with ticks := s.ticks + 1 }
  let s := updateTime b s
  let s :=
    match me with
    | none => s
    | some p => s.modify p countTick
  wakeup s me .ticks

def timerintr (b : Build) (s : State) (h : Hart) : State :=
  if h = 0 then clockintr b s (s.cpu h) else s

/-! ## Alarms -/

/-- The alarm code of `usertrap` at a timer interrupt.  `kalloc` tells whether the page for the
saved frame could be allocated; when it could not, the copy goes through the null pointer. -/
def alarmTick (pr : Proc) (kalloc : Bool) : Except Fault Proc :=
  if pr.ticksOfAlarm > 0 ∧ pr.alarmStatus = false then
    let pr := { pr with currentTicks := pr.currentTicks + 1 }
    if pr.currentTicks ≥ pr.ticksOfAlarm then
      if kalloc then
        .ok { pr with
          currentTicks := 0
          trapframeAlarm := some pr.trapframe
          trapframe := pr.trapframe.setField .epc pr.handlingAlarm
          alarmStatus := true }
      else .error .nullFrame
    else .ok pr
  else .ok pr

/-! ## Aging -/

/-- The copying loop of the aging code, `*(newproc - 1) = *(newproc)`.  Its bound is read again in each
iteration, through the level of the promoted process, which the copying may have overwritten. -/
def agingCopy (c : Slot) : ℕ → ℕ → State → Except Fault State
  | 0, _, s => pure s
  | fuel + 1, newproc, s => do
    let q ← queueIndex (s.proc c).priorityQueueNumber
    let bound ← checked (readAt (s.queue q).mlfqQueue (NPROC - 1 : ℕ))
    match bound with
    | none => pure s
    | some u =>
      if newproc < u.val then
        let source := s.proc (Fin.ofNat NPROC newproc)
        agingCopy c fuel (newproc + 1)
          (s.modify (Fin.ofNat NPROC (newproc - 1)) fun _ ↦ source)
      else pure s

/-- The two inner loops, from the front and the last entry of the array.  The first one walks a
pointer from the front entry up to `c`; from a null entry it ends between two slots. -/
def agingWalk (c : Slot) (s : State) : Option Slot → Option Slot → Except Fault State
  | some f, _ => agingCopy c NPROC (max f.val c.val + 1) s
  | none, none => pure s
  | none, some u => if c.val + 2 ≤ u.val then throw .wildCopy else pure s

def agingEnd (c : Slot) (s : State) : Except Fault State := do
  let q ← queueIndex (s.proc c).priorityQueueNumber
  let a ← checked (writeAt (s.queue q).mlfqQueue (NPROC - 1 : ℕ) none)
  let s := s.setQueue q { s.queue q with mlfqQueue := a }
  pure (s.modify c fun pr ↦
    { pr with
      priorityQueueNumber :=
        if pr.priorityQueueNumber > 0 then pr.priorityQueueNumber - 1
        else pr.priorityQueueNumber
      waitTicks := 0 })

def agingStep (s : State) (c : Slot) : Except Fault State := do
  if (s.proc c).statusQueue = true ∧ (s.proc c).state = .runnable ∧ (s.proc c).waitTicks ≥ 48 then
    let s := s.modify c fun pr ↦ { pr with statusQueue := false }
    let q ← queueIndex (s.proc c).priorityQueueNumber
    let front ← checked (readAt (s.queue q).mlfqQueue 0)
    let last ← checked (readAt (s.queue q).mlfqQueue (NPROC - 1 : ℕ))
    let s ← agingWalk c s front last
    agingEnd c s
  else pure s

def agingLoop (s : State) : Except Fault State :=
  table.foldlM agingStep s

/-! ## Time slices -/

def nextLevel (level : ℕ) : ℕ :=
  if level < queueSize - 1 then level + 1 else level

def demote (pr : Proc) : Proc :=
  { pr with
    priorityQueueNumber := nextLevel pr.priorityQueueNumber
    startTime := 0
    waitTicks := 0 }

def expire (s : State) (p : Slot) : Except Fault State := do
  let q ← queueIndex (s.proc p).priorityQueueNumber
  if (s.proc p).startTime ≥ (s.queue q).priorityQueueTicks then
    let s ←
      if (s.queue q).tail > 0 then do
        let (_, s) ← pop s q
        pure (s.modify p fun pr ↦ { pr with statusQueue := false })
      else pure s
    pure (s.modify p demote)
  else pure s

/-! ## Entry points -/

/-- A trap from user mode: `uservec` saves the registers and `usertrap` the program counter. -/
def saveContext (pr : Proc) (ctx : UserContext) : Proc :=
  { pr with trapframe := (uservec ctx.regs pr.trapframe).setField .epc ctx.pc }

/-- `usertrap` at a timer interrupt, up to the test of `killed`. -/
def usertrapTimer (b : Build) (s : State) (h : Hart) (p : Slot) (ctx : UserContext)
    (kalloc : Bool) : Except Fault State := do
  let s := s.modify p fun pr ↦ saveContext pr ctx
  let s := timerintr b s h
  let pr ← alarmTick (s.proc p) kalloc
  pure (s.modify p fun _ ↦ pr)

/-- `usertrap` from the test of `killed` to the end of the aging loop: `none` when the process
exits there. -/
def usertrapAge (b : Build) (s : State) (p : Slot) : Except Fault (Option State) :=
  if (s.proc p).killed then pure none
  else if b = .mlfq then some <$> agingLoop s
  else pure (some s)

/-- `usertrap` from the test of `killed` on, for a trap other than a timer interrupt. -/
def usertrapReturn (b : Build) (s : State) (h : Hart) (p : Slot) : Except Fault State := do
  match ← usertrapAge b s p with
  | none => exit s h p (-1)
  | some s => pure s

/-- `usertrap` at a timer interrupt, up to the switch to the scheduler. -/
def usertrap (b : Build) (s : State) (h : Hart) (p : Slot) (ctx : UserContext) (kalloc : Bool) :
    Except Fault State := do
  let s ← usertrapTimer b s h p ctx kalloc
  match ← usertrapAge b s p with
  | none => exit s h p (-1)
  | some s =>
    let s ← if b = .mlfq then expire s p else pure s
    pure (yield b s h p)

/-- `kerneltrap` at a timer interrupt.  In the scheduler, or while `c->proc` is not `RUNNING`, only
the clock advances. -/
def kerneltrap (b : Build) (s : State) (h : Hart) : State :=
  let s := timerintr b s h
  match s.cpu h with
  | none => s
  | some p => if (s.proc p).state = .running then yield b s h p else s

end EnhancedXv6.Kernel
