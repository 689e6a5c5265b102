import EnhancedXv6.Kernel.Process
import EnhancedXv6.Transition.Ownership
import EnhancedXv6.Transition.System

/-!
# fork, exit and wait under wait_lock

`fork`, `exit`, `wait`, `waitx` and `kill` cut into their sections.  `wait_lock` has an owner and is
taken and released in steps of their own; each section under a `p->lock` is one step, also where it
lies inside a section under `wait_lock`.  The last section of `exit` and the one of `sleep` release
`wait_lock` and end with the switch to the scheduler.

Processes interleave in any order.  Schedulers, `yield` and the sleeping and waking of other code
appear as what they do to `p->state`; a process that holds `wait_lock` is not preempted, since
interrupts are off.
-/

namespace EnhancedXv6.ExitWait

open Kernel Ownership Transition

inductive ProcPc
  /-- in none of these calls, or the slot has no thread -/
  | out
  /-- `fork` before `acquire(&wait_lock)` -/
  | forkAllocated (np : Slot)
  /-- `fork` before `np->parent = p` -/
  | forkLocked (np : Slot)
  /-- `fork` before `release(&wait_lock)` -/
  | forkLinked (np : Slot)
  /-- `fork` before the section that sets `np->state = RUNNABLE` -/
  | forkUnlocked (np : Slot)
  /-- `exit` before `acquire(&wait_lock)` -/
  | exitEnter (status : Int32)
  /-- `reparent` before the iterations on `rest` -/
  | exitReparent (status : Int32) (rest : List Slot)
  /-- `reparent`, in `wakeup(initproc)` before the iterations on `scan` -/
  | exitInit (status : Int32) (rest scan : List Slot)
  /-- `exit`, in `wakeup(p->parent)` -/
  | exitParent (status : Int32) (chan : Chan) (scan : List Slot)
  /-- `exit` before `acquire(&p->lock)` -/
  | exitLast (status : Int32)
  /-- `wait`, or `waitx` if `x`, before `acquire(&wait_lock)`, at the start or in `sleep` -/
  | waitEnter (x : Bool)
  /-- `wait` before the iterations on `rest` -/
  | waitScan (x : Bool) (rest : List Slot) (havekids : Bool)
  /-- `wait` before `killed(p)` -/
  | waitKilled (x : Bool)
  /-- `wait` before `sleep(p, &wait_lock)` -/
  | waitSleep (x : Bool)
  /-- `wait`, inside `sleep` -/
  | waitAsleep (x : Bool)
  /-- `kill(pid)` before the iterations on `rest` -/
  | killScan (pid : Int32) (rest : List Slot)
  deriving DecidableEq

inductive Lock
  | waitLock
  deriving DecidableEq

structure ExitState where
  kernel : State
  owner : Lock → Option Slot
  pc : Slot → ProcPc

/-- The holder of `wait_lock`. -/
def ExitState.waitLock (s : ExitState) : Option Slot := s.owner .waitLock

inductive ExitEvent
  /-- the scheduler switches to `p` -/
  | dispatch (p : Slot)
  | preempt (p : Slot)
  /-- `sleep(chan, …)` outside of `wait` -/
  | sleep (p : Slot) (chan : Chan)
  /-- the iteration on `p` of a `wakeup(chan)` outside of `exit` -/
  | wakeup (p : Slot) (chan : Chan)
  | fork (p np : Slot) (outcome : AllocOutcome)
  | exit (p : Slot) (status : Int32)
  | wait (p : Slot) (x : Bool)
  | kill (p : Slot) (pid : Int32)
  /-- the next step of a call; `copyoutFails` is what `wait` meets when it finds a child -/
  | advance (p : Slot) (copyoutFails : Bool)

def ExitEvent.actor : ExitEvent → Slot
  | .dispatch p | .preempt p | .sleep p _ | .wakeup p _ | .fork p _ _ | .exit p _ | .wait p _
  | .kill p _ | .advance p _ => p

/-- One step of a process: where it goes, its operation on `wait_lock`, and the kernel after it. -/
structure Move where
  pc : ProcPc
  lock : LockOp Lock := .keep
  kernel : State

def setParent (parent : Option Slot) (pr : Proc) : Proc := { pr with parent := parent }

def sleepOn (chan : Chan) (pr : Proc) : Proc := { pr with chan := chan, state := .sleeping }

def clearChan (pr : Proc) : Proc := { pr with chan := .null }

def wakeupAt (k : State) (p q : Slot) (chan : Chan) : State :=
  if q = p then k else k.modify q (wakeupProc chan)

def publish (k : State) (p np : Slot) : State :=
  { k.modify np (setState .runnable) with forkChild := Function.update k.forkChild p none }

def reap (b : Build) (k : State) (p pp : Slot) (x copyoutFails : Bool) : State :=
  let merged := if x then k else k.modify p (addCounters (k.proc pp).sysCounter)
  if copyoutFails then merged else merged.modify pp (freeproc b)

def advance (b : Build) (k : State) (p : Slot) (copyoutFails : Bool) : ProcPc → Option Move
  | .out => none
  | .forkAllocated np => some { pc := .forkLocked np, lock := .acquire .waitLock, kernel := k }
  | .forkLocked np => some { pc := .forkLinked np, kernel := k.modify np (setParent (some p)) }
  | .forkLinked np => some { pc := .forkUnlocked np, lock := .release .waitLock, kernel := k }
  | .forkUnlocked np => some { pc := .out, kernel := publish k p np }
  | .exitEnter status =>
    some { pc := .exitReparent status table, lock := .acquire .waitLock, kernel := k }
  | .exitReparent status [] =>
    some { pc := .exitParent status (Chan.ofPtr (k.proc p).parent) table, kernel := k }
  | .exitReparent status (pp :: rest) =>
    if (k.proc pp).parent = some p then
      some { pc := .exitInit status rest table, kernel := k.modify pp (setParent k.initproc) }
    else some { pc := .exitReparent status rest, kernel := k }
  | .exitInit status rest [] => some { pc := .exitReparent status rest, kernel := k }
  | .exitInit status rest (q :: scan) =>
    some { pc := .exitInit status rest scan, kernel := wakeupAt k p q (Chan.ofPtr k.initproc) }
  | .exitParent status _ [] => some { pc := .exitLast status, kernel := k }
  | .exitParent status chan (q :: scan) =>
    some { pc := .exitParent status chan scan, kernel := wakeupAt k p q chan }
  | .exitLast status =>
    some { pc := .out, lock := .release .waitLock
           kernel := k.modify p (exitState status k.ticks) }
  | .waitEnter x => some { pc := .waitScan x table false, lock := .acquire .waitLock, kernel := k }
  | .waitScan x (pp :: rest) havekids =>
    if (k.proc pp).parent = some p then
      if (k.proc pp).state = .zombie then
        some { pc := .out, lock := .release .waitLock, kernel := reap b k p pp x copyoutFails }
      else some { pc := .waitScan x rest true, kernel := k }
    else some { pc := .waitScan x rest havekids, kernel := k }
  | .waitScan x [] havekids =>
    if havekids then some { pc := .waitKilled x, kernel := k }
    else some { pc := .out, lock := .release .waitLock, kernel := k }
  | .waitKilled x =>
    if (k.proc p).killed then some { pc := .out, lock := .release .waitLock, kernel := k }
    else some { pc := .waitSleep x, kernel := k }
  | .waitSleep x =>
    some { pc := .waitAsleep x, lock := .release .waitLock
           kernel := k.modify p (sleepOn (.proc p)) }
  | .waitAsleep x => some { pc := .waitEnter x, kernel := k.modify p clearChan }
  | .killScan _ [] => some { pc := .out, kernel := k }
  | .killScan pid (q :: rest) =>
    if (k.proc q).pid = pid then some { pc := .out, kernel := k.modify q killProc }
    else some { pc := .killScan pid rest, kernel := k }

/-- Where a process may sleep: outside of the calls, and in `exit` while it closes its files. -/
def ProcPc.maySleep : ProcPc → Bool
  | .out | .exitEnter _ => true
  | _ => false

def moveOf (b : Build) (s : ExitState) : ExitEvent → Option Move
  | .dispatch p =>
    if (s.kernel.proc p).state = .runnable then
      some { pc := s.pc p, kernel := s.kernel.modify p (setState .running) }
    else none
  | .preempt p =>
    if (s.kernel.proc p).state = .running ∧ s.waitLock ≠ some p then
      some { pc := s.pc p, kernel := s.kernel.modify p (setState .runnable) }
    else none
  | .sleep p chan =>
    if (s.kernel.proc p).state = .running ∧ (s.pc p).maySleep then
      some { pc := s.pc p, kernel := s.kernel.modify p (sleepOn chan) }
    else none
  | .wakeup p chan => some { pc := s.pc p, kernel := s.kernel.modify p (wakeupProc chan) }
  | .fork p np outcome =>
    if (s.kernel.proc p).state = .running ∧ s.pc p = .out ∧
        (s.kernel.proc np).state = .unused then
      some { pc := if outcome = .ok then .forkAllocated np else .out
             kernel := forkAllocAt b s.kernel p np outcome }
    else none
  | .exit p status =>
    if (s.kernel.proc p).state = .running ∧ s.pc p = .out ∧ s.kernel.initproc ≠ some p then
      some { pc := .exitEnter status, kernel := s.kernel.modify p closeFiles }
    else none
  | .wait p x =>
    if (s.kernel.proc p).state = .running ∧ s.pc p = .out then
      some { pc := .waitEnter x, kernel := s.kernel }
    else none
  | .kill p pid =>
    if (s.kernel.proc p).state = .running ∧ s.pc p = .out then
      some { pc := .killScan pid table, kernel := s.kernel }
    else none
  | .advance p copyoutFails =>
    if (s.kernel.proc p).state = .running then
      advance b s.kernel p copyoutFails (s.pc p)
    else none

/-- The state after process `p` made a move, or `none` when it waits for `wait_lock`. -/
def Move.apply (m : Move) (s : ExitState) (p : Slot) : Option ExitState :=
  (m.lock.run s.owner p).map fun owner ↦
    { kernel := m.kernel, owner := owner, pc := Function.update s.pc p m.pc }

/-- The processes of the kernel built with scheduler `b`, from boot on. -/
def exitWait (b : Build) : System ExitState ExitEvent where
  start := ⟨userinit b, fun _ ↦ none, fun _ ↦ .out⟩
  next s e := (moveOf b s e).bind fun m ↦ m.apply s e.actor

theorem exitWait_next {b : Build} {s s' : ExitState} {e : ExitEvent} :
    (exitWait b).next s e = some s' ↔
      ∃ m, moveOf b s e = some m ∧ m.apply s e.actor = some s' := by
  simp [exitWait, Option.bind_eq_some_iff]

end EnhancedXv6.ExitWait
