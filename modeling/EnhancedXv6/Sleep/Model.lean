import EnhancedXv6.Kernel.Process
import EnhancedXv6.Transition.Ownership
import EnhancedXv6.Transition.System

/-!
# Sleeping on a condition

Processes wait for a condition that a spinlock `lk` protects: they test it under `lk` and call
`sleep(chan, lk)` in a loop.  Whoever makes it true calls `wakeup(chan)` before it releases `lk`.
Modelled are `sleep`, `wakeup`, `sched` and the schedulers, for any types of processes and harts.  Every
acquisition and release of a lock is a step of its own, and so are the assignments of `sleep` between
them and each switch of a thread.

A hart runs the scheduler or the thread of a process, and either may be interrupted where it holds no
lock.  Around the protocol the harts do anything that touches `p->state` and `p->chan`: they sleep on
other channels, call `wakeup` for any channel, yield, exit, kill, fork and reap, the last four in one
step each.
-/

namespace EnhancedXv6.Sleep

open Kernel Ownership Transition

variable {P H : Type} [DecidableEq P] [DecidableEq H]

/-! ## Program counters -/

inductive Phase
  | outside
  /-- holds `lk` -/
  | critical
  /-- holds `lk`, has made the condition true and has not come to the end of `wakeup(chan)` -/
  | made
  deriving DecidableEq

/-- The code that a hart runs where it holds no process lock. -/
inductive Frame (P : Type)
  /-- the loop of the scheduler -/
  | idle
  /-- the MLFQ scheduler between its test of `p->state` and `acquire(&p->lock)` -/
  | picked (p : P)
  /-- the thread of `p`; `relock` at the end of `sleep`, before `acquire(lk)` -/
  | thread (p : P) (relock : Bool)
  deriving DecidableEq

def Frame.proc : Frame P → Option P
  | .thread p _ => some p
  | .idle | .picked _ => none

/-- `p->context`: where the thread called `sched`, and whether it has to take `lk` again. -/
inductive Context
  | yielded (relock : Bool)
  | slept (relock : Bool)
  deriving DecidableEq

inductive HartPc (P : Type)
  | code (phase : Phase) (c : Frame P)
  /-- `wakeup(ch)` before the iterations on `rest` -/
  | scan (phase : Phase) (c : Frame P) (ch : Chan) (rest : List P)
  /-- `wakeup(ch)` before the test of `q->state` -/
  | visiting (phase : Phase) (c : Frame P) (ch : Chan) (q : P) (rest : List P)
  /-- `wakeup(ch)` before `release(&q->lock)` -/
  | visited (phase : Phase) (c : Frame P) (ch : Chan) (q : P) (rest : List P)
  /-- the scheduler after `acquire(&p->lock)` -/
  | polled (p : P)
  /-- the scheduler after the thread of `p` has switched back to it -/
  | back (p : P)
  /-- the end of `yield`, or `forkret`, before `release(&p->lock)` -/
  | entered (p : P) (relock : Bool)
  /-- `yield` before `p->state = RUNNABLE` -/
  | yielding (p : P) (relock : Bool)
  /-- `exit` before `p->state = ZOMBIE` -/
  | exiting (p : P) (status : Int32)
  /-- `sleep(ch, lk)` before `acquire(&p->lock)` -/
  | commit (p : P) (ch : Chan)
  /-- `sleep(ch, lk)` before `release(lk)` -/
  | locked (p : P) (ch : Chan)
  /-- `sleep` before `p->chan = ch` -/
  | released (p : P) (ch : Chan) (relock : Bool)
  /-- `sleep` before `p->state = SLEEPING` -/
  | chanSet (p : P) (ch : Chan) (relock : Bool)
  /-- `sched` before `swtch` -/
  | switching (p : P) (context : Context)
  /-- `sleep` before `p->chan = 0` -/
  | resumed (p : P) (relock : Bool)
  /-- `sleep` before `release(&p->lock)` -/
  | tidied (p : P) (relock : Bool)
  deriving DecidableEq

inductive Lock (P : Type)
  | lk
  | proc (p : P)
  deriving DecidableEq

/-- The processes, their saved contexts, the condition, the locks and the harts. -/
structure SleepState (P H : Type) where
  proc : P → Proc
  context : P → Context
  cond : Bool
  owner : Lock P → Option H
  pc : H → HartPc P

/-! ## Steps -/

/-- What a hart does next.  `advance` is the one way on inside `sleep`, `wakeup`, `sched` and the
scheduler; the others are the choices of the code around them. -/
inductive Act (P : Type)
  | advance
  /-- DEFAULT and LBS: `acquire(&p->lock)` -/
  | poll (p : P)
  /-- MLFQ: the test `p->state == RUNNABLE` without a lock -/
  | pick (p : P)
  /-- `acquire(lk)` -/
  | enter
  /-- `release(lk)` -/
  | leave
  /-- the condition is found false and `sleep(chan, lk)` is called -/
  | test
  | makeTrue
  | makeFalse
  | wakeup (ch : Chan)
  /-- `sleep` on another channel, with `lk` or another lock -/
  | sleep (ch : Chan)
  | yield
  | exit (status : Int32)
  | kill (q : P)
  | alloc (q : P) (pid : Int32)
  | publish (q : P)
  | free (q : P)

/-- One step of a hart: where it goes, its operation on the locks, and what it writes. -/
structure Move (P : Type) where
  pc : HartPc P
  lock : LockOp (Lock P) := .keep
  cond : Option Bool := none
  write : Option (P × (Proc → Proc)) := none
  context : Option (P × Context) := none

def Phase.after (chan ch : Chan) : Phase → Phase
  | .made => if ch = chan then .critical else .made
  | phase => phase

/-- Where a thread goes on when the scheduler switches to it. -/
def resume (p : P) : Context → HartPc P
  | .yielded relock => .entered p relock
  | .slept relock => .resumed p relock

def yieldProc (b : Build) (pr : Proc) : Proc :=
  if b = .mlfq ∧ pr.state = .sleeping then pr else { pr with state := .runnable }

def setChan (chan : Chan) (pr : Proc) : Proc := { pr with chan := chan }

/-- The end of `exit`; there is no clock here for `etime`. -/
def exitSleeper (status : Int32) (pr : Proc) : Proc := setState .zombie { pr with xstate := status }

section

variable (b : Build) (chan : Chan) (table : List P) (s : SleepState P H)

/-- The code of `sleep`, `wakeup`, `sched`, `yield` and the schedulers. -/
def advance : HartPc P → Option (Move P)
  | .code .outside (.thread p true) =>
    some { pc := .code .critical (.thread p false), lock := .acquire .lk }
  | .code .outside (.picked p) => some { pc := .polled p, lock := .acquire (.proc p) }
  | .code _ _ => none
  | .scan phase c ch [] => some { pc := .code (phase.after chan ch) c }
  | .scan phase c ch (q :: rest) =>
    if c.proc = some q then some { pc := .scan phase c ch rest }
    else some { pc := .visiting phase c ch q rest, lock := .acquire (.proc q) }
  | .visiting phase c ch q rest =>
    some { pc := .visited phase c ch q rest, write := some (q, wakeupProc ch) }
  | .visited phase c ch q rest =>
    some { pc := .scan phase c ch rest, lock := .release (.proc q) }
  | .polled p =>
    if b = .mlfq ∨ (s.proc p).state = .runnable then
      some { pc := resume p (s.context p), write := some (p, setState .running) }
    else some { pc := .code .outside .idle, lock := .release (.proc p) }
  | .back p => some { pc := .code .outside .idle, lock := .release (.proc p) }
  | .entered p relock =>
    some { pc := .code .outside (.thread p relock), lock := .release (.proc p) }
  | .yielding p relock =>
    some { pc := .switching p (.yielded relock), write := some (p, yieldProc b) }
  | .exiting p status =>
    some { pc := .switching p (.yielded false), write := some (p, exitSleeper status) }
  | .commit p ch => some { pc := .locked p ch, lock := .acquire (.proc p) }
  | .locked p ch => some { pc := .released p ch true, lock := .release .lk }
  | .released p ch relock =>
    some { pc := .chanSet p ch relock, write := some (p, setChan ch) }
  | .chanSet p _ relock =>
    some { pc := .switching p (.slept relock), write := some (p, setState .sleeping) }
  | .switching p context =>
    -- sched panics if the process is still RUNNING
    if (s.proc p).state = .running then none
    else some { pc := .back p, context := some (p, context) }
  | .resumed p relock => some { pc := .tidied p relock, write := some (p, setChan .null) }
  | .tidied p relock =>
    some { pc := .code .outside (.thread p relock), lock := .release (.proc p) }

def choose (phase : Phase) (c : Frame P) : Act P → Option (Move P)
  | .advance => none
  | .poll p =>
    if b ≠ .mlfq ∧ phase = .outside ∧ c = .idle then
      some { pc := .polled p, lock := .acquire (.proc p) }
    else none
  | .pick p =>
    if b = .mlfq ∧ phase = .outside ∧ c = .idle ∧ (s.proc p).state = .runnable then
      some { pc := .code .outside (.picked p) }
    else none
  | .enter =>
    if phase = .outside then some { pc := .code .critical c, lock := .acquire .lk } else none
  | .leave =>
    if phase = .critical then some { pc := .code .outside c, lock := .release .lk } else none
  | .test =>
    match phase, c with
    | .critical, .thread p false => if s.cond then none else some { pc := .commit p chan }
    | _, _ => none
  | .makeTrue =>
    if phase = .critical then some { pc := .code .made c, cond := some true } else none
  | .makeFalse =>
    if phase = .outside then none else some { pc := .code .critical c, cond := some false }
  | .wakeup ch => some { pc := .scan phase c ch table }
  | .sleep ch =>
    if ch = chan then none
    else match phase, c with
      | .critical, .thread p false => some { pc := .commit p ch }
      | .outside, .thread p false =>
        some { pc := .released p ch false, lock := .acquire (.proc p) }
      | _, _ => none
  | .yield =>
    match phase, c with
    | .outside, .thread p relock =>
      some { pc := .yielding p relock, lock := .acquire (.proc p) }
    | _, _ => none
  | .exit status =>
    match phase, c with
    | .outside, .thread p false =>
      some { pc := .exiting p status, lock := .acquire (.proc p) }
    | _, _ => none
  | .kill q =>
    if phase = .outside then
      some { pc := .code phase c, lock := .within (.proc q), write := some (q, killProc) }
    else none
  | .alloc q pid =>
    if phase = .outside ∧ (s.proc q).state = .unused then
      some { pc := .code phase c, lock := .within (.proc q)
             write := some (q, allocprocFound pid), context := some (q, .yielded false) }
    else none
  | .publish q =>
    if phase = .outside ∧ (s.proc q).state = .used then
      some { pc := .code phase c, lock := .within (.proc q)
             write := some (q, setState .runnable) }
    else none
  | .free q =>
    if phase = .outside ∧ (s.proc q).state = .zombie then
      some { pc := .code phase c, lock := .within (.proc q), write := some (q, freeproc b) }
    else none

def moveOf (pc : HartPc P) (act : Act P) : Option (Move P) :=
  match act, pc with
  | .advance, pc => advance b chan s pc
  | act, .code phase c => choose b chan table s phase c act
  | _, _ => none

end

/-- The state after hart `h` made a move, or `none` when it waits for a lock. -/
def Move.apply (m : Move P) (s : SleepState P H) (h : H) : Option (SleepState P H) :=
  (m.lock.run s.owner h).map fun owner ↦
    { proc := match m.write with
        | none => s.proc
        | some (p, f) => Function.update s.proc p (f (s.proc p))
      context := match m.context with
        | none => s.context
        | some (p, context) => Function.update s.context p context
      cond := m.cond.getD s.cond
      owner := owner
      pc := Function.update s.pc h m.pc }

def sleepers (H : Type) [DecidableEq H] (b : Build) (chan : Chan) (table : List P) (init : P)
    (cond : Bool) : System (SleepState P H) (H × Act P) where
  start :=
    { proc := fun p ↦ if p = init then { state := .runnable } else {}
      context := fun _ ↦ .yielded false
      cond := cond
      owner := fun _ ↦ none
      pc := fun _ ↦ .code .outside .idle }
  next s e := (moveOf b chan table s (s.pc e.1) e.2).bind fun m ↦ m.apply s e.1

theorem sleepers_next {b : Build} {chan : Chan} {table : List P} {init : P} {cond : Bool}
    {s s' : SleepState P H} {h : H} {act : Act P} :
    (sleepers H b chan table init cond).next s (h, act) = some s' ↔
      ∃ m, moveOf b chan table s (s.pc h) act = some m ∧ m.apply s h = some s' := by
  simp [sleepers, Option.bind_eq_some_iff]

end EnhancedXv6.Sleep
