import EnhancedXv6.Kernel.State

/-!
# Process operations

The functions of proc.c that create, block, wake, kill, end and reap processes, together with
`update_time`.  Each function is a state transformer; the calling process `myproc()` and the hart
it runs on are arguments.

On one hart each of them runs without interference: the table entries are changed under `p->lock`,
with interrupts off.  `fork` releases the child's lock while the child is still `USED`, so it is
split there into `forkAlloc` and `forkPublish`.
-/

namespace EnhancedXv6.Kernel

open Trap

def Chan.ofPtr : Option Slot → Chan
  | none => .null
  | some p => .proc p

/-! ## Sleeping and waking -/

def wakeupProc (chan : Chan) (pr : Proc) : Proc :=
  if pr.state = .sleeping ∧ pr.chan = chan then { pr with state := .runnable } else pr

/-- `wakeup(chan)` called by `me`, or by the scheduler's hart when `me` is null. -/
def wakeup (s : State) (me : Option Slot) (chan : Chan) : State :=
  { s with proc := fun p ↦ if some p ≠ me then wakeupProc chan (s.proc p) else s.proc p }

theorem wakeup_proc (s : State) (me : Option Slot) (chan : Chan) (p : Slot) :
    (wakeup s me chan).proc p =
      if some p ≠ me then wakeupProc chan (s.proc p) else s.proc p := rfl

def killProc (pr : Proc) : Proc :=
  { pr with
    killed := true
    state := if pr.state = .sleeping then .runnable else pr.state }

/-- `kill(pid)`: the first slot with that pid, whatever its state. -/
def kill (s : State) (pid : Int32) : Int32 × State :=
  match table.find? fun p ↦ (s.proc p).pid = pid with
  | none => (-1, s)
  | some p => (0, s.modify p killProc)

/-- `sleep(chan, lk)` up to the switch to the scheduler, which clears `c->proc`. -/
def sleep (s : State) (h : Hart) (p : Slot) (chan : Chan) : State :=
  (s.modify p fun pr ↦ { pr with chan := chan, state := .sleeping }).setCpu h none

def yield (b : Build) (s : State) (h : Hart) (p : Slot) : State :=
  (s.modify p fun pr ↦
    if b = .mlfq ∧ pr.state = .sleeping then pr
    else { pr with state := .runnable }).setCpu h none

/-- A scheduler switches to `p`.  The resumed thread leaves `sched`; where that was called by
`sleep`, it clears `p->chan` before it releases `p->lock`. -/
def dispatch (s : State) (h : Hart) (p : Slot) : State :=
  (s.modify p fun pr ↦ { pr with state := .running, chan := .null }).setCpu h (some p)

/-! ## Creation -/

/-- What `kalloc` and `proc_pagetable` answer inside `allocproc`, and `uvmcopy` inside `fork`. -/
inductive AllocOutcome
  | ok | noTrapframe | noPagetable | noCopy
  deriving DecidableEq, Repr

def freeproc (b : Build) (pr : Proc) : Proc :=
  { pr with
    pid := 0
    parent := none
    chan := .null
    statusQueue := if b = .mlfq then false else pr.statusQueue
    killed := false
    xstate := 0
    state := .unused }

/-- The fields `allocproc` sets before it allocates the trapframe page. -/
def allocprocFound (pid : Int32) (pr : Proc) : Proc :=
  { pr with
    pid := pid
    state := .used
    sysCounter := fun _ ↦ 0
    alarmStatus := false
    handlingAlarm := 0
    currentTicks := 0
    trapframeAlarm := none
    ticksOfAlarm := 0 }

/-- `kalloc` fills the page it returns with bytes 5. -/
def junkFrame : Trapframe := ⟨fun _ ↦ 0x0505050505050505⟩

/-- The fields `allocproc` sets once both allocations succeeded.  `start_time` is not among
them. -/
def allocprocReady (b : Build) (ticks : UInt32) (pr : Proc) : Proc :=
  { pr with
    trapframe := junkFrame
    rtime := 0
    etime := 0
    waitTicks := if b = .mlfq then 0 else pr.waitTicks
    statusQueue := if b = .mlfq then false else pr.statusQueue
    priorityQueueNumber := if b = .mlfq then 0 else pr.priorityQueueNumber
    tickets := if b = .lbs then 1 else pr.tickets
    startTimeLbs := if b = .lbs then ticks.toInt32 else pr.startTimeLbs
    ctime := ticks }

def findUnused (s : State) : Option Slot :=
  table.find? fun p ↦ (s.proc p).state = .unused

/-- `allocproc()` from the label `found` on, for the slot `p`: the new process, or null. -/
def allocprocAt (b : Build) (s : State) (p : Slot) (outcome : AllocOutcome) :
    Option Slot × State :=
  let pid := s.nextpid
  let s := { s with nextpid := s.nextpid + 1 }
  let s := s.modify p (allocprocFound pid)
  if outcome = .noTrapframe then (none, s.modify p (freeproc b))
  else if outcome = .noPagetable then
    (none, s.modify p fun pr ↦ freeproc b { pr with trapframe := junkFrame })
  else (some p, s.modify p (allocprocReady b s.ticks))

def allocproc (b : Build) (s : State) (outcome : AllocOutcome) : Option Slot × State :=
  match findUnused s with
  | none => (none, s)
  | some p => allocprocAt b s p outcome

/-- `fork()` by process `p` between `allocproc`, which answered `child`, and the release of the
child's lock. -/
def forkCopy (b : Build) (s : State) (p : Slot) (outcome : AllocOutcome) : Option Slot → State
  | none => s
  | some np =>
    let s := s.modify np fun pr ↦
      { pr with
        tickets := if b = .lbs then (s.proc p).tickets else pr.tickets
        sysCounter := fun _ ↦ 0 }
    if outcome = .noCopy then s.modify np (freeproc b)
    else
      let s := s.modify np fun pr ↦
        { pr with
          trapframe := (s.proc p).trapframe.setReg .a0 0
          ofile := fun fd ↦ ((s.proc p).ofile fd).or (pr.ofile fd) }
      { s with forkChild := fun i ↦ if i = p then some np else s.forkChild i }

/-- `fork()` by process `p` up to the release of the child's lock, when `allocproc` has found the
slot `np`. -/
def forkAllocAt (b : Build) (s : State) (p np : Slot) (outcome : AllocOutcome) : State :=
  let (child, s) := allocprocAt b s np outcome
  forkCopy b s p outcome child

/-- `fork()` by process `p` up to the release of the child's lock. -/
def forkAlloc (b : Build) (s : State) (p : Slot) (outcome : AllocOutcome) : State :=
  let (child, s) := allocproc b s outcome
  forkCopy b s p outcome child

/-- The rest of `fork()`: set the parent and make the child `RUNNABLE`. -/
def forkPublish (s : State) (p : Slot) : State :=
  match s.forkChild p with
  | none => s
  | some np =>
    let s := s.modify np fun pr ↦ { pr with parent := some p, state := .runnable }
    { s with forkChild := fun i ↦ if i = p then none else s.forkChild i }

/-- The child that `fork()` by a process `parent` makes out of the slot contents `old`. -/
def forkedProc (b : Build) (s : State) (parent old : Proc) : Proc :=
  { allocprocReady b s.ticks (allocprocFound s.nextpid old) with
    tickets := if b = .lbs then parent.tickets else old.tickets
    trapframe := parent.trapframe.setReg .a0 0
    ofile := fun fd ↦ (parent.ofile fd).or (old.ofile fd) }

section Fork

variable {b : Build} {s : State} {p np : Slot} {outcome : AllocOutcome}

theorem forkAlloc_of_full (hfull : findUnused s = none) : forkAlloc b s p outcome = s := by
  simp [forkAlloc, allocproc, hfull, forkCopy]

theorem forkAlloc_eq (hfound : findUnused s = some np) :
    forkAlloc b s p outcome = forkAllocAt b s p np outcome := by
  simp [forkAlloc, allocproc, hfound, forkAllocAt]

theorem findUnused_state (hfound : findUnused s = some np) : (s.proc np).state = .unused := by
  simpa using List.find?_some hfound

/-- `fork` touches no process but the child. -/
theorem forkAllocAt_proc_of_ne {i : Slot} (hi : i ≠ np) :
    (forkAllocAt b s p np outcome).proc i = s.proc i := by
  cases outcome <;> simp [forkAllocAt, allocprocAt, forkCopy, hi]

variable (b s p np outcome) in
theorem forkAllocAt_state :
    ((forkAllocAt b s p np outcome).proc np).state = if outcome = .ok then .used else .unused := by
  cases outcome <;> simp [forkAllocAt, allocprocAt, forkCopy, allocprocFound, allocprocReady,
    freeproc]

theorem forkAllocAt_sysCounter :
    ((forkAllocAt b s p np outcome).proc np).sysCounter = fun _ ↦ 0 := by
  cases outcome <;> simp [forkAllocAt, allocprocAt, forkCopy, allocprocFound, freeproc]

variable (b s p np outcome) in
theorem forkAllocAt_forkChild :
    (forkAllocAt b s p np outcome).forkChild =
      if outcome = .ok then Function.update s.forkChild p (some np) else s.forkChild := by
  funext i
  cases outcome <;> simp [forkAllocAt, allocprocAt, forkCopy, Function.update_apply]

variable (b s p np outcome) in
theorem forkAllocAt_parent :
    ((forkAllocAt b s p np outcome).proc np).parent =
      if outcome = .ok then (s.proc np).parent else none := by
  cases outcome <;> simp [forkAllocAt, allocprocAt, forkCopy, allocprocFound, allocprocReady,
    freeproc]

theorem forkAllocAt_initproc : (forkAllocAt b s p np outcome).initproc = s.initproc := by
  cases outcome <;> rfl

theorem forkAllocAt_child (hne : p ≠ np) :
    (forkAllocAt b s p np .ok).proc np = forkedProc b s (s.proc p) (s.proc np) := by
  cases b <;> simp [forkAllocAt, allocprocAt, forkCopy, forkedProc, hne, allocprocReady,
    allocprocFound]

/-- A `fork` has a child only if it found a slot and nothing failed. -/
theorem forkAlloc_succeeds (hfree : s.forkChild p = none)
    (hchild : (forkAlloc b s p outcome).forkChild p = some np) :
    outcome = .ok ∧ findUnused s = some np := by
  cases hfound : findUnused s with
  | none => simp [forkAlloc_of_full hfound, hfree] at hchild
  | some q =>
    rw [forkAlloc_eq hfound, forkAllocAt_forkChild] at hchild
    split_ifs at hchild with hok
    · exact ⟨hok, by simpa using hchild⟩
    · simp [hfree] at hchild

end Fork

theorem forkPublish_proc (s : State) (p i : Slot) :
    (forkPublish s p).proc i =
      if s.forkChild p = some i then { s.proc i with parent := some p, state := .runnable }
      else s.proc i := by
  cases hnp : s.forkChild p with
  | none => simp [forkPublish, hnp]
  | some np => by_cases hi : i = np <;> simp [forkPublish, hnp, hi, eq_comm]

/-- A child that `fork` has not finished is `USED` and belongs to one parent. -/
structure Forking (s : State) : Prop where
  child : ∀ p np, s.forkChild p = some np → (s.proc np).state = .used
  child_inj : ∀ p p' np, s.forkChild p = some np → s.forkChild p' = some np → p = p'

namespace Forking

variable {s s' : State} {p np : Slot}

theorem of_used (hs : Forking s) (hfork : s'.forkChild = s.forkChild)
    (hused : ∀ i, (s.proc i).state = .used → (s'.proc i).state = .used) : Forking s' where
  child p np hnp := hused np (hs.child p np (hfork ▸ hnp))
  child_inj p p' np := by
    rw [hfork]
    exact hs.child_inj p p' np

/-- `fork` takes a slot that is not `USED` yet. -/
theorem alloc (hs : Forking s) (hunused : (s.proc np).state = .unused)
    (hnew : (s'.proc np).state = .used)
    (hused : ∀ i, i ≠ np → (s.proc i).state = .used → (s'.proc i).state = .used)
    (hfork : s'.forkChild = Function.update s.forkChild p (some np)) : Forking s' := by
  have hold : ∀ i c, s.forkChild i = some c → c ≠ np := by
    rintro i c hic rfl
    simp [hs.child i c hic] at hunused
  refine ⟨fun i c hic ↦ ?_, fun i i' c hic hic' ↦ ?_⟩
  · rw [hfork] at hic
    by_cases hi : i = p
    · obtain rfl : np = c := by simpa [hi] using hic
      exact hnew
    · have hic : s.forkChild i = some c := by simpa [hi] using hic
      exact hused c (hold i c hic) (hs.child i c hic)
  · rw [hfork] at hic hic'
    by_cases hi : i = p <;> by_cases hi' : i' = p
    · rw [hi, hi']
    · obtain rfl : np = c := by simpa [hi] using hic
      exact absurd rfl (hold i' np (by simpa [hi'] using hic'))
    · obtain rfl : np = c := by simpa [hi'] using hic'
      exact absurd rfl (hold i np (by simpa [hi] using hic))
    · exact hs.child_inj i i' c (by simpa [hi] using hic) (by simpa [hi'] using hic')

/-- `fork` is done with its child. -/
theorem publish (hs : Forking s) (hnp : s.forkChild p = some np)
    (hused : ∀ i, i ≠ np → (s.proc i).state = .used → (s'.proc i).state = .used)
    (hfork : s'.forkChild = Function.update s.forkChild p none) : Forking s' := by
  have hold : ∀ i c, s'.forkChild i = some c → s.forkChild i = some c ∧ i ≠ p := by
    intro i c hic
    rw [hfork] at hic
    by_cases hi : i = p
    · simp [hi] at hic
    · exact ⟨by simpa [hi] using hic, hi⟩
  refine ⟨fun i c hic ↦ ?_, fun i i' c hic hic' ↦
    hs.child_inj i i' c (hold i c hic).1 (hold i' c hic').1⟩
  obtain ⟨hic, hi⟩ := hold i c hic
  have hne : c ≠ np := by
    rintro rfl
    exact hi (hs.child_inj i p c hic hnp)
  exact hused c hne (hs.child i c hic)

theorem forkAllocAt {b : Build} (hs : Forking s) (p : Slot) (hunused : (s.proc np).state = .unused)
    (outcome : AllocOutcome) : Forking (Kernel.forkAllocAt b s p np outcome) := by
  have hused : ∀ i, i ≠ np → (s.proc i).state = .used →
      ((Kernel.forkAllocAt b s p np outcome).proc i).state = .used := by
    intro i hi h
    rwa [forkAllocAt_proc_of_ne hi]
  by_cases hok : outcome = .ok
  · have hnew : ((Kernel.forkAllocAt b s p np outcome).proc np).state = .used := by
      rw [forkAllocAt_state, if_pos hok]
    exact hs.alloc hunused hnew hused (by rw [forkAllocAt_forkChild, if_pos hok])
  · refine hs.of_used (by rw [forkAllocAt_forkChild, if_neg hok]) fun i h ↦ hused i ?_ h
    rintro rfl
    simp [h] at hunused

theorem forkPublish (hs : Forking s) (p : Slot) : Forking (Kernel.forkPublish s p) := by
  unfold Kernel.forkPublish
  cases hnp : s.forkChild p with
  | none => exact hs
  | some np =>
    refine hs.publish hnp (fun i hi h ↦ by simpa [hi] using h) ?_
    funext i
    simp [Function.update_apply]

end Forking

/-! ## Exit and reaping -/

def reparent (s : State) (p : Slot) : State :=
  table.foldl (fun s pp ↦
    if (s.proc pp).parent = some p then
      wakeup (s.modify pp fun pr ↦ { pr with parent := s.initproc }) (some p)
        (Chan.ofPtr s.initproc)
    else s) s

def closeFiles (pr : Proc) : Proc := { pr with ofile := fun _ ↦ none }

def exitState (status : Int32) (ticks : UInt32) (pr : Proc) : Proc :=
  { pr with xstate := status, state := .zombie, etime := ticks }

/-- What `exit(status)` does to the process table: it closes the files, gives the children to
`initproc` and leaves a `ZOMBIE`. -/
def exitProc (s : State) (p : Slot) (status : Int32) : State :=
  let s := s.modify p closeFiles
  let s := reparent s p
  let s := wakeup s (some p) (Chan.ofPtr (s.proc p).parent)
  s.modify p (exitState status s.ticks)

/-- `exit(status)` up to the switch to the scheduler. -/
def exit (s : State) (h : Hart) (p : Slot) (status : Int32) : Except Fault State :=
  if s.initproc = some p then .error (.panic "init exiting")
  else .ok ((exitProc s p status).setCpu h none)

/-- What an exit does to the other processes: it may wake them and give them another parent. -/
def Rehomed (pr pr' : Proc) : Prop :=
  ∃ state parent, pr' = { pr with state := state, parent := parent } ∧
    (state = pr.state ∨ pr.state = .sleeping ∧ state = .runnable)

theorem Rehomed.refl (pr : Proc) : Rehomed pr pr := ⟨pr.state, pr.parent, rfl, .inl rfl⟩

theorem Rehomed.trans {pr pr' pr'' : Proc} (h : Rehomed pr pr') (h' : Rehomed pr' pr'') :
    Rehomed pr pr'' := by
  obtain ⟨state, parent, rfl, hstate⟩ := h
  obtain ⟨state', parent', rfl, hstate'⟩ := h'
  refine ⟨state', parent', rfl, ?_⟩
  rcases hstate with rfl | ⟨hsleep, rfl⟩
  · exact hstate'
  · rcases hstate' with rfl | ⟨hsleep', -⟩
    · exact .inr ⟨hsleep, rfl⟩
    · cases hsleep'

theorem rehomed_wakeupProc (chan : Chan) (pr : Proc) : Rehomed pr (wakeupProc chan pr) := by
  unfold wakeupProc
  split_ifs with hsleep
  · exact ⟨.runnable, pr.parent, rfl, .inr ⟨hsleep.1, rfl⟩⟩
  · exact .refl pr

theorem rehomed_wakeup (s : State) (me : Option Slot) (chan : Chan) (i : Slot) :
    Rehomed (s.proc i) ((wakeup s me chan).proc i) := by
  rw [wakeup_proc]
  split
  · exact rehomed_wakeupProc chan (s.proc i)
  · exact .refl _

theorem rehomed_reparent (s : State) (p i : Slot) :
    Rehomed (s.proc i) ((reparent s p).proc i) := by
  unfold reparent
  induction table generalizing s with
  | nil => exact .refl _
  | cons pp rest ih =>
    rw [List.foldl_cons]
    refine Rehomed.trans ?_ (ih _)
    split
    · refine Rehomed.trans ?_ (rehomed_wakeup _ _ _ i)
      by_cases hi : i = pp
      · subst hi
        exact ⟨_, s.initproc, by simp, .inl rfl⟩
      · simpa [hi] using Rehomed.refl (s.proc i)
    · exact .refl _

theorem reparent_eq (s : State) (p : Slot) :
    reparent s p = { s with proc := (reparent s p).proc } := by
  unfold reparent
  induction table generalizing s with
  | nil => rfl
  | cons pp rest ih =>
    rw [List.foldl_cons, ih]
    split <;> rfl

theorem exitProc_forkChild (s : State) (p : Slot) (status : Int32) :
    (exitProc s p status).forkChild = s.forkChild := by
  have hparted : (reparent (s.modify p closeFiles) p).forkChild = s.forkChild := by
    rw [reparent_eq]
    rfl
  simp only [exitProc, State.modify_forkChild, wakeup, hparted]

theorem rehomed_exitProc (s : State) {p i : Slot} (status : Int32) (hi : i ≠ p) :
    Rehomed (s.proc i) ((exitProc s p status).proc i) := by
  have hparted := rehomed_reparent (s.modify p closeFiles) p i
  simpa [exitProc, hi] using hparted.trans (rehomed_wakeup _ (some p) _ i)

/-- The process that exits keeps its counters and times, and closes its files. -/
theorem exitProc_self (s : State) (p : Slot) (status : Int32) :
    ∃ parent, (exitProc s p status).proc p =
      { closeFiles (s.proc p) with
        parent := parent
        xstate := status
        state := .zombie
        etime := s.ticks } := by
  obtain ⟨state, parent, hparted, -⟩ := rehomed_reparent (s.modify p closeFiles) p p
  have hticks : (reparent (s.modify p closeFiles) p).ticks = s.ticks := by rw [reparent_eq]; rfl
  have hwoken : ∀ t chan, (wakeup t (some p) chan).proc p = t.proc p ∧
      (wakeup t (some p) chan).ticks = t.ticks := fun t chan ↦ ⟨by simp [wakeup_proc], rfl⟩
  refine ⟨parent, ?_⟩
  simp only [exitProc, State.modify_proc, if_true, hwoken, hparted, hticks, exitState]

def findZombie (s : State) (p : Slot) : Option Slot :=
  table.find? fun pp ↦ (s.proc pp).parent = some p ∧ (s.proc pp).state = .zombie

theorem findZombie_spec {s : State} {p pp : Slot} (hfind : findZombie s p = some pp) :
    (s.proc pp).parent = some p ∧ (s.proc pp).state = .zombie := by
  simpa using List.find?_some hfind

def haveKids (s : State) (p : Slot) : Bool :=
  table.any fun pp ↦ (s.proc pp).parent = some p

def addCounters (counters : Fin 32 → UInt64) (pr : Proc) : Proc :=
  { pr with sysCounter := fun i ↦ pr.sysCounter i + counters i }

/-- One scan of `wait(addr)`: the return value and the state, or `none` when the caller goes to
sleep.  `copyoutFails` says that `addr` is not null and `copyout` to it fails. -/
def wait (b : Build) (s : State) (p : Slot) (copyoutFails : Bool) : Option (Int32 × State) :=
  match findZombie s p with
  | some pp =>
    let child := s.proc pp
    let s := s.modify p (addCounters child.sysCounter)
    if copyoutFails then some (-1, s) else some (child.pid, s.modify pp (freeproc b))
  | none => if !haveKids s p || (s.proc p).killed then some (-1, s) else none

/-- One scan of `waitx(addr, wtime, rtime)`.  The two times are reported with the return value. -/
def waitx (b : Build) (s : State) (p : Slot) (copyoutFails : Bool) :
    Option (Int32 × Option (UInt32 × UInt32) × State) :=
  match findZombie s p with
  | some pp =>
    let child := s.proc pp
    let times := (child.etime - child.ctime - child.rtime, child.rtime)
    if copyoutFails then some (-1, some times, s)
    else some (child.pid, some times, s.modify pp (freeproc b))
  | none => if !haveKids s p || (s.proc p).killed then some (-1, none, s) else none

/-! ## Time and tickets -/

/-- `update_time()` on one process.  The second test repeats the first one, so the branch that
would count waiting ticks is never taken. -/
def updateTimeProc (b : Build) (pr : Proc) : Proc :=
  if pr.state = .running then
    { pr with
      rtime := pr.rtime + 1
      startTime := if b = .mlfq then pr.startTime + 1 else pr.startTime }
  else if pr.state = .running then
    { pr with waitTicks := if b = .mlfq then pr.waitTicks + 1 else pr.waitTicks }
  else pr

def updateTime (b : Build) (s : State) : State :=
  { s with proc := fun p ↦ updateTimeProc b (s.proc p) }

def settickets (s : State) (p : Slot) (number : Int32) : Int32 × State :=
  if number < 0 then (-1, s)
  else (number, s.modify p fun pr ↦ { pr with tickets := number })

/-! ## Boot -/

def priorityQueueTicks : Fin queueSize → Int32
  | 0 => 1
  | 1 => 4
  | 2 => 8
  | 3 => 16

/-- The zeroed kernel after `procinit`, with the queues as `userinit` initialises them. -/
def zeroed : State where
  proc _ := {}
  cpu _ := none
  queue q :=
    { priorityQueueTicks := priorityQueueTicks q, mlfqQueue := Vector.replicate NPROC none }
  ticks := 0
  nextpid := 1
  initproc := none
  forkChild _ := none
  next := 1

def userinit (b : Build) : State :=
  match allocproc b zeroed .ok with
  | (none, s) => s
  | (some p, s) =>
    { s.modify p fun pr ↦
        { pr with
          trapframe := (pr.trapframe.setField .epc 0).setReg .sp 4096
          state := .runnable } with
      initproc := some p }

theorem findUnused_zeroed : findUnused zeroed = some 0 := by
  decide +kernel

theorem userinit_state (b : Build) (i : Slot) :
    ((userinit b).proc i).state = if i = 0 then .runnable else .unused := by
  simp only [userinit, allocproc, allocprocAt, findUnused_zeroed, reduceCtorEq, if_false]
  by_cases hi : i = 0
  · simp [hi]
  · simp [zeroed, hi]

theorem userinit_idle (b : Build) :
    (userinit b).cpu = (fun _ ↦ none) ∧ (userinit b).forkChild = fun _ ↦ none := by
  simp only [userinit, allocproc, allocprocAt, findUnused_zeroed, reduceCtorEq, if_false]
  exact ⟨rfl, rfl⟩

theorem userinit_mlfq (i : Slot) :
    ((userinit .mlfq).proc i).state = (if i = 0 then .runnable else .unused) ∧
    ((userinit .mlfq).proc i).statusQueue = false ∧
    ((userinit .mlfq).proc i).priorityQueueNumber = 0 ∧
    ((userinit .mlfq).proc i).waitTicks = 0 ∧ ((userinit .mlfq).proc i).startTime = 0 := by
  simp only [userinit, allocproc, allocprocAt, findUnused_zeroed, reduceCtorEq, if_false]
  by_cases hi : i = 0
  · simp [allocprocReady, allocprocFound, zeroed, hi]
  · simp [zeroed, hi]

end EnhancedXv6.Kernel
