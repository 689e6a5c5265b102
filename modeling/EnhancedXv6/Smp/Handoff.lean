import EnhancedXv6.Kernel.Process
import EnhancedXv6.Lottery.Scheduler
import EnhancedXv6.Transition.Ownership
import EnhancedXv6.Transition.System

/-!
# The hand-off of `p->lock` in the DEFAULT and LBS builds

`p->lock` is taken by the scheduler, released by the process it switches to, taken again by the process
when it gives up the hart, and released by the scheduler.  Around `swtch`, taking the lock, setting
`p->state`, setting `c->proc` and releasing the lock are steps of their own.  All other sections under
`p->lock` (the iterations of `wakeup`, `kill`, `update_time`, the slot search of `allocproc`, the end of
`fork`, the reaping in `wait`) are one step each and need the lock to be free.

The LBS scheduler keeps the lock of the process chosen so far while it looks at the rest of the table.
-/

namespace EnhancedXv6.Smp

open Kernel Lottery Ownership Transition

/-! ## The model -/

/-- The builds whose schedulers test `p->state` under `p->lock`. -/
inductive LockBuild
  | default | lbs
  deriving DecidableEq

def LockBuild.build : LockBuild → Build
  | .default => .default
  | .lbs => .lbs

/-- How a process gives up its hart. -/
inductive Departure
  | yield
  | sleep (chan : Chan)
  | exit (status : Int32)

/-- Where a hart is.  The process it runs may hold its own lock. -/
inductive HartPc
  /-- DEFAULT: before `acquire(&p->lock)` -/
  | poll (p : Slot)
  /-- DEFAULT: holds the lock, before the test of `p->state` -/
  | polled (p : Slot)
  /-- LBS: before the section on `p` of the first scan -/
  | count (p : Slot) (totalTickets : Int32)
  /-- LBS: before the section on `p` of the second scan -/
  | draw (p : Slot) (d : Draw) (winner : Int32)
  /-- before `p->state = RUNNING` -/
  | setRunning (p : Slot)
  /-- before `c->proc = p` and the switch -/
  | setProc (p : Slot)
  /-- the process was switched to and has not released its lock -/
  | entered (p : Slot)
  /-- the process runs -/
  | run (p : Slot)
  /-- the process took its lock to give up the hart -/
  | leaving (p : Slot) (d : Departure)
  /-- the process has set its state; before `c->proc = 0` in the scheduler -/
  | left (p : Slot)
  /-- before the release of the lock in the scheduler -/
  | cleared (p : Slot)

/-- The kernel, the owners of the process locks and the program counters. -/
structure LockState where
  kernel : State
  owner : Slot → Option Hart
  pc : Hart → HartPc

def succSlot (p : Slot) : Option Slot :=
  if h : p.val + 1 < NPROC then some ⟨p.val + 1, h⟩ else none

def loopStart : LockBuild → HartPc
  | .default => .poll 0
  | .lbs => .count 0 0

def afterRelease (b : LockBuild) (p : Slot) : HartPc :=
  match b, succSlot p with
  | .default, some q => .poll q
  | .default, none => .poll 0
  | .lbs, _ => loopStart .lbs

def depart (s : State) (p : Slot) : Departure → State
  | .yield => s.modify p (setState .runnable)
  | .sleep chan => s.modify p fun pr ↦ { pr with chan := chan, state := .sleeping }
  | .exit status => s.modify p (exitState status s.ticks)

def afterCount (k : State) (totalTickets : Int32) : State × HartPc :=
  if totalTickets > 0 then
    (k.setNext (rand k.next).2, .draw 0 {} ((rand k.next).1 % totalTickets))
  else (k, loopStart .lbs)

def afterDraw (p : Slot) (d : Draw) (winner : Int32) : HartPc :=
  match succSlot p, d.chosen with
  | some q, _ => .draw q d winner
  | none, some c => .setRunning c
  | none, none => loopStart .lbs

/-- One step of the scheduler of hart `h`, or of the process around its switch. -/
def switchStep (b : LockBuild) (s : LockState) (h : Hart) : Option LockState :=
  let k := s.kernel
  match s.pc h with
  | .poll p =>
    if s.owner p = none then
      some { s with owner := Function.update s.owner p (some h)
                    pc := Function.update s.pc h (.polled p) }
    else none
  | .polled p =>
    if (k.proc p).state = .runnable then
      some { s with pc := Function.update s.pc h (.setRunning p) }
    else
      some { s with owner := Function.update s.owner p none
                    pc := Function.update s.pc h (afterRelease b p) }
  | .count p total =>
    if s.owner p = none then
      let total := addTickets k.proc total p
      match succSlot p with
      | some q => some { s with pc := Function.update s.pc h (.count q total) }
      | none =>
        some { s with kernel := (afterCount k total).1
                      pc := Function.update s.pc h (afterCount k total).2 }
    else none
  | .draw p d winner =>
    if s.owner p = none then
      let d' := drawStep k.proc winner d p
      if d'.chosen = some p then
        let released := match d.chosen with
          | none => s.owner
          | some c => Function.update s.owner c none
        some { s with owner := Function.update released p (some h)
                      pc := Function.update s.pc h (afterDraw p d' winner) }
      else some { s with pc := Function.update s.pc h (afterDraw p d' winner) }
    else none
  | .setRunning p =>
    some { s with kernel := k.modify p fun pr ↦ { pr with state := .running }
                  pc := Function.update s.pc h (.setProc p) }
  | .setProc p =>
    some { s with kernel := k.setCpu h (some p), pc := Function.update s.pc h (.entered p) }
  | .entered p =>
    some { s with kernel := k.modify p fun pr ↦ { pr with chan := .null }
                  owner := Function.update s.owner p none
                  pc := Function.update s.pc h (.run p) }
  | .run _ => none
  | .leaving p d =>
    some { s with kernel := depart k p d, pc := Function.update s.pc h (.left p) }
  | .left p =>
    some { s with kernel := k.setCpu h none, pc := Function.update s.pc h (.cleared p) }
  | .cleared p =>
    some { s with owner := Function.update s.owner p none
                  pc := Function.update s.pc h (afterRelease b p) }

/-- The sections under `p->lock` away from the switch. -/
inductive Section
  | wakeup (chan : Chan)
  | kill (pid : Int32)
  | tick
  | alloc (outcome : AllocOutcome)
  | publish
  | reap

/-- What a section on slot `p` does when it is run by a hart whose `c->proc` is `me`; `none` when
it is not run. -/
def sectionStep (b : Build) (k : State) (me : Option Slot) (p : Slot) : Section → Option State
  | .wakeup chan => if me = some p then none else some (k.modify p (wakeupProc chan))
  | .kill pid =>
    if me.isSome ∧ (k.proc p).pid = pid then some (k.modify p killProc) else none
  | .tick => some (k.modify p (updateTimeProc b))
  | .alloc outcome => me.bind fun q ↦
      if k.forkChild q = none ∧ (k.proc p).state = .unused then
        let (child, k) := allocprocAt b k p outcome
        some (forkCopy b k q outcome child)
      else none
  | .publish => me.bind fun q ↦
      if k.forkChild q = some p then some (forkPublish k q) else none
  | .reap => me.bind fun q ↦
      if (k.proc p).parent = some q ∧ (k.proc p).state = .zombie then
        some (k.modify p (freeproc b))
      else none

def HartPc.holds : HartPc → Option Slot
  | .polled p | .setRunning p | .setProc p | .entered p | .leaving p _ | .left p | .cleared p =>
    some p
  | .draw _ d _ => d.chosen
  | .poll _ | .count _ _ | .run _ => none

/-- When a process may take its lock to give up the hart: inside `fork` it is only preempted, and
`exit` of the first process panics. -/
def MayDepart (k : State) (p : Slot) : Departure → Prop
  | .yield => True
  | .sleep _ => k.forkChild p = none
  | .exit _ => k.forkChild p = none ∧ k.initproc ≠ some p

instance (k : State) (p : Slot) : (d : Departure) → Decidable (MayDepart k p d)
  | .yield => inferInstanceAs (Decidable True)
  | .sleep _ => inferInstanceAs (Decidable (_ = _))
  | .exit _ => inferInstanceAs (Decidable (_ ∧ _))

inductive LockEvent
  | switch (h : Hart)
  | depart (h : Hart) (d : Departure)
  | critical (h : Hart) (p : Slot) (c : Section)
  /-- the loop of `reparent` in `exit`, under `wait_lock` -/
  | reparent (h : Hart)
  /-- `settickets`, which takes no lock -/
  | settickets (h : Hart) (number : Int32)

def lockNext (b : LockBuild) (s : LockState) : LockEvent → Option LockState
  | .switch h => switchStep b s h
  | .depart h d =>
    match s.pc h with
    | .run p =>
      if s.owner p = none ∧ MayDepart s.kernel p d then
        some { s with owner := Function.update s.owner p (some h)
                      pc := Function.update s.pc h (.leaving p d) }
      else none
    | _ => none
  | .critical h p c =>
    if s.owner p = none ∧ (s.pc h).holds = none then
      (sectionStep b.build s.kernel (s.kernel.cpu h) p c).map fun k ↦ { s with kernel := k }
    else none
  | .reparent h =>
    match s.pc h with
    | .run p =>
      some { s with kernel := { s.kernel with proc := fun i ↦
        { s.kernel.proc i with
          parent := if (s.kernel.proc i).parent = some p then s.kernel.initproc
            else (s.kernel.proc i).parent } } }
    | _ => none
  | .settickets h number =>
    match s.pc h with
    | .run p => some { s with kernel := (settickets s.kernel p number).2 }
    | _ => none

def handoff (b : LockBuild) : System LockState LockEvent where
  start := ⟨userinit b.build, fun _ ↦ none, fun _ ↦ loopStart b⟩
  next := lockNext b

/-! ## The invariant -/

namespace HartPc

def current : HartPc → Option Slot
  | .entered p | .run p | .leaving p _ | .left p => some p
  | _ => none

/-- The process that a hart made `RUNNING` and that has not yet set another state. -/
def engaged : HartPc → Option Slot
  | .setProc p | .entered p | .run p | .leaving p _ => some p
  | _ => none

def ready : HartPc → Option Slot
  | .setRunning p => some p
  | .draw _ d _ => d.chosen
  | _ => none

def departed : HartPc → Option Slot
  | .left p | .cleared p => some p
  | _ => none

end HartPc

/-- The processes that no hart runs: unfinished children are `USED` and have one parent. -/
structure Nursery (k : State) : Prop where
  used : ∀ i c, k.forkChild i = some c → (k.proc c).state = .used
  inj : ∀ i i' c, k.forkChild i = some c → k.forkChild i' = some c → i = i'

structure HandoffInv (k : State) (owner : Slot → Option Hart) (pc : Hart → HartPc) : Prop where
  owns : Owns owner fun h ↦ (pc h).holds
  cpu : ∀ h, k.cpu h = (pc h).current
  running : ∀ h p, (pc h).engaged = some p → (k.proc p).state = .running
  engaged : ∀ p, (k.proc p).state = .running → ∃ h, (pc h).engaged = some p
  engaged_inj : ∀ h h' p, (pc h).engaged = some p → (pc h').engaged = some p → h = h'
  ready : ∀ h p, (pc h).ready = some p → (k.proc p).state = .runnable
  departed : ∀ h p, (pc h).departed = some p → (k.proc p).state ≠ .running
  nursery : Nursery k

variable {b : LockBuild} {s s' : LockState} {h : Hart} {p : Slot} {k : State} {pc : HartPc}
  {owner : Slot → Option Hart}

/-- A change of a slot that is not `USED` leaves the unfinished children alone. -/
theorem Nursery.of_others {k k' : State} (hn : Nursery k)
    (hothers : ∀ i, i ≠ p → (k'.proc i).state = (k.proc i).state)
    (hfork : k'.forkChild = k.forkChild) (hp : (k.proc p).state ≠ .used ∨
      (k'.proc p).state = (k.proc p).state) : Nursery k' := by
  refine ⟨fun i c hic ↦ ?_, fun i i' c ↦ by rw [hfork]; exact hn.inj i i' c⟩
  have hused := hn.used i c (hfork ▸ hic)
  by_cases hcp : c = p
  · subst hcp
    rcases hp with hne | hsame
    · exact absurd hused hne
    · exact hsame.trans hused
  · exact (hothers c hcp).trans hused

/-- What holds of the program counter of each hart, after hart `h` moved to `pc`. -/
theorem update_pc {α : Type} (f : HartPc → Option α) (s : LockState) (h : Hart) (pc : HartPc) :
    (fun i ↦ f (Function.update s.pc h pc i)) =
      Function.update (fun i ↦ f (s.pc i)) h (f pc) := by
  funext i
  by_cases hi : i = h
  · subst hi
    simp
  · simp [hi]

/-- A hart moves on without changing the state of a process. -/
theorem HandoffInv.move (hinv : HandoffInv s.kernel s.owner s.pc)
    (howns : Owns owner (Function.update (fun i ↦ (s.pc i).holds) h pc.holds))
    (hcpu : k.cpu = Function.update s.kernel.cpu h pc.current)
    (hstate : ∀ i, (k.proc i).state = (s.kernel.proc i).state)
    (hfork : k.forkChild = s.kernel.forkChild) (hengaged : pc.engaged = (s.pc h).engaged)
    (hready : ∀ p, pc.ready = some p → (s.kernel.proc p).state = .runnable)
    (hdeparted : ∀ p, pc.departed = some p → (s.kernel.proc p).state ≠ .running) :
    HandoffInv k owner (Function.update s.pc h pc) := by
  have hsame : ∀ i, (Function.update s.pc h pc i).engaged = (s.pc i).engaged := by
    intro i
    by_cases hi : i = h
    · subst hi
      simpa using hengaged
    · simp [hi]
  refine ⟨by rw [update_pc HartPc.holds]; exact howns, fun i ↦ ?_, fun i p hp ↦ ?_, fun p hp ↦ ?_,
    fun i i' p hp hp' ↦ ?_, fun i p hp ↦ ?_, fun i p hp ↦ ?_, ⟨fun i c hic ↦ ?_, fun i i' c ↦ ?_⟩⟩
  · by_cases hi : i = h
    · subst hi
      simp [hcpu]
    · simpa [hcpu, hi] using hinv.cpu i
  · rw [hstate]
    exact hinv.running i p ((hsame i).symm.trans hp)
  · obtain ⟨i, hi⟩ := hinv.engaged p (hstate p ▸ hp)
    exact ⟨i, (hsame i).trans hi⟩
  · exact hinv.engaged_inj i i' p ((hsame i).symm.trans hp) ((hsame i').symm.trans hp')
  · rw [hstate]
    by_cases hi : i = h
    · exact hready p (by simpa [hi] using hp)
    · exact hinv.ready i p (by simpa [hi] using hp)
  · rw [hstate]
    by_cases hi : i = h
    · exact hdeparted p (by simpa [hi] using hp)
    · exact hinv.departed i p (by simpa [hi] using hp)
  · rw [hstate]
    exact hinv.nursery.used i c (hfork ▸ hic)
  · rw [hfork]
    exact hinv.nursery.inj i i' c

/-! ## The switch -/

/-- A program counter at which the scheduler holds no lock and has chosen no process. -/
structure HartPc.Idle (pc : HartPc) : Prop where
  holds : pc.holds = none
  current : pc.current = none
  engaged : pc.engaged = none
  ready : pc.ready = none
  departed : pc.departed = none

theorem loopStart_idle (b : LockBuild) : (loopStart b).Idle := by
  cases b <;> exact ⟨rfl, rfl, rfl, rfl, rfl⟩

theorem afterRelease_idle (b : LockBuild) (p : Slot) : (afterRelease b p).Idle := by
  unfold afterRelease
  split <;> exact ⟨rfl, rfl, rfl, rfl, rfl⟩

theorem afterCount_spec (k : State) (total : Int32) :
    (afterCount k total).2.Idle ∧ (afterCount k total).1.cpu = k.cpu ∧
      (afterCount k total).1.proc = k.proc ∧ (afterCount k total).1.forkChild = k.forkChild := by
  by_cases htotal : total > 0
  · rw [afterCount, if_pos htotal]
    exact ⟨⟨rfl, rfl, rfl, rfl, rfl⟩, k.setNext_cpu _, k.setNext_proc _, k.setNext_forkChild _⟩
  · rw [afterCount, if_neg htotal]
    exact ⟨loopStart_idle .lbs, rfl, rfl, rfl⟩

/-- After the section on a slot the LBS scheduler holds the process chosen so far. -/
theorem afterDraw_spec (p : Slot) (d : Draw) (winner : Int32) :
    (afterDraw p d winner).holds = d.chosen ∧ (afterDraw p d winner).ready = d.chosen ∧
      (afterDraw p d winner).current = none ∧ (afterDraw p d winner).engaged = none ∧
      (afterDraw p d winner).departed = none := by
  unfold afterDraw
  split
  · exact ⟨rfl, rfl, rfl, rfl, rfl⟩
  · rename_i hc
    simp [HartPc.holds, HartPc.ready, HartPc.current, HartPc.engaged, HartPc.departed, hc]
  · rename_i hc
    simp [loopStart, HartPc.holds, HartPc.ready, HartPc.current, HartPc.engaged, HartPc.departed,
      hc]

/-- A hart releases its lock and goes back to its loop. -/
theorem HandoffInv.release (hinv : HandoffInv s.kernel s.owner s.pc)
    (hholds : (s.pc h).holds = some p) (hcurrent : (s.pc h).current = none)
    (hengaged : (s.pc h).engaged = none) (hidle : pc.Idle) :
    HandoffInv s.kernel (Function.update s.owner p none) (Function.update s.pc h pc) := by
  have howns := hinv.owns.release hholds
  rw [← hidle.holds] at howns
  refine hinv.move howns ?_ (fun _ ↦ rfl) rfl (hidle.engaged.trans hengaged.symm)
    (by simp [hidle.ready]) (by simp [hidle.departed])
  rw [hidle.current, ← hcurrent, ← hinv.cpu h]
  exact (Function.update_eq_self h _).symm

/-- A hart moves on with the lock it holds, or without one. -/
theorem HandoffInv.keep (hinv : HandoffInv s.kernel s.owner s.pc)
    (hholds : pc.holds = (s.pc h).holds) (hcpu : k.cpu = Function.update s.kernel.cpu h pc.current)
    (hstate : ∀ i, (k.proc i).state = (s.kernel.proc i).state)
    (hfork : k.forkChild = s.kernel.forkChild) (hengaged : pc.engaged = (s.pc h).engaged)
    (hready : ∀ p, pc.ready = some p → (s.kernel.proc p).state = .runnable)
    (hdeparted : ∀ p, pc.departed = some p → (s.kernel.proc p).state ≠ .running) :
    HandoffInv k s.owner (Function.update s.pc h pc) := by
  refine hinv.move ?_ hcpu hstate hfork hengaged hready hdeparted
  rw [hholds]
  simpa only [Function.update_eq_self] using hinv.owns

theorem HandoffInv.holds_inj (hinv : HandoffInv s.kernel s.owner s.pc) {h' : Hart}
    (hp : (s.pc h).holds = some p) (hp' : (s.pc h').holds = some p) : h' = h := by
  have howner := (hinv.owns p h).mpr hp
  have howner' := (hinv.owns p h').mpr hp'
  exact Option.some.inj (howner'.symm.trans howner)

theorem HartPc.holds_of_ready {pc : HartPc} (hp : pc.ready = some p) : pc.holds = some p := by
  cases pc <;> first | exact hp | cases hp

theorem HartPc.holds_of_departed {pc : HartPc} (hp : pc.departed = some p) :
    pc.holds = some p := by
  cases pc <;> first | exact hp | cases hp

/-- A hart sets the state of a process it holds, on one side of the switch. -/
theorem HandoffInv.write (hinv : HandoffInv s.kernel s.owner s.pc)
    (hholds : (s.pc h).holds = some p) (hpc : pc.holds = some p)
    (hcurrent : pc.current = (s.pc h).current)
    (hcpu : k.cpu = s.kernel.cpu) (hfork : k.forkChild = s.kernel.forkChild)
    (hothers : ∀ q, q ≠ p → (k.proc q).state = (s.kernel.proc q).state)
    (hused : (s.kernel.proc p).state ≠ .used)
    (hbefore : ∀ i q, (s.pc i).engaged = some q → (i = h ↔ q = p))
    (hafter : ∀ q, pc.engaged = some q ↔ q = p ∧ (k.proc p).state = .running)
    (hready : pc.ready = none)
    (hdeparted : ∀ q, pc.departed = some q → q = p ∧ (k.proc p).state ≠ .running) :
    HandoffInv k s.owner (Function.update s.pc h pc) := by
  have hself : Function.update s.pc h pc h = pc := Function.update_self h pc s.pc
  have hother : ∀ {i}, i ≠ h → Function.update s.pc h pc i = s.pc i :=
    fun hi ↦ Function.update_of_ne hi _ _
  have hfree : ∀ {i q}, i ≠ h → (s.pc i).holds = some q → q ≠ p := by
    rintro i q hi hq rfl
    exact hi (hinv.holds_inj hholds hq)
  have howns : Owns s.owner fun i ↦ (Function.update s.pc h pc i).holds := by
    rw [update_pc HartPc.holds, hpc, ← hholds]
    simpa only [Function.update_eq_self] using hinv.owns
  refine ⟨howns, fun i ↦ ?_, fun i q hq ↦ ?_, fun q hq ↦ ?_, fun i i' q hq hq' ↦ ?_,
    fun i q hq ↦ ?_, fun i q hq ↦ ?_, hinv.nursery.of_others hothers hfork (.inl hused)⟩
  · rw [hcpu, hinv.cpu i]
    by_cases hi : i = h
    · rw [hi, hself, hcurrent]
    · rw [hother hi]
  · by_cases hi : i = h
    · rw [hi, hself] at hq
      obtain ⟨rfl, hrunning⟩ := (hafter q).mp hq
      exact hrunning
    · rw [hother hi] at hq
      exact (hothers q (mt (hbefore i q hq).mpr hi)).trans (hinv.running i q hq)
  · by_cases hqp : q = p
    · subst hqp
      exact ⟨h, by rw [hself]; exact (hafter q).mpr ⟨rfl, hq⟩⟩
    · obtain ⟨i, hi⟩ := hinv.engaged q ((hothers q hqp).symm.trans hq)
      exact ⟨i, by rw [hother (mt (hbefore i q hi).mp hqp)]; exact hi⟩
  · by_cases hi : i = h <;> by_cases hi' : i' = h
    · rw [hi, hi']
    · rw [hi, hself] at hq
      rw [hother hi'] at hq'
      exact absurd ((hbefore i' q hq').mpr ((hafter q).mp hq).1) hi'
    · rw [hi', hself] at hq'
      rw [hother hi] at hq
      exact absurd ((hbefore i q hq).mpr ((hafter q).mp hq').1) hi
    · rw [hother hi] at hq
      rw [hother hi'] at hq'
      exact hinv.engaged_inj i i' q hq hq'
  · by_cases hi : i = h
    · rw [hi, hself, hready] at hq
      cases hq
    · rw [hother hi] at hq
      exact (hothers q (hfree hi (HartPc.holds_of_ready hq))).trans (hinv.ready i q hq)
  · by_cases hi : i = h
    · rw [hi, hself] at hq
      obtain ⟨rfl, hstate⟩ := hdeparted q hq
      exact hstate
    · rw [hother hi] at hq
      rw [hothers q (hfree hi (HartPc.holds_of_departed hq))]
      exact hinv.departed i q hq

/-- `p->state = RUNNING`, under the lock under which the scheduler tested for `RUNNABLE`. -/
theorem HandoffInv.setRunning (hinv : HandoffInv s.kernel s.owner s.pc)
    (hpc : s.pc h = .setRunning p) :
    HandoffInv (s.kernel.modify p fun pr ↦ { pr with state := .running }) s.owner
      (Function.update s.pc h (.setProc p)) := by
  have hrunnable := hinv.ready h p (by rw [hpc]; rfl)
  refine hinv.write (by rw [hpc]; rfl) rfl (by rw [hpc]; rfl) rfl rfl (fun q hq ↦ by simp [hq])
    (by simp [hrunnable]) (fun i q hq ↦ iff_of_false ?_ ?_) (fun q ↦ ?_) rfl
    (fun q hq ↦ by cases hq)
  · rintro rfl
    rw [hpc] at hq
    cases hq
  · rintro rfl
    rw [hinv.running i q hq] at hrunnable
    cases hrunnable
  · simp [HartPc.engaged, eq_comm]

theorem depart_spec (k : State) (p : Slot) (d : Departure) :
    (depart k p d).cpu = k.cpu ∧ (depart k p d).forkChild = k.forkChild ∧
      (∀ q, q ≠ p → ((depart k p d).proc q).state = (k.proc q).state) ∧
      ((depart k p d).proc p).state ≠ .running := by
  cases d <;> exact ⟨rfl, rfl, fun q hq ↦ by simp [depart, hq],
    by simp [depart, setState, exitState]⟩

/-- The process sets its state and switches to the scheduler. -/
theorem HandoffInv.depart {d : Departure} (hinv : HandoffInv s.kernel s.owner s.pc)
    (hpc : s.pc h = .leaving p d) :
    HandoffInv (depart s.kernel p d) s.owner (Function.update s.pc h (.left p)) := by
  have hengaged : (s.pc h).engaged = some p := by rw [hpc]; rfl
  have hrunning := hinv.running h p hengaged
  obtain ⟨hcpu, hfork, hothers, hstate⟩ := depart_spec s.kernel p d
  refine hinv.write (by rw [hpc]; rfl) rfl (by rw [hpc]; rfl) hcpu hfork hothers
    (by simp [hrunning]) (fun i q hq ↦ ⟨?_, ?_⟩) (fun q ↦ ?_) rfl (fun q hq ↦ ?_)
  · rintro rfl
    exact Option.some.inj (hq.symm.trans hengaged)
  · rintro rfl
    exact hinv.engaged_inj i h q hq hengaged
  · exact iff_of_false (by simp [HartPc.engaged]) fun hq ↦ hstate hq.2
  · exact ⟨(Option.some.inj hq).symm, hstate⟩

/-- `c->proc` of a hart that does not change it. -/
theorem HandoffInv.cpu_update (hinv : HandoffInv s.kernel s.owner s.pc)
    (hcurrent : pc.current = (s.pc h).current) :
    s.kernel.cpu = Function.update s.kernel.cpu h pc.current := by
  rw [hcurrent, ← hinv.cpu h]
  exact (Function.update_eq_self h _).symm

theorem HandoffInv.acquire (hinv : HandoffInv s.kernel s.owner s.pc) (hfree : s.owner p = none)
    (hnone : (s.pc h).holds = none) (hholds : pc.holds = some p)
    (hcurrent : pc.current = (s.pc h).current) (hengaged : pc.engaged = (s.pc h).engaged)
    (hready : pc.ready = none) (hdeparted : pc.departed = none) :
    HandoffInv s.kernel (Function.update s.owner p (some h)) (Function.update s.pc h pc) := by
  refine hinv.move ?_ (hinv.cpu_update hcurrent) (fun _ ↦ rfl) rfl hengaged (by simp [hready])
    (by simp [hdeparted])
  rw [hholds]
  exact hinv.owns.acquire hfree hnone

/-- The second scan of the LBS scheduler keeps its choice, or takes the process at hand. -/
theorem drawStep_chosen (proc : Slot → Proc) (winner : Int32) (d : Draw) (p : Slot) :
    ((drawStep proc winner d p).chosen = some p ∧ (proc p).state = .runnable) ∨
      (drawStep proc winner d p).chosen = d.chosen := by
  unfold drawStep
  split
  · rename_i hrunnable
    dsimp only
    split
    · exact .inl ⟨rfl, hrunnable⟩
    · exact .inr rfl
  · exact .inr rfl

/-- The section of the second scan on a slot whose lock is free. -/
theorem HandoffInv.draw {d : Draw} {winner : Int32} (hinv : HandoffInv s.kernel s.owner s.pc)
    (hpc : s.pc h = .draw p d winner) (hfree : s.owner p = none)
    (hstep : switchStep b s h = some s') : HandoffInv s'.kernel s'.owner s'.pc := by
  have hholds : (s.pc h).holds = d.chosen := by rw [hpc]; rfl
  have hchosen : d.chosen ≠ some p := by
    intro hd
    rw [(hinv.owns p h).mpr (hholds.trans hd)] at hfree
    cases hfree
  obtain ⟨hholds', hready', hcurrent', hengaged', hdeparted'⟩ :=
    afterDraw_spec p (drawStep s.kernel.proc winner d p) winner
  have hcurrent : (afterDraw p (drawStep s.kernel.proc winner d p) winner).current =
      (s.pc h).current := by rw [hcurrent', hpc]; rfl
  have hengaged : (afterDraw p (drawStep s.kernel.proc winner d p) winner).engaged =
      (s.pc h).engaged := by rw [hengaged', hpc]; rfl
  simp only [switchStep, hpc, hfree, if_true] at hstep
  rcases drawStep_chosen s.kernel.proc winner d p with ⟨hnew, hrunnable⟩ | hsame
  · rw [if_pos hnew] at hstep
    cases hstep
    refine hinv.move ?_ (hinv.cpu_update hcurrent) (fun _ ↦ rfl) rfl hengaged (fun q hq ↦ ?_)
      (by simp [hdeparted'])
    · rw [hholds', hnew]
      cases hd : d.chosen with
      | none => exact hinv.owns.acquire hfree (hholds.trans hd)
      | some c =>
        have hcp : p ≠ c := fun h ↦ hchosen (h ▸ hd)
        have hreleased := hinv.owns.release (hholds.trans hd)
        simpa using hreleased.acquire (l := p) (by simpa [hcp] using hfree)
          (Function.update_self h _ _)
    · rw [hready', hnew] at hq
      exact Option.some.inj hq ▸ hrunnable
  · rw [if_neg (by rw [hsame]; exact hchosen)] at hstep
    cases hstep
    refine hinv.keep (by rw [hholds', hsame, hholds]) (hinv.cpu_update hcurrent) (fun _ ↦ rfl) rfl
      hengaged (fun q hq ↦ ?_) (by simp [hdeparted'])
    rw [hready', hsame] at hq
    exact hinv.ready h q (by rw [hpc]; exact hq)

theorem HandoffInv.count {total : Int32} (hinv : HandoffInv s.kernel s.owner s.pc)
    (hpc : s.pc h = .count p total) (hstep : switchStep b s h = some s') :
    HandoffInv s'.kernel s'.owner s'.pc := by
  have hmove : ∀ {pc : HartPc} {k : State}, pc.Idle → k.cpu = s.kernel.cpu →
      k.proc = s.kernel.proc → k.forkChild = s.kernel.forkChild →
      HandoffInv k s.owner (Function.update s.pc h pc) := by
    intro pc k hidle hcpu hproc hfork
    refine hinv.keep (by rw [hidle.holds, hpc]; rfl) ?_ (fun i ↦ by rw [hproc]) hfork
      (by rw [hidle.engaged, hpc]; rfl) (by simp [hidle.ready]) (by simp [hidle.departed])
    rw [hcpu]
    exact hinv.cpu_update (by rw [hidle.current, hpc]; rfl)
  simp only [switchStep, hpc, Option.ite_none_right_eq_some] at hstep
  obtain ⟨-, hstep⟩ := hstep
  split at hstep
  · cases hstep
    exact hmove ⟨rfl, rfl, rfl, rfl, rfl⟩ rfl rfl rfl
  · cases hstep
    obtain ⟨hidle, hcpu, hproc, hfork⟩ :=
      afterCount_spec s.kernel (addTickets s.kernel.proc total p)
    exact hmove hidle hcpu hproc hfork

/-- Every step of a scheduler, or of a process around its switch, keeps the invariant. -/
theorem HandoffInv.switchStep (hinv : HandoffInv s.kernel s.owner s.pc)
    (hstep : switchStep b s h = some s') : HandoffInv s'.kernel s'.owner s'.pc := by
  cases hpc : s.pc h with
  | poll p =>
    simp only [Smp.switchStep, hpc, Option.ite_none_right_eq_some] at hstep
    obtain ⟨hfree, hs'⟩ := hstep
    cases hs'
    exact hinv.acquire hfree (by rw [hpc]; rfl) rfl (by rw [hpc]; rfl) (by rw [hpc]; rfl) rfl rfl
  | polled p =>
    simp only [Smp.switchStep, hpc] at hstep
    split at hstep
    · rename_i hrunnable
      cases hstep
      refine hinv.keep (by rw [hpc]; rfl) (hinv.cpu_update (by rw [hpc]; rfl)) (fun _ ↦ rfl) rfl
        (by rw [hpc]; rfl) (fun q hq ↦ ?_) (fun q hq ↦ by cases hq)
      obtain rfl : p = q := Option.some.inj hq
      exact hrunnable
    · cases hstep
      exact hinv.release (by rw [hpc]; rfl) (by rw [hpc]; rfl) (by rw [hpc]; rfl)
        (afterRelease_idle b p)
  | count p total => exact hinv.count hpc hstep
  | draw p d winner =>
    have hfree : s.owner p = none := by
      simp only [Smp.switchStep, hpc, Option.ite_none_right_eq_some] at hstep
      exact hstep.1
    exact hinv.draw hpc hfree hstep
  | setRunning p =>
    simp only [Smp.switchStep, hpc] at hstep
    cases hstep
    exact hinv.setRunning hpc
  | setProc p =>
    simp only [Smp.switchStep, hpc] at hstep
    cases hstep
    refine hinv.keep (by rw [hpc]; rfl) ?_ (fun _ ↦ rfl) rfl (by rw [hpc]; rfl)
      (fun q hq ↦ by cases hq) (fun q hq ↦ by cases hq)
    funext i
    simp [HartPc.current, Function.update_apply]
  | entered p =>
    simp only [Smp.switchStep, hpc] at hstep
    cases hstep
    have hreleased := hinv.owns.release (by rw [hpc]; rfl : (s.pc h).holds = some p)
    refine hinv.move hreleased (hinv.cpu_update (by rw [hpc]; rfl)) (fun i ↦ ?_) rfl
      (by rw [hpc]; rfl) (fun q hq ↦ by cases hq) (fun q hq ↦ by cases hq)
    by_cases hi : i = p <;> simp [hi]
  | run p => simp [Smp.switchStep, hpc] at hstep
  | leaving p d =>
    simp only [Smp.switchStep, hpc] at hstep
    cases hstep
    exact hinv.depart hpc
  | left p =>
    simp only [Smp.switchStep, hpc] at hstep
    cases hstep
    refine hinv.keep (by rw [hpc]; rfl) ?_ (fun _ ↦ rfl) rfl (by rw [hpc]; rfl)
      (fun q hq ↦ by cases hq) (fun q hq ↦ ?_)
    · funext i
      simp [HartPc.current, Function.update_apply]
    · exact hinv.departed h q (by rw [hpc]; exact hq)
  | cleared p =>
    simp only [Smp.switchStep, hpc] at hstep
    cases hstep
    exact hinv.release (by rw [hpc]; rfl) (by rw [hpc]; rfl) (by rw [hpc]; rfl)
      (afterRelease_idle b p)

/-! ## The other sections -/

/-- The section of `fork` that takes a slot: it leaves the slot `USED` and remembers it, or gives it
back. -/
theorem alloc_spec (b : Build) (k : State) (q p : Slot) (outcome : AllocOutcome) :
    let k' := forkCopy b (allocprocAt b k p outcome).2 q outcome (allocprocAt b k p outcome).1
    k'.cpu = k.cpu ∧ (∀ i, i ≠ p → (k'.proc i).state = (k.proc i).state) ∧
      (((k'.proc p).state = .used ∧ k'.forkChild = Function.update k.forkChild q (some p)) ∨
        ((k'.proc p).state = .unused ∧ k'.forkChild = k.forkChild)) := by
  cases outcome with
  | noTrapframe =>
    exact ⟨rfl, fun i hi ↦ by simp [forkCopy, allocprocAt, hi],
      .inr ⟨by simp [forkCopy, allocprocAt, freeproc], rfl⟩⟩
  | noPagetable =>
    exact ⟨rfl, fun i hi ↦ by simp [forkCopy, allocprocAt, hi],
      .inr ⟨by simp [forkCopy, allocprocAt, freeproc], rfl⟩⟩
  | noCopy =>
    exact ⟨rfl, fun i hi ↦ by simp [forkCopy, allocprocAt, hi],
      .inr ⟨by simp [forkCopy, allocprocAt, freeproc], rfl⟩⟩
  | ok =>
    refine ⟨rfl, fun i hi ↦ by simp [forkCopy, allocprocAt, hi],
      .inl ⟨by simp [forkCopy, allocprocAt, allocprocReady, allocprocFound], ?_⟩⟩
    funext i
    simp [forkCopy, allocprocAt, Function.update_apply]

theorem Nursery.alloc {k k' : State} {q : Slot} (hn : Nursery k)
    (hothers : ∀ i, i ≠ p → (k'.proc i).state = (k.proc i).state)
    (hunused : (k.proc p).state = .unused) (hused : (k'.proc p).state = .used)
    (hfork : k'.forkChild = Function.update k.forkChild q (some p)) : Nursery k' := by
  have hold : ∀ i c, k.forkChild i = some c → c ≠ p := by
    rintro i c hic rfl
    rw [hn.used i c hic] at hunused
    cases hunused
  have hnew : ∀ i c, k'.forkChild i = some c →
      (i = q ∧ c = p) ∨ (i ≠ q ∧ k.forkChild i = some c) := by
    intro i c hic
    rw [hfork] at hic
    by_cases hi : i = q
    · exact .inl ⟨hi, by simpa [hi, eq_comm] using hic⟩
    · exact .inr ⟨hi, by simpa [hi] using hic⟩
  refine ⟨fun i c hic ↦ ?_, fun i i' c hic hic' ↦ ?_⟩
  · rcases hnew i c hic with ⟨-, rfl⟩ | ⟨-, hic⟩
    · exact hused
    · exact (hothers c (hold i c hic)).trans (hn.used i c hic)
  · rcases hnew i c hic with ⟨rfl, rfl⟩ | ⟨-, hic⟩ <;>
      rcases hnew i' c hic' with ⟨rfl, hc⟩ | ⟨-, hic'⟩
    · rfl
    · exact absurd rfl (hold i' c hic')
    · exact absurd hc (hold i c hic)
    · exact hn.inj i i' c hic hic'

theorem Nursery.publish {k k' : State} {q : Slot} (hn : Nursery k)
    (hothers : ∀ i, i ≠ p → (k'.proc i).state = (k.proc i).state)
    (hp : k.forkChild q = some p) (hfork : k'.forkChild = Function.update k.forkChild q none) :
    Nursery k' := by
  have hold : ∀ i c, k'.forkChild i = some c → k.forkChild i = some c ∧ c ≠ p := by
    intro i c hic
    rw [hfork] at hic
    by_cases hi : i = q
    · simp [hi] at hic
    · have hold : k.forkChild i = some c := by simpa [hi] using hic
      refine ⟨hold, ?_⟩
      rintro rfl
      exact hi (hn.inj i q c hold hp)
  refine ⟨fun i c hic ↦ ?_, fun i i' c hic hic' ↦ hn.inj i i' c (hold i c hic).1 (hold i' c hic').1⟩
  obtain ⟨hic, hcp⟩ := hold i c hic
  exact (hothers c hcp).trans (hn.used i c hic)

/-- What a section does to the states: it touches one slot, and neither starts nor stops a
`RUNNING` process. -/
structure SectionSpec (p : Slot) (k k' : State) : Prop where
  cpu : k'.cpu = k.cpu
  others : ∀ i, i ≠ p → (k'.proc i).state = (k.proc i).state
  running : (k'.proc p).state = .running ↔ (k.proc p).state = .running
  nursery : Nursery k'

theorem sectionSpec_modify {f : Proc → Proc} (hn : Nursery k)
    (hrunning : (f (k.proc p)).state = .running ↔ (k.proc p).state = .running)
    (hused : (k.proc p).state ≠ .used ∨ (f (k.proc p)).state = (k.proc p).state) :
    SectionSpec p k (k.modify p f) := by
  have hothers : ∀ i, i ≠ p → ((k.modify p f).proc i).state = (k.proc i).state :=
    fun i hi ↦ by simp [hi]
  exact ⟨rfl, hothers, by simpa using hrunning,
    hn.of_others hothers rfl (by simpa using hused)⟩

theorem sectionSpec_of_step {b : Build} {k' : State} {me : Option Slot} {c : Section}
    (hn : Nursery k) (hstep : sectionStep b k me p c = some k') : SectionSpec p k k' := by
  cases c with
  | wakeup chan =>
    simp only [sectionStep, Option.ite_none_left_eq_some] at hstep
    cases hstep.2
    refine sectionSpec_modify hn ?_ ?_ <;> unfold wakeupProc <;> split <;> simp_all
  | kill pid =>
    simp only [sectionStep, Option.ite_none_right_eq_some] at hstep
    cases hstep.2
    refine sectionSpec_modify hn ?_ ?_ <;> unfold killProc <;>
      by_cases hsleep : (k.proc p).state = .sleeping <;> simp [hsleep]
  | tick =>
    simp only [sectionStep] at hstep
    cases hstep
    have hsame : (updateTimeProc b (k.proc p)).state = (k.proc p).state := by
      unfold updateTimeProc
      split <;> rfl
    exact sectionSpec_modify hn (by rw [hsame]) (.inr hsame)
  | alloc outcome =>
    obtain ⟨q, -, hq⟩ := Option.bind_eq_some_iff.mp hstep
    rw [Option.ite_none_right_eq_some] at hq
    obtain ⟨⟨-, hunused⟩, hk'⟩ := hq
    have hk' : forkCopy b (allocprocAt b k p outcome).2 q outcome (allocprocAt b k p outcome).1 =
        k' := Option.some.inj hk'
    subst hk'
    obtain ⟨hcpu, hothers, ⟨hused, hfork⟩ | ⟨hagain, hfork⟩⟩ := alloc_spec b k q p outcome
    · exact ⟨hcpu, hothers, iff_of_false (by rw [hused]; decide) (by rw [hunused]; decide),
        hn.alloc hothers hunused hused hfork⟩
    · exact ⟨hcpu, hothers, iff_of_false (by rw [hagain]; decide) (by rw [hunused]; decide),
        hn.of_others hothers hfork (.inl (by simp [hunused]))⟩
  | publish =>
    obtain ⟨q, -, hq⟩ := Option.bind_eq_some_iff.mp hstep
    rw [Option.ite_none_right_eq_some] at hq
    obtain ⟨hp, hk'⟩ := hq
    cases hk'
    have hothers : ∀ i, i ≠ p → ((forkPublish k q).proc i).state = (k.proc i).state :=
      fun i hi ↦ by simp [forkPublish, hp, hi]
    refine ⟨by simp [forkPublish, hp], hothers, ?_, hn.publish hothers hp ?_⟩
    · simp [forkPublish, hp, hn.used q p hp]
    · funext i
      simp [forkPublish, hp, Function.update_apply]
  | reap =>
    obtain ⟨q, -, hq⟩ := Option.bind_eq_some_iff.mp hstep
    rw [Option.ite_none_right_eq_some] at hq
    obtain ⟨⟨-, hzombie⟩, hk'⟩ := hq
    cases hk'
    exact sectionSpec_modify hn (by simp [freeproc, hzombie]) (.inl (by simp [hzombie]))

/-- The kernel changes while the harts stay where they are. -/
theorem HandoffInv.kernel (hinv : HandoffInv s.kernel s.owner s.pc) (hcpu : k.cpu = s.kernel.cpu)
    (hheld : ∀ q, s.owner q ≠ none → (k.proc q).state = (s.kernel.proc q).state)
    (hrunning : ∀ q, (k.proc q).state = .running ↔ (s.kernel.proc q).state = .running)
    (hnursery : Nursery k) : HandoffInv k s.owner s.pc := by
  refine ⟨hinv.owns, fun i ↦ by rw [hcpu]; exact hinv.cpu i,
    fun i q hq ↦ (hrunning q).mpr (hinv.running i q hq),
    fun q hq ↦ hinv.engaged q ((hrunning q).mp hq), hinv.engaged_inj, fun i q hq ↦ ?_,
    fun i q hq ↦ (hrunning q).not.mpr (hinv.departed i q hq), hnursery⟩
  have howner : s.owner q = some i := (hinv.owns q i).mpr (HartPc.holds_of_ready hq)
  exact (hheld q (by simp [howner])).trans (hinv.ready i q hq)

theorem settickets_frame (k : State) (p : Slot) (number : Int32) :
    (settickets k p number).2.cpu = k.cpu ∧ (settickets k p number).2.forkChild = k.forkChild ∧
      ∀ i, ((settickets k p number).2.proc i).state = (k.proc i).state := by
  unfold settickets
  split
  · exact ⟨rfl, rfl, fun _ ↦ rfl⟩
  · refine ⟨rfl, rfl, fun i ↦ ?_⟩
    by_cases hi : i = p <;> simp [hi]

theorem HandoffInv.next {e : LockEvent} (hinv : HandoffInv s.kernel s.owner s.pc)
    (hnext : (handoff b).next s e = some s') : HandoffInv s'.kernel s'.owner s'.pc := by
  replace hnext : lockNext b s e = some s' := hnext
  cases e with
  | switch h => exact hinv.switchStep hnext
  | depart h d =>
    simp only [lockNext] at hnext
    split at hnext
    · rename_i p hpc
      obtain ⟨⟨hfree, -⟩, hs'⟩ := Option.ite_none_right_eq_some.mp hnext
      cases hs'
      exact hinv.acquire hfree (by simp [hpc, HartPc.holds]) rfl (by simp [hpc, HartPc.current])
        (by simp [hpc, HartPc.engaged]) rfl rfl
    · cases hnext
  | critical h p c =>
    obtain ⟨⟨hfree, -⟩, hmap⟩ := Option.ite_none_right_eq_some.mp hnext
    obtain ⟨k, hk, hs'⟩ := Option.map_eq_some_iff.mp hmap
    cases hs'
    have hspec := sectionSpec_of_step hinv.nursery hk
    refine hinv.kernel hspec.cpu (fun q hq ↦ hspec.others q ?_) (fun q ↦ ?_) hspec.nursery
    · rintro rfl
      exact hq hfree
    · by_cases hq : q = p
      · exact hq ▸ hspec.running
      · rw [hspec.others q hq]
  | reparent h =>
    simp only [lockNext] at hnext
    split at hnext
    · cases hnext
      exact hinv.kernel rfl (fun _ _ ↦ rfl) (fun _ ↦ Iff.rfl)
        ⟨hinv.nursery.used, hinv.nursery.inj⟩
    · cases hnext
  | settickets h number =>
    simp only [lockNext] at hnext
    split at hnext
    · rename_i p _
      cases hnext
      obtain ⟨hcpu, hfork, hstate⟩ := settickets_frame s.kernel p number
      refine hinv.kernel hcpu (fun q _ ↦ hstate q) (fun q ↦ by rw [hstate q]) ⟨?_, ?_⟩
      · intro i c hic
        rw [hstate]
        exact hinv.nursery.used i c (hfork ▸ hic)
      · rw [hfork]
        exact hinv.nursery.inj
    · cases hnext

theorem handoffInv_start :
    HandoffInv (handoff b).start.kernel (handoff b).start.owner (handoff b).start.pc := by
  obtain ⟨hcpu, hfork⟩ := userinit_idle b.build
  have hstart : (loopStart b).holds = none ∧ (loopStart b).current = none ∧
      (loopStart b).engaged = none ∧ (loopStart b).ready = none ∧
      (loopStart b).departed = none := by
    cases b <;> exact ⟨rfl, rfl, rfl, rfl, rfl⟩
  obtain ⟨hholds, hcurrent, hengaged, hready, hdeparted⟩ := hstart
  have hstopped : ∀ p, ((userinit b.build).proc p).state ≠ .running := by
    intro p
    rw [userinit_state]
    split <;> decide
  exact {
    owns := by simp [handoff, Owns, hholds]
    cpu := by simp [handoff, hcpu, hcurrent]
    running := by simp [handoff, hengaged]
    engaged := fun p hp ↦ absurd hp (hstopped p)
    engaged_inj := by simp [handoff, hengaged]
    ready := by simp [handoff, hready]
    departed := by simp [handoff, hdeparted]
    nursery := ⟨by simp [handoff, hfork], by simp [handoff, hfork]⟩ }

/-! ## One hart per process -/

/-- A `RUNNING` process is `c->proc` of exactly one hart, or it is about to be and that hart holds
its lock; a process in another state whose lock is free is on no hart. -/
structure OneHart (s : LockState) : Prop where
  running : ∀ p, (s.kernel.proc p).state = .running →
    (∃! h, s.kernel.cpu h = some p) ∨ ∃ h, s.owner p = some h ∧ s.pc h = .setProc p
  stopped : ∀ p, (s.kernel.proc p).state ≠ .running → s.owner p = none →
    ∀ h, s.kernel.cpu h ≠ some p

namespace HartPc

/-- A hart whose `c->proc` is `p` runs it or has just switched away from it. -/
theorem engaged_or_departed {pc : HartPc} (h : pc.current = some p) :
    pc.engaged = some p ∨ pc.departed = some p := by
  cases pc <;> simp_all [current, engaged, departed]

theorem current_or_setProc {pc : HartPc} (h : pc.engaged = some p) :
    pc.current = some p ∨ pc = .setProc p := by
  cases pc <;> simp_all [current, engaged]

end HartPc

theorem HandoffInv.oneHart (hinv : HandoffInv s.kernel s.owner s.pc) : OneHart s := by
  refine ⟨fun p hp ↦ ?_, fun p hp hfree h hcpu ↦ ?_⟩
  · obtain ⟨h, hh⟩ := hinv.engaged p hp
    rcases HartPc.current_or_setProc hh with hcurrent | hpc
    · refine .inl ⟨h, (hinv.cpu h).trans hcurrent, fun h' hcpu ↦ ?_⟩
      rcases HartPc.engaged_or_departed ((hinv.cpu h').symm.trans hcpu) with hh' | hh'
      · exact hinv.engaged_inj h' h p hh' hh
      · exact absurd hp (hinv.departed h' p hh')
    · exact .inr ⟨h, (hinv.owns p h).mpr (by simp [hpc, HartPc.holds]), hpc⟩
  · rcases HartPc.engaged_or_departed ((hinv.cpu h).symm.trans hcpu) with hh | hh
    · exact hp (hinv.running h p hh)
    · have howner := (hinv.owns p h).mpr (HartPc.holds_of_departed hh)
      rw [hfree] at howner
      cases howner

/-- In every reachable state of the DEFAULT and of the LBS kernel, on any number of harts, a process
is run by one hart at a time. -/
theorem oneHart_of_reachable (hs : (handoff b).Reachable (fun _ _ ↦ True) s) : OneHart s := by
  have hinv := hs.invariant (fun s ↦ HandoffInv s.kernel s.owner s.pc) handoffInv_start
    fun _ _ _ hinv _ hnext ↦ hinv.next hnext
  exact hinv.oneHart

set_option maxRecDepth 100000 in
theorem oneHart_firstSwitch :
    ∃ s, ((handoff .default).Reachable (fun _ _ ↦ True) s ∧
      (s.kernel.proc 0).state = .running ∧ s.kernel.cpu 0 = some 0) ∧ OneHart s := by
  obtain ⟨s, hs, hcpu⟩ := (handoff .default).exists_reachable (fun _ _ ↦ True)
    (fun s ↦ (s.kernel.proc 0).state = .running ∧ s.kernel.cpu 0 = some 0)
    (List.replicate 5 (.switch 0)) (by decide +kernel)
  exact ⟨s, ⟨hs, hcpu⟩, oneHart_of_reachable hs⟩

end EnhancedXv6.Smp
