import EnhancedXv6.Kernel.Process
import EnhancedXv6.Transition.System

/-!
# The life of processes

The process table under the operations that create, end and reap processes, performed in any order by
any processes.  Every process that is `RUNNING` may act, and `move` stands for whatever switches a
process between `RUNNABLE`, `RUNNING` and `SLEEPING`: the schedulers, `yield`, `sleep`, `wakeup` and a
`wait` that blocks.  What is proved here holds for each scheduler and any number of harts, as far as
each operation is one step.  `fork` takes any `UNUSED` slot, since harts that search the table at the
same time pass over the slots that the others have taken.
-/

namespace EnhancedXv6.Lifecycle

open Kernel Transition

def Live (state : Procstate) : Prop :=
  state = .runnable ∨ state = .running ∨ state = .sleeping

instance (state : Procstate) : Decidable (Live state) :=
  inferInstanceAs (Decidable (_ ∨ _ ∨ _))

def Dead (state : Procstate) : Prop :=
  state = .unused ∨ state = .zombie

instance (state : Procstate) : Decidable (Dead state) :=
  inferInstanceAs (Decidable (_ ∨ _))

theorem not_dead_of_live {state : Procstate} (h : Live state) : ¬Dead state := by
  rcases h with rfl | rfl | rfl <;> simp [Dead]

inductive LifeEvent
  /-- a live process is dispatched, preempted, put to sleep or woken -/
  | move (p : Slot) (state : Procstate)
  /-- the MLFQ code changes its fields of a live process -/
  | requeue (p : Slot) (level : ℕ) (startTime waitTicks : Int32)
  /-- `clockintr` does `ticks++` -/
  | tick
  /-- the section of `update_time()` for one process -/
  | visit (p : Slot)
  /-- `syscall()` counts the call with number `num` that it has completed -/
  | complete (p : Slot) (num : Fin 32)
  /-- `open`, `dup`, `pipe` and `close` -/
  | setFile (p : Slot) (fd : Fin NOFILE) (file : Option (Fin NFILE))
  /-- `fork` by `p` up to the release of the lock of the child in slot `np` -/
  | forkAlloc (p np : Slot) (outcome : AllocOutcome)
  | forkPublish (p : Slot)
  | exit (p : Slot) (status : Int32)
  | wait (p : Slot) (copyoutFails : Bool)
  | waitx (p : Slot) (copyoutFails : Bool)
  | kill (pid : Int32)
  | settickets (p : Slot) (number : Int32)

def Acts (s : State) (p : Slot) : Prop :=
  (s.proc p).state = .running ∧ s.forkChild p = none

instance (s : State) (p : Slot) : Decidable (Acts s p) :=
  inferInstanceAs (Decidable (_ ∧ _))

def Enabled (b : Build) (s : State) : LifeEvent → Prop
  | .move p state => Live (s.proc p).state ∧ Live state
  | .requeue p _ _ _ => b = .mlfq ∧ Live (s.proc p).state
  | .tick | .visit _ | .kill _ => True
  | .forkAlloc p np _ => Acts s p ∧ (s.proc np).state = .unused
  | .forkPublish p => (s.proc p).state = .running ∧ s.forkChild p ≠ none
  | .exit p _ => Acts s p ∧ s.initproc ≠ some p
  | .complete p _ | .setFile p _ _ | .wait p _ | .waitx p _ | .settickets p _ => Acts s p

instance (b : Build) (s : State) : (e : LifeEvent) → Decidable (Enabled b s e)
  | .move _ _ | .requeue _ _ _ _ | .forkAlloc _ _ _ => inferInstanceAs (Decidable (_ ∧ _))
  | .tick | .visit _ | .kill _ => inferInstanceAs (Decidable True)
  | .forkPublish _ | .exit _ _ => inferInstanceAs (Decidable (_ ∧ _ ≠ _))
  | .complete p _ | .setFile p _ _ | .wait p _ | .waitx p _ | .settickets p _ =>
    inferInstanceAs (Decidable (Acts s p))

def countCall (num : Fin 32) (pr : Proc) : Proc :=
  { pr with sysCounter := fun i ↦ if i = num then pr.sysCounter i + 1 else pr.sysCounter i }

/-- What an operation does, or `none` when it blocks. -/
def perform (b : Build) (s : State) : LifeEvent → Option State
  | .move p state => some (s.modify p fun pr ↦ { pr with state := state })
  | .requeue p level startTime waitTicks => some (s.modify p fun pr ↦
      { pr with priorityQueueNumber := level, startTime := startTime, waitTicks := waitTicks })
  | .tick => some { s with ticks := s.ticks + 1 }
  | .visit p => some (s.modify p (updateTimeProc b))
  | .complete p num => some (s.modify p (countCall num))
  | .setFile p fd file => some (s.modify p fun pr ↦
      { pr with ofile := fun i ↦ if i = fd then file else pr.ofile i })
  | .forkAlloc p np outcome => some (forkAllocAt b s p np outcome)
  | .forkPublish p => some (forkPublish s p)
  | .exit p status => some (exitProc s p status)
  | .wait p copyoutFails => (wait b s p copyoutFails).map fun r ↦ r.2
  | .waitx p copyoutFails => (waitx b s p copyoutFails).map fun r ↦ r.2.2
  | .kill pid => some (kill s pid).2
  | .settickets p number => some (settickets s p number).2

def lifecycle (b : Build) : System State LifeEvent where
  start := userinit b
  next s e := if Enabled b s e then perform b s e else none

theorem lifecycle_next {b : Build} {s s' : State} {e : LifeEvent} :
    (lifecycle b).next s e = some s' ↔ Enabled b s e ∧ perform b s e = some s' := by
  by_cases h : Enabled b s e <;> simp [lifecycle, h]

end EnhancedXv6.Lifecycle
