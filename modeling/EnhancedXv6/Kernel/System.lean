import EnhancedXv6.Kernel.Trap
import EnhancedXv6.Mlfq.Scheduler
import EnhancedXv6.Lottery.Scheduler
import EnhancedXv6.Transition.System

/-!
# The kernel as a transition system

An event is one uninterrupted stretch of kernel code on one hart: a scheduler pass, a trap, or one
operation of the process the hart runs.  The kernel code of a process is over-approximated: whenever it
runs it may perform any operation, except between the two halves of a `fork`.

`system b` is the kernel built with scheduler `b`, started by `userinit`.  A step that faults has no
successor state.
-/

namespace EnhancedXv6.Kernel

open Trap Transition

inductive Event
  /-- one pass of the MLFQ or LBS scheduler -/
  | pass (h : Hart)
  /-- one iteration of the loop of the DEFAULT scheduler -/
  | poll (h : Hart) (p : Slot)
  /-- a timer interrupt in user mode -/
  | userTimer (h : Hart) (ctx : UserContext) (kalloc : Bool)
  /-- the end of a system call or device interrupt from user mode -/
  | trapReturn (h : Hart)
  /-- a timer interrupt in the kernel -/
  | kernelTimer (h : Hart)
  | wakeup (h : Hart) (chan : Chan)
  | sleep (h : Hart) (chan : Chan)
  | kill (h : Hart) (pid : Int32)
  | forkAlloc (h : Hart) (outcome : AllocOutcome)
  | forkPublish (h : Hart)
  | exit (h : Hart) (status : Int32)
  | wait (h : Hart) (copyoutFails : Bool)
  | waitx (h : Hart) (copyoutFails : Bool)
  | settickets (h : Hart) (number : Int32)

def Event.hart : Event → Hart
  | .pass h | .poll h _ | .userTimer h _ _ | .trapReturn h | .kernelTimer h | .wakeup h _
  | .sleep h _ | .kill h _ | .forkAlloc h _ | .forkPublish h | .exit h _ | .wait h _
  | .waitx h _ | .settickets h _ => h

def FreeToAct (s : State) (h : Hart) : Prop :=
  ∃ p, s.cpu h = some p ∧ s.forkChild p = none

def InFork (s : State) (h : Hart) : Prop :=
  ∃ p np, s.cpu h = some p ∧ s.forkChild p = some np

instance (s : State) (h : Hart) : Decidable (FreeToAct s h) :=
  match hp : s.cpu h with
  | none => .isFalse fun ⟨_, hq, _⟩ ↦ by simp [hp] at hq
  | some p =>
    decidable_of_iff (s.forkChild p = none)
      ⟨fun hn ↦ ⟨p, hp, hn⟩, fun ⟨_, hq, hn⟩ ↦ by
        obtain rfl := Option.some.inj (hp.symm.trans hq); exact hn⟩

instance (s : State) (h : Hart) : Decidable (InFork s h) :=
  match hp : s.cpu h with
  | none => .isFalse fun ⟨_, _, hq, _⟩ ↦ by simp [hp] at hq
  | some p =>
    decidable_of_iff (s.forkChild p ≠ none)
      ⟨fun hn ↦ by
          obtain ⟨np, hnp⟩ := Option.ne_none_iff_exists'.mp hn
          exact ⟨p, np, hp, hnp⟩,
        fun ⟨_, np, hq, hn⟩ ↦ by
          obtain rfl := Option.some.inj (hp.symm.trans hq); simp [hn]⟩

def Enabled (b : Build) (s : State) : Event → Prop
  | .pass h => b ≠ .default ∧ s.cpu h = none
  | .poll h _ => b = .default ∧ s.cpu h = none
  | .kernelTimer _ | .wakeup _ _ => True
  | .forkPublish h => InFork s h
  | .userTimer h _ _ | .trapReturn h | .sleep h _ | .kill h _ | .forkAlloc h _ | .exit h _
  | .wait h _ | .waitx h _ | .settickets h _ => FreeToAct s h

instance (b : Build) (s : State) : (e : Event) → Decidable (Enabled b s e)
  | .pass _ | .poll _ _ => inferInstanceAs (Decidable (_ ∧ _))
  | .kernelTimer _ | .wakeup _ _ => inferInstanceAs (Decidable True)
  | .forkPublish h => inferInstanceAs (Decidable (InFork s h))
  | .userTimer h _ _ | .trapReturn h | .sleep h _ | .kill h _ | .forkAlloc h _ | .exit h _
  | .wait h _ | .waitx h _ | .settickets h _ => inferInstanceAs (Decidable (FreeToAct s h))

def asProcess (s : State) (h : Hart) (f : Slot → Except Fault State) : Except Fault State :=
  match s.cpu h with
  | none => .ok s
  | some p => f p

theorem asProcess_some {s : State} {h : Hart} {p : Slot} {f : Slot → Except Fault State}
    (hp : s.cpu h = some p) : asProcess s h f = f p := by
  rw [asProcess, hp]

def exec (b : Build) (s : State) : Event → Except Fault State
  | .pass h => if b = .mlfq then Mlfq.pass s h else .ok (Lottery.pass s h)
  | .poll h p => .ok (if (s.proc p).state = .runnable then dispatch s h p else s)
  | .userTimer h ctx kalloc => asProcess s h fun p ↦ usertrap b s h p ctx kalloc
  | .trapReturn h => asProcess s h fun p ↦ usertrapReturn b s h p
  | .kernelTimer h => .ok (kerneltrap b s h)
  | .wakeup h chan => .ok (wakeup s (s.cpu h) chan)
  | .sleep h chan => asProcess s h fun p ↦ .ok (sleep s h p chan)
  | .kill _ pid => .ok (kill s pid).2
  | .forkAlloc h outcome => asProcess s h fun p ↦ .ok (forkAlloc b s p outcome)
  | .forkPublish h => asProcess s h fun p ↦ .ok (forkPublish s p)
  | .exit h status => asProcess s h fun p ↦ exit s h p status
  | .wait h copyoutFails => asProcess s h fun p ↦
      match wait b s p copyoutFails with
      | none => .ok (sleep s h p (.proc p))
      | some (_, s) => .ok s
  | .waitx h copyoutFails => asProcess s h fun p ↦
      match waitx b s p copyoutFails with
      | none => .ok (sleep s h p (.proc p))
      | some (_, _, s) => .ok s
  | .settickets h number => asProcess s h fun p ↦ .ok (settickets s p number).2

section Waiting

variable {b : Build} {s s' : State} {h : Hart} {p : Slot} {copyoutFails : Bool}

/-- A process that waits goes to sleep, or returns from the scan of its children. -/
theorem exec_wait (hp : s.cpu h = some p) (hexec : exec b s (.wait h copyoutFails) = .ok s') :
    s' = sleep s h p (.proc p) ∨ ∃ r, wait b s p copyoutFails = some r ∧ s' = r.2 := by
  have hstep := (asProcess_some hp).symm.trans hexec
  cases hscan : wait b s p copyoutFails with
  | none =>
    rw [hscan] at hstep
    exact .inl (Except.ok.inj hstep).symm
  | some r =>
    rw [hscan] at hstep
    exact .inr ⟨r, rfl, (Except.ok.inj hstep).symm⟩

theorem exec_waitx (hp : s.cpu h = some p) (hexec : exec b s (.waitx h copyoutFails) = .ok s') :
    s' = sleep s h p (.proc p) ∨ ∃ r, waitx b s p copyoutFails = some r ∧ s' = r.2.2 := by
  have hstep := (asProcess_some hp).symm.trans hexec
  cases hscan : waitx b s p copyoutFails with
  | none =>
    rw [hscan] at hstep
    exact .inl (Except.ok.inj hstep).symm
  | some r =>
    rw [hscan] at hstep
    exact .inr ⟨r, rfl, (Except.ok.inj hstep).symm⟩

end Waiting

def system (b : Build) : System State Event where
  start := userinit b
  next s e := if Enabled b s e then (exec b s e).toOption else none

theorem system_next {b : Build} {s s' : State} {e : Event} :
    (system b).next s e = some s' ↔ Enabled b s e ∧ exec b s e = .ok s' := by
  by_cases h : Enabled b s e
  · simp [system, h, Fallible.toOption_eq_some]
  · simp [system, h]

end EnhancedXv6.Kernel
