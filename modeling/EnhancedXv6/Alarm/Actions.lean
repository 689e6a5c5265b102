import EnhancedXv6.Alarm.Process
import EnhancedXv6.Transition.Simulation

/-!
# The alarm state of a process

`usertrap`, `clockintr`, `sys_sigalarm` and `sys_sigreturn` share five fields of `struct proc` and
no function.  `AlarmState` collects the fields and `Action` what a step of the process means for
them.  The alarm machine runs any sequence of actions; `alarmSimulation` reads every run of a
process as one of its runs.
-/

namespace EnhancedXv6.Alarm

open Kernel Trap Transition

structure AlarmState where
  ticksOfAlarm : Int32
  handlingAlarm : UInt64
  currentTicks : Int32
  alarmStatus : Bool
  trapframeAlarm : Option Trapframe

def alarmState (pr : Proc) : AlarmState :=
  ⟨pr.ticksOfAlarm, pr.handlingAlarm, pr.currentTicks, pr.alarmStatus, pr.trapframeAlarm⟩

/-- The alarm fields that `allocproc` leaves. -/
def AlarmState.idle : AlarmState := ⟨0, 0, 0, false, none⟩

inductive Action
  | quiet
  /-- `clockintr` counts a tick -/
  | clock
  /-- a timer interrupt in user mode, no handler running and no alarm set -/
  | pass
  /-- a timer interrupt in user mode that is counted -/
  | count
  /-- a timer interrupt in user mode at which the handler is entered -/
  | deliver
  /-- `sigalarm(n, h)` -/
  | register (n : Int32) (h : UInt64)
  /-- a `sigreturn` that restores a saved frame -/
  | restore
  /-- a successful `exec` -/
  | exec
  deriving DecidableEq

/-! ## Actions of the code -/

def clockAction (pr : Proc) : Action :=
  if pr.state = .running then .clock else .quiet

def alarmAction (pr : Proc) : Action :=
  if pr.alarmStatus = true then .quiet
  else if pr.ticksOfAlarm > 0 then
    if pr.currentTicks + 1 ≥ pr.ticksOfAlarm then .deliver else .count
  else .pass

def callAction (pr : Proc) (answer : Answer) : Action :=
  match calledEntry pr with
  | some .sigalarm => .register (argint pr.trapframe .a0) (argaddr pr.trapframe .a1)
  | some .sigreturn => if pr.trapframeAlarm.isSome then .restore else .quiet
  | some .exec => if answer.image.isSome then .exec else .quiet
  | _ => .quiet

def action (pr : Proc) : ThreadEvent → Action
  | .timer h => if h = 0 then clockAction pr else .quiet
  | .kernelTick => clockAction pr
  | .alarm _ => alarmAction pr
  | .syscall answer => callAction pr answer
  | _ => .quiet

/-! ## The alarm machine -/

namespace Action

/-- When an action can happen. -/
def Enabled (st : AlarmState) : Action → Prop
  | .pass => st.alarmStatus = false ∧ ¬st.ticksOfAlarm > 0
  | .count =>
    st.alarmStatus = false ∧ st.ticksOfAlarm > 0 ∧ ¬st.currentTicks + 1 ≥ st.ticksOfAlarm
  | .deliver =>
    st.alarmStatus = false ∧ st.ticksOfAlarm > 0 ∧ st.currentTicks + 1 ≥ st.ticksOfAlarm
  | .restore => st.trapframeAlarm.isSome
  | .quiet | .clock | .register _ _ | .exec => True

instance (st : AlarmState) : (a : Action) → Decidable (a.Enabled st)
  | .pass => inferInstanceAs (Decidable (_ ∧ _))
  | .count | .deliver => inferInstanceAs (Decidable (_ ∧ _ ∧ _))
  | .restore => inferInstanceAs (Decidable (_ = true))
  | .quiet | .clock | .register _ _ | .exec => inferInstanceAs (Decidable True)

/-- The effect of an action on a process with trapframe `tf`.  `exec` leaves the alarm alone. -/
def apply (tf : Trapframe) (st : AlarmState) : Action → AlarmState
  | .quiet | .pass | .exec => st
  | .clock | .count => { st with currentTicks := st.currentTicks + 1 }
  | .deliver => { st with currentTicks := 0, trapframeAlarm := some tf, alarmStatus := true }
  | .register n h => { st with ticksOfAlarm := if n = 1 then 0 else n, handlingAlarm := h }
  | .restore => { st with trapframeAlarm := none, alarmStatus := false }

end Action

/-- Alarms alone: the events are actions, with the trapframe at that time. -/
def alarmMachine : System AlarmState (Action × Trapframe) where
  start := .idle
  next st e := if e.1.Enabled st then some (e.1.apply e.2 st) else none

theorem alarmMachine_next {st st' : AlarmState} {e : Action × Trapframe} :
    alarmMachine.next st e = some st' ↔ e.1.Enabled st ∧ st' = e.1.apply e.2 st := by
  by_cases h : e.1.Enabled st
  · simp [alarmMachine, h, eq_comm]
  · simp [alarmMachine, h]

/-! ## Steps of a process are actions -/

variable {t t' : Thread} {pr pr' : Proc} {e : ThreadEvent} {answer : Answer}

theorem clockAction_enabled (pr : Proc) (st : AlarmState) : (clockAction pr).Enabled st := by
  unfold clockAction
  split_ifs <;> trivial

theorem alarmAction_enabled (pr : Proc) : (alarmAction pr).Enabled (alarmState pr) := by
  unfold alarmAction
  split_ifs with hactive harmed hdue
  · trivial
  · exact ⟨Bool.eq_false_iff.mpr hactive, harmed, hdue⟩
  · exact ⟨Bool.eq_false_iff.mpr hactive, harmed, hdue⟩
  · exact ⟨Bool.eq_false_iff.mpr hactive, harmed⟩

theorem callAction_enabled (pr : Proc) (answer : Answer) :
    (callAction pr answer).Enabled (alarmState pr) := by
  unfold callAction
  split
  · trivial
  · split_ifs with hsaved
    · exact hsaved
    · trivial
  · split_ifs <;> trivial
  · trivial

theorem action_enabled (pr : Proc) (e : ThreadEvent) :
    (action pr e).Enabled (alarmState pr) := by
  cases e with
  | timer h =>
    simp only [action]
    split_ifs
    · exact clockAction_enabled pr _
    · trivial
  | kernelTick => exact clockAction_enabled pr _
  | alarm kalloc => exact alarmAction_enabled pr
  | syscall answer => exact callAction_enabled pr answer
  | _ => trivial

theorem alarmState_countTick (tf : Trapframe) (pr : Proc) :
    alarmState (countTick pr) = (clockAction pr).apply tf (alarmState pr) := by
  unfold countTick clockAction
  split_ifs <;> rfl

theorem alarmState_alarmTick {kalloc : Bool} (h : alarmTick pr kalloc = .ok pr') :
    alarmState pr' = (alarmAction pr).apply pr.trapframe (alarmState pr) := by
  unfold alarmTick at h
  unfold alarmAction
  cases hstatus : pr.alarmStatus with
  | true =>
    rw [if_neg (by simp [hstatus])] at h
    rw [if_pos rfl, ← Except.ok.inj h]
    rfl
  | false =>
    rw [if_neg (by simp)]
    by_cases harmed : pr.ticksOfAlarm > 0
    · rw [if_pos ⟨harmed, hstatus⟩] at h
      rw [if_pos harmed]
      dsimp only at h
      split_ifs at h with hdue hpage
      · rw [if_pos hdue, ← Except.ok.inj h]
        rfl
      · rw [if_neg hdue, ← Except.ok.inj h]
        rfl
    · rw [if_neg (fun hand ↦ harmed hand.1)] at h
      rw [if_neg harmed, ← Except.ok.inj h]
      rfl

/-- A delivery sends the process to its handler. -/
theorem alarmTick_epc {kalloc : Bool} (h : alarmTick pr kalloc = .ok pr')
    (hstatus : pr.alarmStatus = false) (hentered : pr'.alarmStatus = true) :
    pr'.trapframe.field .epc = pr.handlingAlarm := by
  unfold alarmTick at h
  dsimp only at h
  split_ifs at h <;> rw [← Except.ok.inj h] at hentered ⊢
  · simp
  · simp [hstatus] at hentered
  · simp [hstatus] at hentered

theorem alarmState_syscall (h : syscall pr answer = some pr') :
    alarmState pr' = (callAction pr answer).apply pr.trapframe (alarmState pr) := by
  unfold syscall at h
  unfold callAction
  cases hentry : calledEntry pr with
  | none =>
    rw [hentry] at h
    rw [← Option.some.inj h]
    rfl
  | some entry =>
    rw [hentry] at h
    obtain ⟨r, hr, hpr'⟩ := Option.map_eq_some_iff.mp h
    subst hpr'
    cases entry with
    | exit => cases hr
    | sigalarm =>
      obtain rfl := Option.some.inj hr
      rfl
    | sigreturn =>
      obtain rfl := Option.some.inj hr
      cases hsaved : pr.trapframeAlarm <;> simp [sysSigreturn, hsaved, alarmState, Action.apply]
    | exec =>
      obtain rfl := Option.some.inj hr
      cases himage : answer.image <;> simp [sysExec, himage, alarmState, Action.apply]
    | _ =>
      obtain rfl := Option.some.inj hr
      rfl

theorem callAction_of_exit (h : syscall pr answer = none) : callAction pr answer = .quiet := by
  unfold syscall at h
  unfold callAction
  cases hentry : calledEntry pr with
  | none => rfl
  | some entry =>
    rw [hentry] at h
    cases entry with
    | exit => rfl
    | _ => cases h

/-- A step of the process does to its alarm what its action says. -/
theorem alarmState_next (hnext : threadNext t e = some t') :
    alarmState t'.proc = (action t.proc e).apply t.proc.trapframe (alarmState t.proc) := by
  obtain ⟨pr, mode⟩ := t
  cases e with
  | timer h =>
    cases mode <;> simp only [threadNext, reduceCtorEq, Option.some.injEq] at hnext
    subst hnext
    simp only [action]
    by_cases hh : h = 0
    · rw [if_pos hh, if_pos hh]
      exact alarmState_countTick _ _
    · rw [if_neg hh, if_neg hh]
      rfl
  | ecall =>
    cases mode <;> simp only [threadNext, reduceCtorEq] at hnext
    split_ifs at hnext <;> obtain rfl := Option.some.inj hnext <;> rfl
  | alarm kalloc =>
    cases mode <;> simp only [threadNext, reduceCtorEq] at hnext
    split at hnext
    · rename_i halarm
      obtain rfl := Option.some.inj hnext
      exact alarmState_alarmTick halarm
    · cases hnext
  | syscall answer =>
    cases mode <;> simp only [threadNext, reduceCtorEq] at hnext
    split at hnext <;> obtain rfl := Option.some.inj hnext
    · rename_i hcall
      exact alarmState_syscall hcall
    · rename_i hcall
      simp only [action, callAction_of_exit hcall]
      rfl
  | ret kernel scratch =>
    cases mode <;> simp only [threadNext, reduceCtorEq] at hnext
    · obtain rfl := Option.some.inj hnext
      rfl
    · split_ifs at hnext <;> obtain rfl := Option.some.inj hnext <;> rfl
  | kernelTick =>
    cases mode <;> simp only [threadNext, reduceCtorEq, Option.some.injEq] at hnext <;>
      subst hnext <;> exact alarmState_countTick _ _
  | _ =>
    cases mode <;> simp only [threadNext, reduceCtorEq, Option.some.injEq] at hnext <;>
      subst hnext <;> rfl

/-- The runs of a new process, read as runs of the alarm machine. -/
def alarmSimulation (b : Build) (pid : Int32) (ticks : UInt32) (old : Proc) (tf : Trapframe) :
    Simulation (thread (newProc b pid ticks old tf)) alarmMachine where
  map t := alarmState t.proc
  label t e := (action t.proc e, t.proc.trapframe)
  start := rfl
  step hnext := alarmMachine_next.mpr ⟨action_enabled _ _, alarmState_next hnext⟩

end EnhancedXv6.Alarm
