import EnhancedXv6.Alarm.Actions
import EnhancedXv6.Arith.WrappingSum

/-!
# When a handler is entered

`sigalarm(n, h)` asks for `h` to be entered at the `n`-th timer interrupt that the process takes in
user mode while no handler runs, counted from the call or from the return of the last handler.  The
kernel counts in `current_ticks`.  It starts from whatever is there, `clockintr` counts the ticks of
hart 0 a second time, and an interval of 1 is stored as 0, which disables the alarm.  Where none of
this happens the intervals are exact.
-/

namespace EnhancedXv6.Alarm

open Kernel Trap Transition Arith

/-- What an observer of the intervals writes down. -/
structure Interval where
  /-- the arguments of the last `sigalarm` -/
  armed : Option (Int32 × UInt64) := none
  /-- the timer interrupts in user mode with no handler running, since the last `sigalarm` or return
  from a handler -/
  since : ℕ := 0

def Interval.record (r : Interval) : Action → Interval
  | .register n h => ⟨some (n, h), 0⟩
  | .restore => { r with since := 0 }
  | .pass | .count | .deliver => { r with since := r.since + 1 }
  | .quiet | .clock | .exec => r

def timed (pr : Proc) : System (Thread × Interval) ThreadEvent :=
  (thread pr).withHistory {} fun r t e _ ↦ r.record (action t.proc e)

/-- The action leaves the count of `current_ticks` right: an interval starts from 0 and is not 1,
and a tick that `clockintr` counts comes before the last interrupt of the interval. -/
def KeepsCount (st : AlarmState) : Action → Prop
  | .register n _ => n ≥ 1 → n ≠ 1 ∧ (st.alarmStatus = false → st.currentTicks = 0)
  | .restore => st.ticksOfAlarm > 0 → st.currentTicks = 0
  | .clock => st.ticksOfAlarm > 0 → st.alarmStatus = false →
      st.ticksOfAlarm.toInt ≤ st.currentTicks.toInt + 1 ∧ st.currentTicks.toInt + 2 < 2 ^ 31
  | _ => True

instance (st : AlarmState) : (a : Action) → Decidable (KeepsCount st a)
  | .register _ _ => inferInstanceAs (Decidable (_ → _ ∧ (_ → _)))
  | .restore => inferInstanceAs (Decidable (_ → _))
  | .clock => inferInstanceAs (Decidable (_ → _ → _ ∧ _))
  | .quiet | .pass | .count | .deliver | .exec => inferInstanceAs (Decidable True)

/-! ## The count -/

/-- `current_ticks` is `c` after `k` interrupts of an interval of `n`: it counts them, or it is
ahead of them and the next interrupt is the last one. -/
structure Counts (n c : ℤ) (k : ℕ) : Prop where
  before : (k : ℤ) < n
  exact_or_last : c = k ∨ (k : ℤ) + 1 = n ∧ n ≤ c + 1
  fits : c + 1 < 2 ^ 31

/-- The count agrees with the record while no handler runs. -/
def IntervalInv (st : AlarmState) (r : Interval) : Prop :=
  ∀ n h, r.armed = some (n, h) → n ≥ 1 → st.handlingAlarm = h ∧ st.ticksOfAlarm = n ∧
    (st.alarmStatus = false → Counts n.toInt st.currentTicks.toInt r.since)

variable {st : AlarmState} {r : Interval} {n c : Int32} {k : ℕ}

theorem Counts.toInt_succ (h : Counts n.toInt c.toInt k) : (c + 1).toInt = c.toInt + 1 := by
  have hone : (1 : Int32).toInt = 1 := rfl
  obtain ⟨hbefore, hcount, hfits⟩ := h
  apply toInt_add_of_lt <;> omega

/-- The test of `usertrap` finds the last interrupt of the interval. -/
theorem Counts.due_iff (h : Counts n.toInt c.toInt k) : c + 1 ≥ n ↔ (k : ℤ) + 1 = n.toInt := by
  rw [ge_iff_le, Int32.le_iff_toInt_le, h.toInt_succ]
  obtain ⟨hbefore, hcount, hfits⟩ := h
  omega

theorem Counts.succ (h : Counts n.toInt c.toInt k) (hdue : ¬c + 1 ≥ n) :
    Counts n.toInt (c + 1).toInt (k + 1) := by
  rw [h.due_iff] at hdue
  rw [h.toInt_succ]
  have hlt := n.toInt_lt
  obtain ⟨hbefore, hcount, hfits⟩ := h
  exact ⟨by omega, by omega, by omega⟩

theorem Counts.clock (h : Counts n.toInt c.toInt k) (hlast : n.toInt ≤ c.toInt + 1)
    (hfits : c.toInt + 2 < 2 ^ 31) : Counts n.toInt (c + 1).toInt k := by
  rw [h.toInt_succ]
  obtain ⟨hbefore, hcount, -⟩ := h
  exact ⟨hbefore, by omega, by omega⟩

theorem Counts.zero (hn : n ≥ 1) : Counts n.toInt (0 : Int32).toInt 0 := by
  have hpos : (1 : Int32).toInt ≤ n.toInt := Int32.le_iff_toInt_le.mp hn
  have hone : (1 : Int32).toInt = 1 := rfl
  have hzero : (0 : Int32).toInt = 0 := rfl
  exact ⟨by omega, by omega, by omega⟩

theorem pos_of_one_le (hn : n ≥ 1) : n > 0 := by
  rw [ge_iff_le, Int32.le_iff_toInt_le] at hn
  rw [gt_iff_lt, Int32.lt_iff_toInt_lt]
  have hone : (1 : Int32).toInt = 1 := rfl
  have hzero : (0 : Int32).toInt = 0 := rfl
  omega

theorem IntervalInv.next {a : Action} (hinv : IntervalInv st r) (tf : Trapframe)
    (henabled : a.Enabled st) (hkeeps : KeepsCount st a) :
    IntervalInv (a.apply tf st) (r.record a) := by
  intro n h harmed hn
  cases a with
  | register m h' =>
    obtain ⟨rfl, rfl⟩ : m = n ∧ h' = h := by simpa [Interval.record] using harmed
    obtain ⟨hone, hzero⟩ := hkeeps hn
    refine ⟨rfl, if_neg hone, fun hstatus ↦ ?_⟩
    have hcount : st.currentTicks = 0 := hzero hstatus
    simp only [Action.apply, Interval.record, hcount]
    exact .zero hn
  | restore =>
    obtain ⟨hhandler, hticks, -⟩ := hinv n h harmed hn
    refine ⟨hhandler, hticks, fun _ ↦ ?_⟩
    have hcount : st.currentTicks = 0 := hkeeps (hticks ▸ pos_of_one_le hn)
    simp only [Action.apply, Interval.record, hcount]
    exact .zero hn
  | clock =>
    obtain ⟨hhandler, hticks, hcounts⟩ := hinv n h harmed hn
    refine ⟨hhandler, hticks, fun hstatus ↦ ?_⟩
    obtain ⟨hlast, hfits⟩ := hkeeps (hticks ▸ pos_of_one_le hn) hstatus
    exact (hcounts hstatus).clock (hticks ▸ hlast) hfits
  | count =>
    obtain ⟨hhandler, hticks, hcounts⟩ := hinv n h harmed hn
    obtain ⟨hstatus, -, hdue⟩ := henabled
    exact ⟨hhandler, hticks, fun _ ↦ (hcounts hstatus).succ (hticks ▸ hdue)⟩
  | deliver =>
    obtain ⟨hhandler, hticks, -⟩ := hinv n h harmed hn
    exact ⟨hhandler, hticks, fun hstatus ↦ by cases hstatus⟩
  | pass =>
    obtain ⟨-, hticks, -⟩ := hinv n h harmed hn
    exact absurd (hticks ▸ pos_of_one_le hn) henabled.2
  | quiet => exact hinv n h harmed hn
  | exec => exact hinv n h harmed hn

/-! ## Alarm intervals -/

variable {o : Thread × Interval}

abbrev KeepsCountAt (o : Thread × Interval) (e : ThreadEvent) : Prop :=
  KeepsCount (alarmState o.1.proc) (action o.1.proc e)

theorem intervalInv_of_reachable (b : Build) (pid : Int32) (ticks : UInt32) (old : Proc)
    (tf : Trapframe) (ho : (timed (newProc b pid ticks old tf)).Reachable KeepsCountAt o) :
    IntervalInv (alarmState o.1.proc) o.2 := by
  let sim := (alarmSimulation b pid ticks old tf).withHistory ({} : Interval)
    fun r _ e _ ↦ r.record e.1
  have hrun := sim.reachable (fun o e ↦ KeepsCount o.1 e.1) ho
  refine hrun.invariant (fun o ↦ IntervalInv o.1 o.2) ?_ fun o e o' hinv hkeeps hnext ↦ ?_
  · intro n h harmed
    cases harmed
  · obtain ⟨hstep, hrecord⟩ := System.withHistory_next.mp hnext
    obtain ⟨henabled, hstate⟩ := alarmMachine_next.mp hstep
    rw [hstate, hrecord]
    exact hinv.next e.2 henabled hkeeps

theorem alarmTick_returns (pr : Proc) : ∃ pr', alarmTick pr true = .ok pr' := by
  simp only [alarmTick, if_true]
  split_ifs <;> exact ⟨_, rfl⟩

/-- The alarm code, with an alarm set and no handler running, enters the handler when the count
reaches the interval. -/
theorem alarmTick_enters_iff {pr pr' : Proc} {kalloc : Bool} (h : alarmTick pr kalloc = .ok pr')
    (hidle : pr.alarmStatus = false) (harmed : pr.ticksOfAlarm > 0) :
    pr'.alarmStatus = true ↔ pr.currentTicks + 1 ≥ pr.ticksOfAlarm := by
  unfold alarmTick at h
  rw [if_pos ⟨harmed, hidle⟩] at h
  dsimp only at h
  split_ifs at h with hdue hpage
  · simp [← Except.ok.inj h, hdue]
  · simp [← Except.ok.inj h, hdue, hidle]

/-- In every run of a process whose steps keep the count right: after `sigalarm(n, h)` with `n ≥ 1` and
with no handler running, the alarm code enters a handler, which is `h`, if and only if this is the
`n`-th timer interrupt in user mode since the call or the last return from a handler. -/
theorem entered_iff_interval_over (b : Build) (pid : Int32) (ticks : UInt32) (old : Proc)
    (tf : Trapframe) (ho : (timed (newProc b pid ticks old tf)).Reachable KeepsCountAt o)
    (hmode : o.1.mode = .timer) {n : Int32} {h : UInt64} (harmed : o.2.armed = some (n, h))
    (hn : n ≥ 1) (hidle : o.1.proc.alarmStatus = false) :
    (∃ t', threadNext o.1 (.alarm true) = some t') ∧
    ∀ kalloc t', threadNext o.1 (.alarm kalloc) = some t' →
      (t'.proc.alarmStatus = true ↔ (o.2.since : ℤ) + 1 = n.toInt) ∧
      (t'.proc.alarmStatus = true → t'.proc.trapframe.field .epc = h) := by
  obtain ⟨hhandler, hticks, hcounts⟩ := intervalInv_of_reachable b pid ticks old tf ho n h harmed hn
  obtain ⟨⟨pr, mode⟩, r⟩ := o
  subst hmode
  refine ⟨?_, fun kalloc t' hstep ↦ ?_⟩
  · obtain ⟨pr', hpr'⟩ := alarmTick_returns pr
    exact ⟨⟨pr', .leave⟩, by simp [threadNext, hpr']⟩
  · simp only [threadNext] at hstep
    split at hstep
    · rename_i pr' halarm
      obtain rfl := Option.some.inj hstep
      have hticks : pr.ticksOfAlarm = n := hticks
      have hpos : pr.ticksOfAlarm > 0 := hticks ▸ pos_of_one_le hn
      have hdue : pr.currentTicks + 1 ≥ pr.ticksOfAlarm ↔ (r.since : ℤ) + 1 = n.toInt := by
        rw [hticks]
        exact (hcounts hidle).due_iff
      refine ⟨(alarmTick_enters_iff halarm hidle hpos).trans hdue, fun hentered ↦ ?_⟩
      rw [alarmTick_epc halarm hidle hentered]
      exact hhandler
    · cases hstep

/-- The process calls `sigalarm(n, 0x100)` and takes a timer interrupt on hart `h`. -/
def firstInterrupt (n : UInt64) (h : Hart) : List ThreadEvent :=
  [ThreadEvent.interfere { state := .running }, back] ++ callEvents 24 n 0x100 ⟨0, none⟩ ++
    [ThreadEvent.timer h]

set_option maxRecDepth 100000 in
theorem entered_iff_two_over :
    ∃ o, ((timed firstProc).Reachable KeepsCountAt o ∧ o.2.armed = some (2, 0x100) ∧
        o.2.since = 1) ∧
      (∃ t', threadNext o.1 (.alarm true) = some t') ∧
      ∀ kalloc t', threadNext o.1 (.alarm kalloc) = some t' →
        (t'.proc.alarmStatus = true ↔ (o.2.since : ℤ) + 1 = (2 : Int32).toInt) ∧
        (t'.proc.alarmStatus = true → t'.proc.trapframe.field .epc = 0x100) := by
  obtain ⟨o, ho, hsome, hrecord, hidle⟩ := (timed firstProc).exists_reachable KeepsCountAt
    (fun o ↦ (threadNext o.1 (.alarm true)).isSome ∧
      (o.2.armed = some (2, 0x100) ∧ o.2.since = 1) ∧ o.1.proc.alarmStatus = false)
    (firstInterrupt 2 1 ++ [ThreadEvent.alarm true, back, .timer 1]) (by decide +kernel)
  have hmode : o.1.mode = .timer := by
    cases hmode : o.1.mode <;> simp [threadNext, hmode] at hsome ⊢
  exact ⟨o, ⟨ho, hrecord⟩, entered_iff_interval_over .default 1 0 {} .zero ho hmode hrecord.1
    (by decide) hidle⟩

/-- No step has entered the handler, and the alarm code takes the process to `t'`. -/
def AtFirstInterrupt (o : Thread × Interval) (n : Int32) (entered : Bool) : Prop :=
  o.2.armed = some (n, 0x100) ∧ o.2.since = 0 ∧ o.1.proc.alarmStatus = false ∧
    (threadNext o.1 (.alarm true)).any fun t' ↦ t'.proc.alarmStatus = entered

instance (o : Thread × Interval) (n : Int32) (entered : Bool) :
    Decidable (AtFirstInterrupt o n entered) :=
  inferInstanceAs (Decidable (_ ∧ _ ∧ _ ∧ _ = true))

set_option maxRecDepth 100000 in
/-- After `sigalarm(1, h)` the first interrupt does not enter the handler.  After `sigalarm(2, h)`
the first interrupt on hart 0 enters it. -/
theorem interval_missed :
    (∃ o, (timed firstProc).Reachable (fun _ _ ↦ True) o ∧ AtFirstInterrupt o 1 false) ∧
    ∃ o, (timed firstProc).Reachable (fun _ _ ↦ True) o ∧ AtFirstInterrupt o 2 true :=
  ⟨(timed firstProc).exists_reachable (fun _ _ ↦ True) (fun o ↦ AtFirstInterrupt o 1 false)
      (firstInterrupt 1 1) (by decide +kernel),
    (timed firstProc).exists_reachable (fun _ _ ↦ True) (fun o ↦ AtFirstInterrupt o 2 true)
      (firstInterrupt 2 0) (by decide +kernel)⟩

end EnhancedXv6.Alarm
