import EnhancedXv6.Alarm.Actions
import Mathlib.Data.List.Chain

/-!
# Handlers, nesting and program images

Whether a handler runs is kept twice: `alarm_status` stops a second delivery, `trapframe_alarm`
tells `sigreturn` that there is a frame to restore.  The two agree in every run, so deliveries and
returns alternate.

`exec` replaces the program and leaves both the alarm and a saved frame in place.  A process that
calls `exec` with an alarm set is later sent to an address of the old program, and one that calls it
from a handler can go back to the frame of the old program.
-/

namespace EnhancedXv6.Alarm

open Kernel Trap Transition

variable {st : AlarmState} {a : Action}

/-! ## Nesting -/

/-- The deliveries and the returns from handlers, the latest first. -/
def turns (l : List Action) : Action → List Action
  | .deliver => .deliver :: l
  | .restore => .restore :: l
  | _ => l

/-- The runs of a process with its deliveries and returns from handlers. -/
def turned (pr : Proc) : System (Thread × List Action) ThreadEvent :=
  (thread pr).withHistory [] fun l t e _ ↦ turns l (action t.proc e)

/-- Deliveries and returns alternate, beginning with a delivery. -/
structure Alternating (l : List Action) : Prop where
  chain : l.IsChain (· ≠ ·)
  first : ∀ a ∈ l.getLast?, a = .deliver

theorem Alternating.nil : Alternating [] :=
  ⟨.nil, by simp⟩

theorem Alternating.cons {l : List Action} (hl : Alternating l) (hne : ∀ x ∈ l.head?, a ≠ x)
    (hnil : l = [] → a = .deliver) : Alternating (a :: l) := by
  refine ⟨hl.chain.cons hne, fun x hx ↦ ?_⟩
  cases l with
  | nil =>
    obtain rfl : a = x := by simpa using hx
    exact hnil rfl
  | cons y l => exact hl.first x (by simpa using hx)

structure TurnsInv (st : AlarmState) (l : List Action) : Prop where
  alternating : Alternating l
  saved : st.alarmStatus = st.trapframeAlarm.isSome
  active : st.alarmStatus = true ↔ l.head? = some .deliver

theorem TurnsInv.next {l : List Action} (hinv : TurnsInv st l) (tf : Trapframe)
    (henabled : a.Enabled st) : TurnsInv (a.apply tf st) (turns l a) := by
  cases a with
  | deliver =>
    have hlast : ¬l.head? = some .deliver := by
      rw [← hinv.active, henabled.1]
      simp
    refine ⟨hinv.alternating.cons ?_ fun _ ↦ rfl, rfl, by simp [Action.apply, turns]⟩
    rintro x hx rfl
    exact hlast hx
  | restore =>
    have hlast : l.head? = some .deliver := by
      rw [← hinv.active, hinv.saved]
      exact henabled
    refine ⟨hinv.alternating.cons ?_ ?_, rfl, by simp [Action.apply, turns]⟩
    · simp [hlast]
    · rintro rfl
      cases hlast
  | _ => exact ⟨hinv.alternating, hinv.saved, hinv.active⟩

theorem turnsInv_of_reachable (b : Build) (pid : Int32) (ticks : UInt32) (old : Proc)
    (tf : Trapframe) {o : Thread × List Action}
    (ho : (turned (newProc b pid ticks old tf)).Reachable (fun _ _ ↦ True) o) :
    TurnsInv (alarmState o.1.proc) o.2 := by
  let sim := (alarmSimulation b pid ticks old tf).withHistory [] fun l _ e _ ↦ turns l e.1
  have hrun := sim.reachable (fun _ _ ↦ True) ho
  refine hrun.invariant (fun o ↦ TurnsInv o.1 o.2) ?_ fun o e o' hinv _ hnext ↦ ?_
  · exact ⟨.nil, rfl, by simp [System.withHistory, alarmMachine, AlarmState.idle]⟩
  · obtain ⟨hstep, hrecord⟩ := System.withHistory_next.mp hnext
    obtain ⟨henabled, hstate⟩ := alarmMachine_next.mp hstep
    rw [hstate, hrecord]
    exact hinv.next e.2 henabled

/-- `sigreturn` outside a handler changes `a0` only. -/
theorem sigreturn_outside {t t' : Thread} {answer : Answer}
    (hstep : threadNext t (.syscall answer) = some t')
    (hentry : calledEntry t.proc = some .sigreturn) (hsaved : t.proc.trapframeAlarm = none) :
    t'.proc.trapframe = t.proc.trapframe.setReg .a0 0 ∧
      alarmState t'.proc = alarmState t.proc := by
  have haction : action t.proc (.syscall answer) = .quiet := by
    simp [action, callAction, hentry, hsaved]
  have hstate := alarmState_next hstep
  rw [haction] at hstate
  refine ⟨?_, hstate⟩
  obtain ⟨pr, mode⟩ := t
  cases mode <;> simp only [threadNext, reduceCtorEq] at hstep
  split at hstep
  · rename_i pr' hcall
    obtain rfl := Option.some.inj hstep
    exact (syscall_sigreturn_outside hentry hsaved hcall).1
  · rename_i hcall
    simp [Kernel.syscall, show calledEntry pr = some .sigreturn from hentry, dispatchCall] at hcall

/-- A forked child has no alarm set and no handler running. -/
theorem forkAlloc_idle (b : Build) {s : State} {p np : Slot} {outcome : AllocOutcome}
    (hfree : s.forkChild p = none) (hchild : (forkAlloc b s p outcome).forkChild p = some np) :
    alarmState ((forkAlloc b s p outcome).proc np) = .idle := by
  obtain ⟨rfl, hfound⟩ := forkAlloc_succeeds hfree hchild
  simp [forkAlloc_eq hfound, forkAllocAt, allocprocAt, forkCopy, alarmState, AlarmState.idle,
    allocprocReady, allocprocFound]

/-- In every run in which `kalloc` succeeds at each delivery: deliveries and returns alternate,
`alarm_status` is set if and only if `trapframe_alarm` is not null, a `sigreturn` outside a handler
restores nothing, and a child starts with no alarm set and no handler running. -/
theorem handlers_do_not_nest (b : Build) (pid : Int32) (ticks : UInt32) (old : Proc)
    (tf : Trapframe) {o : Thread × List Action}
    (ho : (turned (newProc b pid ticks old tf)).Reachable (fun _ _ ↦ True) o) :
    Alternating o.2 ∧
    (o.1.proc.alarmStatus = true ↔ o.1.proc.trapframeAlarm ≠ none) ∧
    (o.1.proc.alarmStatus = true ↔ o.2.head? = some .deliver) ∧
    (∀ answer t', threadNext o.1 (.syscall answer) = some t' →
      calledEntry o.1.proc = some .sigreturn → o.1.proc.alarmStatus = false →
      t'.proc.trapframe = o.1.proc.trapframe.setReg .a0 0 ∧
        alarmState t'.proc = alarmState o.1.proc) ∧
    ∀ (s : State) (p np : Slot) (outcome : AllocOutcome), s.forkChild p = none →
      (forkAlloc b s p outcome).forkChild p = some np →
      alarmState ((forkAlloc b s p outcome).proc np) = .idle := by
  obtain ⟨halternating, hsaved, hactive⟩ := turnsInv_of_reachable b pid ticks old tf ho
  have hsaved : o.1.proc.alarmStatus = o.1.proc.trapframeAlarm.isSome := hsaved
  have hiff : o.1.proc.alarmStatus = true ↔ o.1.proc.trapframeAlarm ≠ none := by
    rw [hsaved, Option.isSome_iff_ne_none]
  refine ⟨halternating, hiff, hactive, fun answer t' hstep hentry hidle ↦ ?_,
    fun s p np outcome hfree hchild ↦ forkAlloc_idle b hfree hchild⟩
  apply sigreturn_outside hstep hentry
  rw [hidle] at hsaved
  exact Option.not_isSome_iff_eq_none.mp (by simp [← hsaved])

/-- The process calls `sigalarm(2, 0x100)` and is interrupted twice. -/
def untilDelivery : List ThreadEvent :=
  [back] ++ callEvents 24 2 0x100 ⟨0, none⟩ ++
    [ThreadEvent.timer 1, .alarm true, back, .timer 1, .alarm true]

set_option maxRecDepth 100000 in
theorem handlers_do_not_nest_after_delivery :
    ∃ o, ((turned firstProc).Reachable (fun _ _ ↦ True) o ∧ o.2 = [.restore, .deliver]) ∧
      Alternating o.2 ∧
      (o.1.proc.alarmStatus = true ↔ o.1.proc.trapframeAlarm ≠ none) ∧
      (o.1.proc.alarmStatus = true ↔ o.2.head? = some .deliver) ∧
      (∀ answer t', threadNext o.1 (.syscall answer) = some t' →
        calledEntry o.1.proc = some .sigreturn → o.1.proc.alarmStatus = false →
        t'.proc.trapframe = o.1.proc.trapframe.setReg .a0 0 ∧
          alarmState t'.proc = alarmState o.1.proc) ∧
      ∀ (s : State) (p np : Slot) (outcome : AllocOutcome), s.forkChild p = none →
        (forkAlloc .default s p outcome).forkChild p = some np →
        alarmState ((forkAlloc .default s p outcome).proc np) = .idle := by
  obtain ⟨o, ho, hturns⟩ := (turned firstProc).exists_reachable (fun _ _ ↦ True)
    (fun o ↦ o.2 = [.restore, .deliver])
    (untilDelivery ++ [back] ++ callEvents 25 0 0 ⟨0, none⟩) (by decide +kernel)
  exact ⟨o, ⟨ho, hturns⟩, handlers_do_not_nest .default 1 0 {} .zero ho⟩

/-! ## Program images -/

/-- A use of something that was made while an earlier or the same program image ran. -/
structure Use (α : Type) where
  /-- what is used -/
  used : Option α
  /-- what was made last, with the number of successful `exec`s before that -/
  made : Option (α × ℕ)
  /-- the number of successful `exec`s before the use -/
  image : ℕ

/-- What is used was made after the last successful `exec`. -/
def Use.Current {α : Type} (u : Use α) : Prop :=
  ∃ x, u.used = some x ∧ u.made = some (x, u.image)

structure Images where
  /-- the number of successful `exec`s -/
  execs : ℕ := 0
  /-- the handler of the last `sigalarm` -/
  registered : Option (UInt64 × ℕ) := none
  /-- the frame saved by the last delivery -/
  saved : Option (Trapframe × ℕ) := none
  /-- the addresses the process was sent to by alarms -/
  redirects : List (Use UInt64) := []
  /-- the frames that `sigreturn` restored -/
  restores : List (Use Trapframe) := []

def Images.record (r : Images) (st : AlarmState) (tf : Trapframe) : Action → Images
  | .exec => { r with execs := r.execs + 1 }
  | .register _ h => { r with registered := some (h, r.execs) }
  | .deliver =>
    { r with
      saved := some (tf, r.execs)
      redirects := ⟨some st.handlingAlarm, r.registered, r.execs⟩ :: r.redirects }
  | .restore => { r with restores := ⟨st.trapframeAlarm, r.saved, r.execs⟩ :: r.restores }
  | _ => r

def imaged (pr : Proc) : System (Thread × Images) ThreadEvent :=
  (thread pr).withHistory {} fun r t e _ ↦
    r.record (alarmState t.proc) t.proc.trapframe (action t.proc e)

/-- A successful `exec` happens with no alarm set and no frame saved. -/
def ExecsIdle (st : AlarmState) : Action → Prop
  | .exec => ¬st.ticksOfAlarm > 0 ∧ st.trapframeAlarm = none
  | _ => True

structure ImagesInv (st : AlarmState) (r : Images) : Prop where
  registered : st.ticksOfAlarm > 0 → r.registered = some (st.handlingAlarm, r.execs)
  saved : ∀ tf, st.trapframeAlarm = some tf → r.saved = some (tf, r.execs)
  redirects : ∀ u ∈ r.redirects, u.Current
  restores : ∀ u ∈ r.restores, u.Current

theorem ImagesInv.next {r : Images} (hinv : ImagesInv st r) (tf : Trapframe)
    (henabled : a.Enabled st) (hidle : ExecsIdle st a) :
    ImagesInv (a.apply tf st) (r.record st tf a) := by
  cases a with
  | exec =>
    obtain ⟨hunset, hnone⟩ := hidle
    refine ⟨fun hset ↦ absurd hset hunset, fun tf' htf' ↦ ?_, hinv.redirects, hinv.restores⟩
    cases hnone.symm.trans htf'
  | register n h => exact ⟨fun _ ↦ rfl, hinv.saved, hinv.redirects, hinv.restores⟩
  | deliver =>
    refine ⟨hinv.registered, fun tf' htf' ↦ ?_, ?_, hinv.restores⟩
    · obtain rfl := Option.some.inj htf'
      rfl
    · have huse : Use.Current ⟨some st.handlingAlarm, r.registered, r.execs⟩ :=
        ⟨st.handlingAlarm, rfl, hinv.registered henabled.2.1⟩
      exact List.forall_mem_cons.mpr ⟨huse, hinv.redirects⟩
  | restore =>
    obtain ⟨saved, hsaved⟩ := Option.isSome_iff_exists.mp henabled
    have huse : Use.Current ⟨st.trapframeAlarm, r.saved, r.execs⟩ :=
      ⟨saved, hsaved, hinv.saved saved hsaved⟩
    refine ⟨hinv.registered, fun tf' htf' ↦ (by cases htf'), hinv.redirects, ?_⟩
    exact List.forall_mem_cons.mpr ⟨huse, hinv.restores⟩
  | _ => exact ⟨hinv.registered, hinv.saved, hinv.redirects, hinv.restores⟩

/-- The steps of a process that call `exec` with no alarm set and no frame saved. -/
abbrev ExecsIdleAt (o : Thread × Images) (e : ThreadEvent) : Prop :=
  ExecsIdle (alarmState o.1.proc) (action o.1.proc e)

/-- In every run of a process that calls `exec` successfully only with no alarm set and no frame saved,
each handler address used was registered, and each frame restored was saved, after the last successful
`exec`. -/
theorem alarms_of_current_image (b : Build) (pid : Int32) (ticks : UInt32) (old : Proc)
    (tf : Trapframe) {o : Thread × Images}
    (ho : (imaged (newProc b pid ticks old tf)).Reachable ExecsIdleAt o) :
    (∀ u ∈ o.2.redirects, u.Current) ∧ ∀ u ∈ o.2.restores, u.Current := by
  let sim := (alarmSimulation b pid ticks old tf).withHistory ({} : Images)
    fun r st e _ ↦ r.record st e.2 e.1
  have hrun := sim.reachable (fun o e ↦ ExecsIdle o.1 e.1) ho
  have hinv : ImagesInv (alarmState o.1.proc) o.2 := by
    refine hrun.invariant (fun o ↦ ImagesInv o.1 o.2) ?_ fun o e o' hinv hidle hnext ↦ ?_
    · refine ⟨fun h ↦ absurd h (by decide), fun tf' htf' ↦ (by cases htf'), ?_, ?_⟩ <;>
        simp [System.withHistory]
    · obtain ⟨hstep, hrecord⟩ := System.withHistory_next.mp hnext
      obtain ⟨henabled, hstate⟩ := alarmMachine_next.mp hstep
      rw [hstate, hrecord]
      exact hinv.next e.2 henabled hidle
  exact ⟨hinv.redirects, hinv.restores⟩

instance (st : AlarmState) : (a : Action) → Decidable (ExecsIdle st a)
  | .exec =>
    decidable_of_iff (¬st.ticksOfAlarm > 0 ∧ st.trapframeAlarm.isNone)
      (by simp [ExecsIdle])
  | .quiet | .clock | .pass | .count | .deliver | .register _ _ | .restore =>
    inferInstanceAs (Decidable True)

def execEvents : List ThreadEvent := callEvents 7 0 0 ⟨0, some ⟨0, 0⟩⟩

set_option maxRecDepth 100000 in
theorem alarms_of_current_image_after_exec :
    ∃ o, ((imaged firstProc).Reachable ExecsIdleAt o ∧ o.2.execs = 1 ∧ o.2.redirects ≠ []) ∧
      (∀ u ∈ o.2.redirects, u.Current) ∧ ∀ u ∈ o.2.restores, u.Current := by
  obtain ⟨o, ho, hexecs, hredirects⟩ := (imaged firstProc).exists_reachable ExecsIdleAt
    (fun o ↦ o.2.execs = 1 ∧ o.2.redirects.length = 1) ([back] ++ execEvents ++ untilDelivery.tail)
    (by decide +kernel)
  refine ⟨o, ⟨ho, hexecs, fun hnil ↦ ?_⟩, alarms_of_current_image .default 1 0 {} .zero ho⟩
  rw [hnil] at hredirects
  cases hredirects

theorem Use.Current.image {α : Type} {u : Use α} (h : u.Current) :
    u.made.map Prod.snd = some u.image := by
  obtain ⟨x, -, hmade⟩ := h
  simp [hmade]

set_option maxRecDepth 100000 in
/-- A process that calls `exec` with an alarm set is sent to the handler of the old program, and one
that calls `exec` from a handler and then `sigreturn` gets the frame of the old program back. -/
theorem alarm_outlives_exec :
    (∃ o, (imaged firstProc).Reachable (fun _ _ ↦ True) o ∧ ∃ u ∈ o.2.redirects, ¬u.Current) ∧
    ∃ o, (imaged firstProc).Reachable (fun _ _ ↦ True) o ∧ ∃ u ∈ o.2.restores, ¬u.Current := by
  constructor
  · obtain ⟨o, ho, u, hu, himage⟩ := (imaged firstProc).exists_reachable (fun _ _ ↦ True)
      (fun o ↦ ∃ u ∈ o.2.redirects, u.made.map Prod.snd ≠ some u.image)
      ([back] ++ callEvents 24 2 0x100 ⟨0, none⟩ ++ execEvents ++
        [.timer 1, .alarm true, back, .timer 1, .alarm true]) (by decide +kernel)
    exact ⟨o, ho, u, hu, fun hcurrent ↦ himage hcurrent.image⟩
  · obtain ⟨o, ho, u, hu, himage⟩ := (imaged firstProc).exists_reachable (fun _ _ ↦ True)
      (fun o ↦ ∃ u ∈ o.2.restores, u.made.map Prod.snd ≠ some u.image)
      (untilDelivery ++ [back] ++ execEvents ++ callEvents 25 0 0 ⟨0, none⟩) (by decide +kernel)
    exact ⟨o, ho, u, hu, fun hcurrent ↦ himage hcurrent.image⟩

end EnhancedXv6.Alarm
