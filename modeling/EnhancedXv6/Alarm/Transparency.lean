import EnhancedXv6.Alarm.Process
import Mathlib.Data.Option.Basic

/-!
# What an alarm handler leaves of the interrupted program

The handler of an alarm returns with `sigreturn`, which copies the saved frame back.  `syscall()`
then stores the value that `sigreturn` returned, 0, in the `a0` of the restored frame.  So the
interrupted program resumes with its program counter and 30 of its registers, whatever the handler
did, and with `a0 = 0`.
-/

namespace EnhancedXv6.Alarm

open Kernel Trap Transition

variable {t t' : Thread} {pr pr' : Proc} {ctx : UserContext} {tf : Trapframe}

/-! ## Observing the returns from handlers -/

structure Record where
  /-- the context at the last timer interrupt in user mode -/
  trapped : Option UserContext := none
  /-- the context at the timer interrupt at which the running handler was entered -/
  entered : Option UserContext := none
  /-- the same, once the handler has called `sigreturn`, until the process is back in user mode -/
  restoring : Option UserContext := none
  /-- for each return from a handler, the context at the interrupt and the resumed context -/
  returns : List (UserContext × UserContext) := []

def record (r : Record) (t : Thread) (e : ThreadEvent) (t' : Thread) : Record :=
  match e, t.mode with
  | .timer _, .user ctx => { r with trapped := some ctx }
  | .alarm _, _ =>
    if t.proc.alarmStatus = false ∧ t'.proc.alarmStatus = true then
      { r with entered := r.trapped }
    else r
  | .syscall _, _ =>
    if calledEntry t.proc = some .sigreturn then
      { r with entered := none, restoring := r.entered }
    else r
  | .ret _ _, _ =>
    { r with
      restoring := none
      returns := match r.restoring, t'.mode with
        | some c, .user c' => (c, c') :: r.returns
        | _, _ => r.returns }
  | _, _ => r

def observed (pr : Proc) : System (Thread × Record) ThreadEvent :=
  (thread pr).withHistory {} record

/-! ## The frames -/

def Saves (ctx : UserContext) (tf : Trapframe) : Prop :=
  tf.field .epc = ctx.pc ∧ ∀ r, tf.reg r = ctx.regs r

def clearA0 (ctx : UserContext) : UserContext :=
  ⟨ctx.pc, fun r ↦ if r = .a0 then 0 else ctx.regs r⟩

theorem clearA0_eq_iff : clearA0 ctx = ctx ↔ ctx.regs .a0 = 0 := by
  obtain ⟨pc, regs⟩ := ctx
  simp only [clearA0, UserContext.mk.injEq, true_and]
  constructor
  · intro h
    simpa [eq_comm] using congrFun h .a0
  · intro h
    funext r
    by_cases hr : r = .a0 <;> simp [hr, h]

theorem saves_saveContext (pr : Proc) (ctx : UserContext) :
    Saves ctx (saveContext pr ctx).trapframe :=
  ⟨by simp [saveContext], fun r ↦ by simp [saveContext]⟩

theorem Saves.setReg_a0 (h : Saves ctx tf) : Saves (clearA0 ctx) (tf.setReg .a0 0) :=
  ⟨by simpa [clearA0] using h.1, fun r ↦ by simp [clearA0, h.2 r]⟩

theorem Saves.resumedContext (h : Saves ctx pr.trapframe) (kernel : KernelField → UInt64)
    (scratch : Reg → UInt64) : resumedContext (usertrapret pr kernel) scratch = ctx := by
  obtain ⟨pc, regs⟩ := ctx
  obtain ⟨hpc, hregs⟩ := h
  simp only [Kernel.resumedContext, usertrapret, UserContext.mk.injEq]
  refine ⟨by simpa using hpc, funext fun r ↦ ?_⟩
  simpa using hregs r

/-- A step that touches neither frame nor the alarm status. -/
structure SameFrames (pr pr' : Proc) : Prop where
  trapframe : pr'.trapframe = pr.trapframe
  trapframeAlarm : pr'.trapframeAlarm = pr.trapframeAlarm
  alarmStatus : pr'.alarmStatus = pr.alarmStatus

theorem sameFrames_countTick (pr : Proc) : SameFrames pr (countTick pr) := by
  unfold countTick
  split <;> exact ⟨rfl, rfl, rfl⟩

/-- The alarm code enters the handler, or touches neither frame. -/
theorem alarmTick_frames {kalloc : Bool} (h : alarmTick pr kalloc = .ok pr') :
    (pr.alarmStatus = false ∧ pr'.alarmStatus = true ∧ pr'.trapframeAlarm = some pr.trapframe) ∨
      SameFrames pr pr' := by
  unfold alarmTick at h
  dsimp only at h
  split_ifs at h with hdue hnow hpage
  · cases h
    exact .inl ⟨hdue.2, rfl, rfl⟩
  · cases h
    exact .inr ⟨rfl, rfl, rfl⟩
  · cases h
    exact .inr ⟨rfl, rfl, rfl⟩

theorem dispatchCall_saved {answer : Answer} {entry : Sysno} {r : UInt64 × Proc}
    (hentry : entry ≠ .sigreturn) (h : dispatchCall pr answer entry = some r) :
    r.2.trapframeAlarm = pr.trapframeAlarm ∧ r.2.alarmStatus = pr.alarmStatus := by
  cases entry with
  | exec =>
    cases h
    unfold sysExec
    split <;> exact ⟨rfl, rfl⟩
  | sigreturn => exact absurd rfl hentry
  | exit => cases h
  | _ =>
    cases h
    exact ⟨rfl, rfl⟩

theorem syscall_saved {answer : Answer} (hentry : calledEntry pr ≠ some .sigreturn)
    (h : syscall pr answer = some pr') :
    pr'.trapframeAlarm = pr.trapframeAlarm ∧ pr'.alarmStatus = pr.alarmStatus := by
  unfold syscall at h
  split at h
  · rename_i entry hcalled
    obtain ⟨r, hr, hpr'⟩ := Option.map_eq_some_iff.mp h
    cases hpr'
    exact dispatchCall_saved (fun he ↦ hentry (he ▸ hcalled)) hr
  · cases h
    exact ⟨rfl, rfl⟩

/-- `sigreturn` in a handler leaves the saved frame in place of the trapframe, except for `a0`. -/
theorem syscall_sigreturn {answer : Answer} (hentry : calledEntry pr = some .sigreturn)
    (hsaved : pr.trapframeAlarm = some tf) (h : syscall pr answer = some pr') :
    pr'.trapframeAlarm = none ∧ pr'.alarmStatus = false ∧ pr'.trapframe = tf.setReg .a0 0 := by
  simp only [syscall, hentry, dispatchCall, sysSigreturn, hsaved, Option.map_some,
    Option.some.injEq] at h
  subst h
  exact ⟨rfl, rfl, rfl⟩

/-! ## The invariant -/

structure Inv (t : Thread) (r : Record) : Prop where
  status : t.proc.alarmStatus = t.proc.trapframeAlarm.isSome
  saved : Option.Rel Saves r.entered t.proc.trapframeAlarm
  trapped : t.mode = .timer → ∃ ctx, r.trapped = some ctx ∧ Saves ctx t.proc.trapframe
  restoring : ∀ ctx, r.restoring = some ctx →
    t.mode = .leave ∧ Saves (clearA0 ctx) t.proc.trapframe
  returns : ∀ c c', (c, c') ∈ r.returns → c' = clearA0 c

variable {r : Record}

theorem Inv.not_restoring (hinv : Inv t r) (hmode : t.mode ≠ .leave) : r.restoring = none := by
  cases hr : r.restoring with
  | none => rfl
  | some ctx => exact absurd (hinv.restoring ctx hr).1 hmode

/-- A step outside `usertrap`'s way back that leaves the saved frame alone. -/
theorem Inv.moves (hinv : Inv t r) (hsaved : pr'.trapframeAlarm = t.proc.trapframeAlarm)
    (hstatus : pr'.alarmStatus = t.proc.alarmStatus) (hmode : t.mode ≠ .leave) {mode : Mode}
    (htimer : mode ≠ .timer) : Inv ⟨pr', mode⟩ r where
  status := by rw [hsaved, hstatus, hinv.status]
  saved := by rw [hsaved]; exact hinv.saved
  trapped h := absurd h htimer
  restoring ctx h := by
    rw [hinv.not_restoring hmode] at h
    cases h
  returns := hinv.returns

theorem Inv.stays (hinv : Inv t r) (hsame : SameFrames t.proc pr') : Inv ⟨pr', t.mode⟩ r where
  status := by rw [hsame.trapframeAlarm, hsame.alarmStatus, hinv.status]
  saved := by rw [hsame.trapframeAlarm]; exact hinv.saved
  trapped := by rw [hsame.trapframe]; exact hinv.trapped
  restoring := by rw [hsame.trapframe]; exact hinv.restoring
  returns := hinv.returns

theorem Inv.alarm {kalloc : Bool} (hinv : Inv t r) (hmode : t.mode = .timer)
    (halarm : alarmTick t.proc kalloc = .ok pr') :
    Inv ⟨pr', .leave⟩ (record r t (.alarm kalloc) ⟨pr', .leave⟩) := by
  have hleave : t.mode ≠ .leave := by simp [hmode]
  rcases alarmTick_frames halarm with ⟨hbefore, hafter, hsaved⟩ | hsame
  · obtain ⟨ctx, htrapped, hctx⟩ := hinv.trapped hmode
    have hrecord : record r t (.alarm kalloc) ⟨pr', .leave⟩ = { r with entered := r.trapped } := by
      simp [record, hbefore, hafter]
    rw [hrecord]
    refine ⟨by simp [hafter, hsaved], ?_, fun h ↦ (by cases h), fun c hc ↦ ?_, hinv.returns⟩
    · rw [hsaved, htrapped]
      exact .some hctx
    · rw [hinv.not_restoring hleave] at hc
      cases hc
  · have hrecord : record r t (.alarm kalloc) ⟨pr', .leave⟩ = r := by
      simp [record, hsame.alarmStatus]
    rw [hrecord]
    exact hinv.moves hsame.trapframeAlarm hsame.alarmStatus hleave (by simp)

theorem Inv.syscall {answer : Answer} (hinv : Inv t r) (hmode : t.mode = .syscall)
    (hcall : Kernel.syscall t.proc answer = some pr') :
    Inv ⟨pr', .leave⟩ (record r t (.syscall answer) ⟨pr', .leave⟩) := by
  have hleave : t.mode ≠ .leave := by simp [hmode]
  by_cases hentry : calledEntry t.proc = some .sigreturn
  · have hrecord : record r t (.syscall answer) ⟨pr', .leave⟩ =
        { r with entered := none, restoring := r.entered } := by
      simp [record, hentry]
    rw [hrecord]
    have hrel := hinv.saved
    cases hsaved : t.proc.trapframeAlarm with
    | none =>
      obtain ⟨-, hsaved', hstatus⟩ := syscall_sigreturn_outside hentry hsaved hcall
      have hmoved : Inv ⟨pr', .leave⟩ r := hinv.moves hsaved' hstatus hleave (by simp)
      rw [hsaved] at hrel
      cases hentered : r.entered with
      | some ctx =>
        rw [hentered] at hrel
        cases hrel
      | none =>
        refine ⟨hmoved.status, ?_, hmoved.trapped, fun c hc ↦ ?_, hmoved.returns⟩
        · rw [hsaved', hsaved]
          exact .none
        · cases hc
    | some tf =>
      obtain ⟨hsaved', hstatus, hframe⟩ := syscall_sigreturn hentry hsaved hcall
      refine ⟨by simp [hsaved', hstatus], ?_, fun h ↦ (by cases h), fun c hc ↦ ⟨rfl, ?_⟩,
        hinv.returns⟩
      · rw [hsaved']
        exact .none
      · have hc : r.entered = some c := hc
        rw [hsaved, hc] at hrel
        cases hrel with
        | some hctx => exact hframe ▸ hctx.setReg_a0
  · have hrecord : record r t (.syscall answer) ⟨pr', .leave⟩ = r := by
      simp [record, hentry]
    obtain ⟨hsaved, hstatus⟩ := syscall_saved hentry hcall
    rw [hrecord]
    exact hinv.moves hsaved hstatus hleave (by simp)

theorem Inv.resume (hinv : Inv t r) (kernel : KernelField → UInt64) (scratch : Reg → UInt64) :
    Inv (resume t.proc kernel scratch)
      (record r t (.ret kernel scratch) (resume t.proc kernel scratch)) := by
  refine ⟨hinv.status, hinv.saved, fun h ↦ (by cases h), fun c hc ↦ (by cases hc), ?_⟩
  intro c c' hmem
  cases hrestoring : r.restoring with
  | none =>
    simp only [record, hrestoring] at hmem
    exact hinv.returns c c' hmem
  | some ctx =>
    simp only [record, hrestoring, Alarm.resume, List.mem_cons, Prod.mk.injEq] at hmem
    rcases hmem with ⟨rfl, rfl⟩ | hmem
    · exact (hinv.restoring c hrestoring).2.resumedContext kernel scratch
    · exact hinv.returns c c' hmem

theorem Inv.exits {kernel : KernelField → UInt64} {scratch : Reg → UInt64} (hinv : Inv t r) :
    Inv ⟨t.proc, .exited⟩ (record r t (.ret kernel scratch) ⟨t.proc, .exited⟩) := by
  refine ⟨hinv.status, hinv.saved, fun h ↦ (by cases h), fun c hc ↦ (by cases hc), ?_⟩
  intro c c' hmem
  refine hinv.returns c c' ?_
  cases hrestoring : r.restoring <;> simpa [record, hrestoring] using hmem

theorem Inv.timer {h : Hart} (hinv : Inv ⟨pr, .user ctx⟩ r)
    (hsame : SameFrames (saveContext pr ctx) pr') :
    Inv ⟨pr', .timer⟩ (record r ⟨pr, .user ctx⟩ (.timer h) ⟨pr', .timer⟩) where
  status := by rw [hsame.alarmStatus, hsame.trapframeAlarm]; exact hinv.status
  saved := by rw [hsame.trapframeAlarm]; exact hinv.saved
  trapped _ := ⟨ctx, rfl, by rw [hsame.trapframe]; exact saves_saveContext pr ctx⟩
  restoring c hc := by
    have hnone := hinv.not_restoring (by simp)
    rw [show r.restoring = some c from hc] at hnone
    cases hnone
  returns := hinv.returns

theorem record_exit {answer : Answer} (hcall : Kernel.syscall pr answer = none) :
    record r ⟨pr, .syscall⟩ (.syscall answer) t' = r := by
  have hentry : calledEntry pr ≠ some .sigreturn := by
    intro hentry
    simp [Kernel.syscall, hentry, dispatchCall] at hcall
  simp [record, hentry]

theorem Inv.next_user {e : ThreadEvent} (hinv : Inv ⟨pr, .user ctx⟩ r)
    (hnext : threadNext ⟨pr, .user ctx⟩ e = some t') :
    Inv t' (record r ⟨pr, .user ctx⟩ e t') := by
  cases e <;> simp only [threadNext, reduceCtorEq, Option.some.injEq] at hnext
  case run ctx' =>
      subst hnext
      exact hinv.moves rfl rfl (by simp) (by simp)
  case timer h =>
      subst hnext
      refine hinv.timer ?_
      split
      · exact sameFrames_countTick _
      · exact ⟨rfl, rfl, rfl⟩
  case device =>
      subst hnext
      refine hinv.moves ?_ ?_ ?_ ?_ <;> simp [saveContext]
  case fault =>
      subst hnext
      refine hinv.moves ?_ ?_ ?_ ?_ <;> simp [saveContext]
  case ecall =>
      split at hnext <;> simp only [Option.some.injEq] at hnext <;> subst hnext <;>
        refine hinv.moves ?_ ?_ ?_ ?_ <;> simp [saveContext]
  case interfere o =>
      subst hnext
      exact hinv.stays ⟨rfl, rfl, rfl⟩

theorem Inv.next_timer {e : ThreadEvent} (hinv : Inv ⟨pr, .timer⟩ r)
    (hnext : threadNext ⟨pr, .timer⟩ e = some t') : Inv t' (record r ⟨pr, .timer⟩ e t') := by
  cases e <;> simp only [threadNext, reduceCtorEq, Option.some.injEq] at hnext
  case alarm kalloc =>
      split at hnext
      · rename_i halarm
        obtain rfl := Option.some.inj hnext
        exact hinv.alarm rfl halarm
      · cases hnext
  case interfere o =>
      subst hnext
      exact hinv.stays ⟨rfl, rfl, rfl⟩

theorem Inv.next_syscall {e : ThreadEvent} (hinv : Inv ⟨pr, .syscall⟩ r)
    (hnext : threadNext ⟨pr, .syscall⟩ e = some t') : Inv t' (record r ⟨pr, .syscall⟩ e t') := by
  cases e <;> simp only [threadNext, reduceCtorEq, Option.some.injEq] at hnext
  case syscall answer =>
      split at hnext <;> obtain rfl := Option.some.inj hnext
      · rename_i hcall
        exact hinv.syscall rfl hcall
      · rename_i hcall
        rw [record_exit hcall]
        exact hinv.moves rfl rfl (by simp) (by simp)
  case kernelTick =>
      subst hnext
      exact hinv.stays (sameFrames_countTick pr)
  case interfere o =>
      subst hnext
      exact hinv.stays ⟨rfl, rfl, rfl⟩

theorem Inv.next_leave {e : ThreadEvent} (hinv : Inv ⟨pr, .leave⟩ r)
    (hnext : threadNext ⟨pr, .leave⟩ e = some t') : Inv t' (record r ⟨pr, .leave⟩ e t') := by
  cases e <;> simp only [threadNext, reduceCtorEq, Option.some.injEq] at hnext
  case ret kernel scratch =>
      split at hnext <;> obtain rfl := Option.some.inj hnext
      · exact hinv.exits
      · exact hinv.resume kernel scratch
  case kernelTick =>
      subst hnext
      exact hinv.stays (sameFrames_countTick pr)
  case interfere o =>
      subst hnext
      exact hinv.stays ⟨rfl, rfl, rfl⟩

theorem Inv.next {e : ThreadEvent} (hinv : Inv t r) (hnext : threadNext t e = some t') :
    Inv t' (record r t e t') := by
  obtain ⟨pr, mode⟩ := t
  cases mode with
  | user ctx => exact hinv.next_user hnext
  | timer => exact hinv.next_timer hnext
  | syscall => exact hinv.next_syscall hnext
  | leave => exact hinv.next_leave hnext
  | forkret =>
    cases e <;> simp only [threadNext, reduceCtorEq, Option.some.injEq] at hnext <;> subst hnext
    case ret => exact hinv.resume _ _
    case kernelTick => exact hinv.stays (sameFrames_countTick pr)
    case interfere => exact hinv.stays ⟨rfl, rfl, rfl⟩
  | exited =>
    cases e <;> simp only [threadNext, reduceCtorEq, Option.some.injEq] at hnext
    subst hnext
    exact hinv.stays ⟨rfl, rfl, rfl⟩

/-! ## Alarm transparency -/

/-- In every run of a process, whatever its handlers do: at each return from a handler the program
counter and the registers other than `a0` are those at the interrupt, and the whole context is if and
only if `a0` was 0 there. -/
theorem resumed_eq_interrupted_iff (b : Build) (pid : Int32) (ticks : UInt32) (old : Proc)
    (tf : Trapframe) {o : Thread × Record}
    (ho : (observed (newProc b pid ticks old tf)).Reachable (fun _ _ ↦ True) o) :
    ∀ c c', (c, c') ∈ o.2.returns →
      (c' = c ↔ c.regs .a0 = 0) ∧ c'.pc = c.pc ∧ ∀ r, r ≠ .a0 → c'.regs r = c.regs r := by
  have hinv : Inv o.1 o.2 := by
    refine ho.invariant (fun o ↦ Inv o.1 o.2) ?_ fun o e o' hinv _ hnext ↦ ?_
    · exact ⟨rfl, .none, fun h ↦ (by cases h), fun c hc ↦ (by cases hc), fun c c' h ↦ (by cases h)⟩
    · obtain ⟨hstep, hrecord⟩ := System.withHistory_next.mp hnext
      rw [hrecord]
      exact hinv.next hstep
  intro c c' hmem
  rw [hinv.returns c c' hmem]
  exact ⟨clearA0_eq_iff, rfl, fun r hr ↦ by simp [clearA0, hr]⟩

/-- The process calls `sigalarm(2, 0x100)`, is interrupted twice while it computes with `value` in
`a0`, and its handler calls `sigreturn` at once. -/
def oneAlarm (value : UInt64) : List ThreadEvent :=
  let back : ThreadEvent := .ret (fun _ ↦ 0) (fun _ ↦ 0)
  [back, .run (context 0x40 2 0x100 24), .ecall, .syscall ⟨0, none⟩, back,
   .run (context 0x80 value 0 0), .timer 1, .alarm true, back,
   .run (context 0x80 value 0 0), .timer 1, .alarm true, back,
   .run (context 0x104 0 0 25), .ecall, .syscall ⟨0, none⟩, back]

set_option maxRecDepth 100000 in
theorem resumed_eq_interrupted_zero :
    ∃ o, ((observed firstProc).Reachable (fun _ _ ↦ True) o ∧ o.2.returns ≠ []) ∧
      ∀ c c', (c, c') ∈ o.2.returns →
        (c' = c ↔ c.regs .a0 = 0) ∧ c'.pc = c.pc ∧ ∀ r, r ≠ .a0 → c'.regs r = c.regs r := by
  obtain ⟨o, ho, hreturns⟩ := (observed firstProc).exists_reachable (fun _ _ ↦ True)
    (fun o ↦ o.2.returns.length = 1) (oneAlarm 0) (by decide +kernel)
  refine ⟨o, ⟨ho, fun hnil ↦ ?_⟩, resumed_eq_interrupted_iff .default 1 0 {} .zero ho⟩
  rw [hnil] at hreturns
  cases hreturns

set_option maxRecDepth 100000 in
/-- A program that computes with 0xac in `a0` resumes with 0 in it. -/
theorem alarm_changes_a0 :
    ∃ o, (observed firstProc).Reachable (fun _ _ ↦ True) o ∧
      ∃ c c', (c, c') ∈ o.2.returns ∧ c.regs .a0 = 0xac ∧ c'.regs .a0 = 0 := by
  obtain ⟨o, ho, hreturn⟩ := (observed firstProc).exists_reachable (fun _ _ ↦ True)
    (fun o ↦ ∃ p ∈ o.2.returns, p.1.regs .a0 = 0xac ∧ p.2.regs .a0 = 0) (oneAlarm 0xac)
    (by decide +kernel)
  obtain ⟨p, hmem, hbefore, hafter⟩ := hreturn
  exact ⟨o, ho, p.1, p.2, hmem, hbefore, hafter⟩

end EnhancedXv6.Alarm
