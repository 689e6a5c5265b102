import EnhancedXv6.Kernel.System

/-!
# What a step of the MLFQ kernel can do

Each invariant of the MLFQ build concerns a few fields of a process: its state, its level,
`status_queue`, `start_time` and `wait_ticks`.  `Effect s e s'` lists what the kinds of steps do to
them, so that an invariant is proved by cases on `Effect` and never unfolds the kernel.

`update_time` never counts a waiting tick, so `wait_ticks` stays 0 in every run and the aging loop of
`usertrap` never acts (`agingLoop_eq`).
-/

namespace EnhancedXv6.Mlfq

open Kernel Trap Transition Fallible

/-! ## Processes that a step touches only in passing -/

/-- The level, `status_queue` and `wait_ticks` are as before, and `start_time` grows only by a clock
tick that strikes while the process runs. -/
structure Kept (tick : Bool) (pr pr' : Proc) : Prop where
  level : pr'.priorityQueueNumber = pr.priorityQueueNumber
  status : pr'.statusQueue = pr.statusQueue
  waitTicks : pr'.waitTicks = pr.waitTicks
  startTime : pr'.startTime =
    if tick = true ∧ pr.state = .running then pr.startTime + 1 else pr.startTime

/-- The state is as before, except that a sleeper may have been woken. -/
def Woken (pr pr' : Proc) : Prop :=
  pr'.state = pr.state ∨ (pr.state = .sleeping ∧ pr'.state = .runnable)

/-- What a step does to the processes it is not about. -/
structure Stirred (tick : Bool) (pr pr' : Proc) : Prop extends Kept tick pr pr' where
  woken : Woken pr pr'

section Processes

variable {tick : Bool} {pr pr' pr'' : Proc}

theorem Kept.of_eq (hlevel : pr'.priorityQueueNumber = pr.priorityQueueNumber)
    (hstatus : pr'.statusQueue = pr.statusQueue) (hwait : pr'.waitTicks = pr.waitTicks)
    (hstart : pr'.startTime = pr.startTime) : Kept false pr pr' :=
  ⟨hlevel, hstatus, hwait, by simpa using hstart⟩

theorem Kept.refl (pr : Proc) : Kept false pr pr := .of_eq rfl rfl rfl rfl

theorem Stirred.refl (pr : Proc) : Stirred false pr pr := ⟨Kept.refl pr, .inl rfl⟩

theorem Kept.trans (h : Kept tick pr pr') (h' : Kept false pr' pr'') : Kept tick pr pr'' :=
  ⟨h'.level.trans h.level, h'.status.trans h.status, h'.waitTicks.trans h.waitTicks, by
    rw [← h.startTime]
    simpa using h'.startTime⟩

theorem Woken.trans (h : Woken pr pr') (h' : Woken pr' pr'') : Woken pr pr'' := by
  rcases h with h | ⟨h₁, h₂⟩ <;> rcases h' with h' | ⟨h₁', h₂'⟩
  · exact .inl (h'.trans h)
  · exact .inr ⟨h ▸ h₁', h₂'⟩
  · exact .inr ⟨h₁, h'.trans h₂⟩
  · exact .inr ⟨h₁, h₂'⟩

theorem Stirred.trans (h : Stirred tick pr pr') (h' : Stirred false pr' pr'') :
    Stirred tick pr pr'' :=
  ⟨h.toKept.trans h'.toKept, h.woken.trans h'.woken⟩

/-- Nothing but a dispatch makes a process run, and only its own operations stop it. -/
theorem Woken.running_iff (h : Woken pr pr') : pr'.state = .running ↔ pr.state = .running := by
  rcases h with h | ⟨h₁, h₂⟩
  · rw [h]
  · simp [h₁, h₂]

/-- A change of fields that no invariant of the queues depends on. -/
theorem Stirred.of_eq (hstate : pr'.state = pr.state)
    (hlevel : pr'.priorityQueueNumber = pr.priorityQueueNumber)
    (hstatus : pr'.statusQueue = pr.statusQueue) (hwait : pr'.waitTicks = pr.waitTicks)
    (hstart : pr'.startTime = pr.startTime) : Stirred false pr pr' :=
  ⟨.of_eq hlevel hstatus hwait hstart, .inl hstate⟩

end Processes

/-! ## Kinds of steps -/

/-- No process is the subject of the step. -/
structure Stir (tick : Bool) (s s' : State) : Prop where
  proc : ∀ i, Stirred tick (s.proc i) (s'.proc i)
  queue : s'.queue = s.queue
  cpu : s'.cpu = s.cpu
  forkChild : s'.forkChild = s.forkChild

structure Leave (tick : Bool) (h : Hart) (p : Slot) (s s' : State) : Prop where
  current : s.cpu h = some p
  left : (s'.proc p).state = .sleeping ∨ (s'.proc p).state = .runnable ∨
    (s'.proc p).state = .zombie
  kept : Kept tick (s.proc p) (s'.proc p)
  others : ∀ i, i ≠ p → Stirred tick (s.proc i) (s'.proc i)
  queue : s'.queue = s.queue
  cpu : s'.cpu = Function.update s.cpu h none
  forkChild : s'.forkChild = s.forkChild

/-- The step is about slot `np`, and no other. -/
structure Around (np : Slot) (s s' : State) : Prop where
  others : ∀ i, i ≠ np → Stirred false (s.proc i) (s'.proc i)
  queue : s'.queue = s.queue
  cpu : s'.cpu = s.cpu

def charges : Event → Bool
  | .userTimer h _ _ | .kernelTimer h => h = 0
  | _ => false

def reaped (s : State) : Event → Option Slot
  | .wait h false | .waitx h false => (s.cpu h).bind (findZombie s)
  | _ => none

def allocated (s : State) : Event → Option Slot
  | .forkAlloc _ _ => findUnused s
  | _ => none

theorem charges_of_allocated {s : State} {e : Event} {np : Slot} (h : allocated s e = some np) :
    charges e = false := by
  cases e <;> first | rfl | cases h

theorem charges_of_reaped {s : State} {e : Event} {np : Slot} (h : reaped s e = some np) :
    charges e = false := by
  cases e <;> first | rfl | cases h

inductive Effect (s : State) : Event → State → Prop
  | pass {h : Hart} {s' : State} : s.cpu h = none → Mlfq.pass s h = .ok s' → Effect s (.pass h) s'
  /-- a timer interrupt from user mode that the process survives -/
  | slice {h : Hart} {ctx : UserContext} {kalloc : Bool} {p : Slot} {t u : State} :
      s.cpu h = some p → Stir (charges (.userTimer h ctx kalloc)) s t → expire t p = .ok u →
      Effect s (.userTimer h ctx kalloc) (yield .mlfq u h p)
  | stir {e : Event} {s' : State} : Stir (charges e) s s' → Effect s e s'
  | leave {e : Event} {p : Slot} {s' : State} : Leave (charges e) e.hart p s s' → Effect s e s'
  /-- `fork` took a slot -/
  | alloc {e : Event} {p np : Slot} {s' : State} :
      s.cpu e.hart = some p → allocated s e = some np → (s.proc np).state = .unused →
      (s'.proc np).state = .used → (s'.proc np).statusQueue = false →
      (s'.proc np).priorityQueueNumber = 0 → (s'.proc np).waitTicks = 0 →
      (s'.proc np).startTime = (s.proc np).startTime → Around np s s' →
      s'.forkChild = Function.update s.forkChild p (some np) → Effect s e s'
  /-- `fork` took a slot and gave it back -/
  | discard {e : Event} {np : Slot} {s' : State} :
      allocated s e = some np → (s.proc np).state = .unused → (s'.proc np).state = .unused →
      (s'.proc np).statusQueue = false →
      ((s'.proc np).priorityQueueNumber = (s.proc np).priorityQueueNumber ∨
        (s'.proc np).priorityQueueNumber = 0) →
      ((s'.proc np).waitTicks = (s.proc np).waitTicks ∨ (s'.proc np).waitTicks = 0) →
      (s'.proc np).startTime = (s.proc np).startTime → Around np s s' →
      s'.forkChild = s.forkChild → Effect s e s'
  /-- `fork` made the child `RUNNABLE` -/
  | publish {h : Hart} {p np : Slot} {s' : State} :
      s.cpu h = some p → s.forkChild p = some np → (s'.proc np).state = .runnable →
      Kept false (s.proc np) (s'.proc np) → Around np s s' →
      s'.forkChild = Function.update s.forkChild p none → Effect s (.forkPublish h) s'
  /-- `wait` or `waitx` freed a child -/
  | reap {e : Event} {np : Slot} {s' : State} :
      reaped s e = some np → (s.proc np).state = .zombie → (s'.proc np).state = .unused →
      (s'.proc np).statusQueue = false →
      (s'.proc np).priorityQueueNumber = (s.proc np).priorityQueueNumber →
      (s'.proc np).waitTicks = (s.proc np).waitTicks →
      (s'.proc np).startTime = (s.proc np).startTime → Around np s s' →
      s'.forkChild = s.forkChild → Effect s e s'

/-! ## The process operations -/

section Operations

variable {tick : Bool} {s t s' : State} {h : Hart} {p : Slot}

theorem Stir.refl (s : State) : Stir false s s :=
  ⟨fun i ↦ Stirred.refl (s.proc i), rfl, rfl, rfl⟩

theorem Stir.trans {u : State} (h : Stir tick s t) (h' : Stir false t u) : Stir tick s u :=
  ⟨fun i ↦ (h.proc i).trans (h'.proc i), h'.queue.trans h.queue, h'.cpu.trans h.cpu,
    h'.forkChild.trans h.forkChild⟩

theorem stir_modify {f : Proc → Proc} (hf : Stirred false (s.proc p) (f (s.proc p))) :
    Stir false s (s.modify p f) := by
  refine ⟨fun i ↦ ?_, rfl, rfl, rfl⟩
  by_cases hi : i = p
  · subst hi
    simpa using hf
  · simpa [hi] using Stirred.refl (s.proc i)

theorem stirred_of_rehomed {pr pr' : Proc} (h : Rehomed pr pr') : Stirred false pr pr' := by
  obtain ⟨state, parent, rfl, hstate⟩ := h
  exact ⟨.of_eq rfl rfl rfl rfl, hstate⟩

theorem stir_wakeup (s : State) (me : Option Slot) (chan : Chan) :
    Stir false s (wakeup s me chan) :=
  ⟨fun i ↦ stirred_of_rehomed (rehomed_wakeup s me chan i), rfl, rfl, rfl⟩

theorem stirred_killProc (pr : Proc) : Stirred false pr (killProc pr) := by
  refine ⟨.of_eq rfl rfl rfl rfl, ?_⟩
  by_cases hsleep : pr.state = .sleeping
  · exact .inr ⟨hsleep, if_pos hsleep⟩
  · exact .inl (if_neg hsleep)

theorem stir_kill (s : State) (pid : Int32) : Stir false s (kill s pid).2 := by
  unfold kill
  cases table.find? fun p ↦ (s.proc p).pid = pid with
  | none => exact Stir.refl s
  | some p => exact stir_modify (stirred_killProc (s.proc p))

/-- `reparent` changes parents and wakes sleepers. -/
theorem stir_reparent (s : State) (p : Slot) : Stir false s (reparent s p) := by
  refine ⟨fun i ↦ stirred_of_rehomed (rehomed_reparent s p i), ?_, ?_, ?_⟩ <;> rw [reparent_eq]

/-- `update_time` charges a running process and touches no other. -/
theorem stirred_updateTimeProc (pr : Proc) : Stirred true pr (updateTimeProc .mlfq pr) := by
  by_cases hrun : pr.state = .running
  · rw [updateTimeProc, if_pos hrun]
    exact ⟨⟨rfl, rfl, rfl, by simp [hrun]⟩, .inl rfl⟩
  · rw [updateTimeProc, if_neg hrun, if_neg hrun]
    exact ⟨⟨rfl, rfl, rfl, by simp [hrun]⟩, .inl rfl⟩

theorem stir_timerintr (s : State) (h : Hart) : Stir (h = 0) s (timerintr .mlfq s h) := by
  by_cases hh : h = 0
  · have htime : Stir true s (updateTime .mlfq { s with ticks := s.ticks + 1 }) :=
      ⟨fun i ↦ stirred_updateTimeProc (s.proc i), rfl, rfl, rfl⟩
    rw [timerintr, if_pos hh, decide_eq_true hh]
    refine (htime.trans ?_).trans (stir_wakeup _ _ _)
    cases s.cpu h with
    | none => exact Stir.refl _
    | some p =>
      refine stir_modify ?_
      unfold countTick
      split <;> exact .of_eq rfl rfl rfl rfl rfl
  · rw [timerintr, if_neg hh, decide_eq_false hh]
    exact Stir.refl s

/-- A process whose state is set and whose hart is cleared has left. -/
theorem leave_setCpu {f : Proc → Proc} (hstir : Stir tick s t) (hp : s.cpu h = some p)
    (hkept : Kept false (t.proc p) (f (t.proc p)))
    (hleft : (f (t.proc p)).state = .sleeping ∨ (f (t.proc p)).state = .runnable ∨
      (f (t.proc p)).state = .zombie) :
    Leave tick h p s ((t.modify p f).setCpu h none) := by
  refine ⟨hp, by simpa using hleft, ?_, fun i hi ↦ ?_, hstir.queue, ?_, hstir.forkChild⟩
  · simpa using (hstir.proc p).toKept.trans hkept
  · simpa [hi] using hstir.proc i
  · funext i
    by_cases hi : i = h
    · simp [hi]
    · simp [hi, hstir.cpu]

theorem leave_sleep (hp : s.cpu h = some p) (chan : Chan) :
    Leave false h p s (sleep s h p chan) :=
  leave_setCpu (Stir.refl s) hp (.of_eq rfl rfl rfl rfl) (.inl rfl)

theorem leave_yield (hstir : Stir tick s t) (hp : s.cpu h = some p) :
    Leave tick h p s (yield .mlfq t h p) := by
  refine leave_setCpu hstir hp ?_ ?_
  · split <;> exact .of_eq rfl rfl rfl rfl
  · split
    · rename_i hsleep
      exact .inl hsleep.2
    · exact .inr (.inl rfl)

theorem leave_exit {status : Int32} (hstir : Stir tick s t) (hp : s.cpu h = some p)
    (hexit : exit t h p status = .ok s') : Leave tick h p s s' := by
  unfold exit at hexit
  obtain ⟨-, hexit⟩ := ite_error_eq_ok.mp hexit
  cases hexit
  have hclosed : Stir false t (t.modify p closeFiles) :=
    stir_modify (.of_eq rfl rfl rfl rfl rfl)
  have hparted := (hstir.trans hclosed).trans (stir_reparent _ p)
  exact leave_setCpu (hparted.trans (stir_wakeup _ _ _)) hp (.of_eq rfl rfl rfl rfl)
    (.inr (.inr rfl))

/-! ## Timer interrupts from user mode -/

/-- The alarm code does not touch what scheduling depends on. -/
theorem stirred_alarmTick {pr pr' : Proc} {kalloc : Bool} (h : alarmTick pr kalloc = .ok pr') :
    Stirred false pr pr' := by
  unfold alarmTick at h
  split at h
  · dsimp only at h
    split at h
    · split at h
      · cases h
        exact .of_eq rfl rfl rfl rfl rfl
      · cases h
    · cases h
      exact .of_eq rfl rfl rfl rfl rfl
  · cases h
    exact Stirred.refl pr

theorem stir_usertrapTimer {ctx : UserContext} {kalloc : Bool}
    (htrap : usertrapTimer .mlfq s h p ctx kalloc = .ok t) : Stir (h = 0) s t := by
  obtain ⟨pr, halarm, hend⟩ := bind_eq_ok.mp htrap
  cases hend
  -- saving the registers touches nothing the clock looks at
  have hclock := stir_timerintr (s.modify p fun pr ↦ saveContext pr ctx) h
  refine Stir.trans ⟨fun i ↦ ?_, hclock.queue, hclock.cpu, hclock.forkChild⟩
    (stir_modify (stirred_alarmTick halarm))
  have hproc := hclock.proc i
  by_cases hi : i = p
  · subst hi
    simp only [State.modify_proc, if_true] at hproc
    exact ⟨⟨hproc.level, hproc.status, hproc.waitTicks, hproc.startTime⟩, hproc.woken⟩
  · simpa [hi] using hproc

/-- With `wait_ticks` at 0 the aging loop finds nothing to do. -/
theorem agingLoop_eq (hwait : ∀ i, (s.proc i).waitTicks = 0) : agingLoop s = .ok s := by
  have hstep : ∀ c, agingStep s c = .ok s := by
    intro c
    have hidle : ¬ ((s.proc c).statusQueue = true ∧ (s.proc c).state = .runnable ∧
        (s.proc c).waitTicks ≥ 48) := by
      rw [hwait c]
      rintro ⟨-, -, h⟩
      exact absurd h (by decide)
    rw [agingStep, if_neg hidle]
    rfl
  unfold agingLoop
  generalize table = slots
  induction slots with
  | nil => rfl
  | cons c slots ih => rw [List.foldlM_cons, hstep c, ok_bind, ih]

/-- What `usertrap` does from the test of `killed` to the end of the aging loop. -/
theorem usertrapAge_eq (hwait : ∀ i, (s.proc i).waitTicks = 0) :
    usertrapAge .mlfq s p = .ok (if (s.proc p).killed then none else some s) := by
  unfold usertrapAge
  split
  · rfl
  · simp [agingLoop_eq hwait]

theorem Stir.waitTicks (hstir : Stir tick s t) (hwait : ∀ i, (s.proc i).waitTicks = 0) (i : Slot) :
    (t.proc i).waitTicks = 0 :=
  (hstir.proc i).waitTicks.trans (hwait i)

end Operations

/-! ## Every step has an effect -/

section Steps

variable {s s' : State} {h : Hart} {p : Slot} {e : Event}

theorem Around.of_eq {np : Slot} (hothers : ∀ i, i ≠ np → s'.proc i = s.proc i)
    (hqueue : s'.queue = s.queue) (hcpu : s'.cpu = s.cpu) : Around np s s' :=
  ⟨fun i hi ↦ hothers i hi ▸ Stirred.refl (s.proc i), hqueue, hcpu⟩

theorem unused_of_allocated {np : Slot} (halloc : allocated s e = some np) :
    (s.proc np).state = .unused := by
  cases e <;> first | exact findUnused_state halloc | cases halloc

/-- The queueing fields of the slot that `fork` took or gave back. -/
theorem forkAllocAt_queueing (s : State) (p np : Slot) (outcome : AllocOutcome) :
    ((forkAllocAt .mlfq s p np outcome).proc np).statusQueue = false ∧
    (((forkAllocAt .mlfq s p np outcome).proc np).priorityQueueNumber =
      if outcome = .ok ∨ outcome = .noCopy then 0 else (s.proc np).priorityQueueNumber) ∧
    (((forkAllocAt .mlfq s p np outcome).proc np).waitTicks =
      if outcome = .ok ∨ outcome = .noCopy then 0 else (s.proc np).waitTicks) ∧
    ((forkAllocAt .mlfq s p np outcome).proc np).startTime = (s.proc np).startTime := by
  cases outcome <;> simp [forkAllocAt, allocprocAt, forkCopy, allocprocFound, allocprocReady,
    freeproc]

theorem around_forkAllocAt {np : Slot} (outcome : AllocOutcome) :
    Around np s (forkAllocAt .mlfq s p np outcome) := by
  refine .of_eq (fun i hi ↦ forkAllocAt_proc_of_ne hi) ?_ ?_ <;> cases outcome <;> rfl

theorem effect_forkAlloc (hp : s.cpu h = some p) (outcome : AllocOutcome) :
    Effect s (.forkAlloc h outcome) (forkAlloc .mlfq s p outcome) := by
  cases hfind : findUnused s with
  | none =>
    rw [forkAlloc_of_full hfind]
    exact .stir (Stir.refl s)
  | some np =>
    have hunused := findUnused_state hfind
    have hstate := forkAllocAt_state .mlfq s p np outcome
    have hfork := forkAllocAt_forkChild .mlfq s p np outcome
    obtain ⟨hstatus, hlevel, hwait, hstart⟩ := forkAllocAt_queueing s p np outcome
    rw [forkAlloc_eq hfind]
    by_cases hok : outcome = .ok
    · rw [if_pos hok] at hstate hfork
      rw [if_pos (.inl hok)] at hlevel hwait
      exact .alloc hp hfind hunused hstate hstatus hlevel hwait hstart
        (around_forkAllocAt outcome) hfork
    · rw [if_neg hok] at hstate hfork
      refine .discard hfind hunused hstate hstatus ?_ ?_ hstart (around_forkAllocAt outcome) hfork
      · rw [hlevel]
        split <;> simp
      · rw [hwait]
        split <;> simp

theorem effect_forkPublish {np : Slot} (hp : s.cpu h = some p) (hnp : s.forkChild p = some np) :
    Effect s (.forkPublish h) (forkPublish s p) := by
  simp only [forkPublish, hnp]
  refine .publish hp hnp (by simp) (.of_eq (by simp) (by simp) (by simp) (by simp))
    (.of_eq (fun i hi ↦ by simp [hi]) rfl rfl) ?_
  funext i
  simp [Function.update_apply]

/-- A child that was freed after the counters of its parent were updated. -/
theorem effect_reap {pp : Slot} {t : State} (hreaped : reaped s e = some pp)
    (hzombie : (s.proc pp).state = .zombie) (hstir : Stir false s t) :
    Effect s e (t.modify pp (freeproc .mlfq)) := by
  have hkept := (hstir.proc pp).toKept
  refine .reap hreaped hzombie (by simp [freeproc]) (by simp [freeproc])
    (by simpa [freeproc] using hkept.level) (by simpa [freeproc] using hkept.waitTicks)
    (by simpa [freeproc] using hkept.startTime) ⟨fun i hi ↦ ?_, hstir.queue, hstir.cpu⟩
    hstir.forkChild
  simpa [hi] using hstir.proc i

theorem effect_wait {copyoutFails : Bool} {r : Int32} (hp : s.cpu h = some p)
    (hwait : wait .mlfq s p copyoutFails = some (r, s')) : Effect s (.wait h copyoutFails) s' := by
  unfold wait at hwait
  cases hfind : findZombie s p with
  | some pp =>
    have hcounters : Stir false s (s.modify p (addCounters (s.proc pp).sysCounter)) :=
      stir_modify (.of_eq rfl rfl rfl rfl rfl)
    cases copyoutFails with
    | true =>
      simp only [hfind, if_true] at hwait
      cases hwait
      exact .stir hcounters
    | false =>
      simp only [hfind] at hwait
      cases hwait
      exact effect_reap (by simp [reaped, hp, hfind]) (findZombie_spec hfind).2 hcounters
  | none =>
    simp only [hfind] at hwait
    split at hwait
    · cases hwait
      exact .stir (Stir.refl s)
    · cases hwait

theorem effect_waitx {copyoutFails : Bool} {r : Int32} {times : Option (UInt32 × UInt32)}
    (hp : s.cpu h = some p) (hwait : waitx .mlfq s p copyoutFails = some (r, times, s')) :
    Effect s (.waitx h copyoutFails) s' := by
  unfold waitx at hwait
  cases hfind : findZombie s p with
  | some pp =>
    cases copyoutFails with
    | true =>
      simp only [hfind, if_true] at hwait
      cases hwait
      exact .stir (Stir.refl s)
    | false =>
      simp only [hfind] at hwait
      cases hwait
      exact effect_reap (by simp [reaped, hp, hfind]) (findZombie_spec hfind).2 (Stir.refl s)
  | none =>
    simp only [hfind] at hwait
    split at hwait
    · cases hwait
      exact .stir (Stir.refl s)
    · cases hwait

theorem effect_userTimer {ctx : UserContext} {kalloc : Bool} (hp : s.cpu h = some p)
    (hwait : ∀ i, (s.proc i).waitTicks = 0)
    (htrap : usertrap .mlfq s h p ctx kalloc = .ok s') : Effect s (.userTimer h ctx kalloc) s' := by
  obtain ⟨t, htimer, hrest⟩ := bind_eq_ok.mp htrap
  have hstir := stir_usertrapTimer htimer
  rw [usertrapAge_eq (hstir.waitTicks hwait), ok_bind] at hrest
  split at hrest
  · rename_i hkilled
    exact .leave (leave_exit hstir hp hrest)
  · rename_i hkilled
    split at hkilled
    · cases hkilled
    · cases hkilled
      simp only [if_true] at hrest
      obtain ⟨u, hexpire, hend⟩ := bind_eq_ok.mp hrest
      cases hend
      exact .slice hp hstir hexpire

theorem effect_trapReturn (hp : s.cpu h = some p) (hwait : ∀ i, (s.proc i).waitTicks = 0)
    (htrap : usertrapReturn .mlfq s h p = .ok s') : Effect s (.trapReturn h) s' := by
  rw [usertrapReturn, usertrapAge_eq hwait, ok_bind] at htrap
  split at htrap
  · exact .leave (leave_exit (Stir.refl s) hp htrap)
  · rename_i hkilled
    split at hkilled
    · cases hkilled
    · cases hkilled
      cases htrap
      exact .stir (Stir.refl s)

theorem effect_kernelTimer (s : State) (h : Hart) :
    Effect s (.kernelTimer h) (kerneltrap .mlfq s h) := by
  have hstir := stir_timerintr s h
  unfold kerneltrap
  dsimp only
  split
  · exact .stir hstir
  · rename_i p hp
    rw [hstir.cpu] at hp
    split
    · exact .leave (leave_yield hstir hp)
    · exact .stir hstir

/-- Every step of a kernel whose `wait_ticks` are all 0 has one of the listed effects. -/
theorem effect_of_next (hwait : ∀ i, (s.proc i).waitTicks = 0)
    (hnext : (system .mlfq).next s e = some s') : Effect s e s' := by
  obtain ⟨henabled, hexec⟩ := system_next.mp hnext
  cases e with
  | pass h => exact .pass henabled.2 hexec
  | poll h p => cases henabled.1
  | wakeup h chan =>
    cases hexec
    exact .stir (stir_wakeup s _ chan)
  | kernelTimer h =>
    cases hexec
    exact effect_kernelTimer s h
  | kill h pid =>
    cases hexec
    exact .stir (stir_kill s pid)
  | userTimer h ctx kalloc =>
    obtain ⟨p, hp, -⟩ := henabled
    exact effect_userTimer hp hwait ((asProcess_some hp).symm.trans hexec)
  | trapReturn h =>
    obtain ⟨p, hp, -⟩ := henabled
    exact effect_trapReturn hp hwait ((asProcess_some hp).symm.trans hexec)
  | sleep h chan =>
    obtain ⟨p, hp, -⟩ := henabled
    cases (asProcess_some hp).symm.trans hexec
    exact .leave (leave_sleep hp chan)
  | forkAlloc h outcome =>
    obtain ⟨p, hp, -⟩ := henabled
    cases (asProcess_some hp).symm.trans hexec
    exact effect_forkAlloc hp outcome
  | forkPublish h =>
    obtain ⟨p, np, hp, hnp⟩ := henabled
    cases (asProcess_some hp).symm.trans hexec
    exact effect_forkPublish hp hnp
  | exit h status =>
    obtain ⟨p, hp, -⟩ := henabled
    exact .leave (leave_exit (Stir.refl s) hp ((asProcess_some hp).symm.trans hexec))
  | wait h copyoutFails =>
    obtain ⟨p, hp, -⟩ := henabled
    rcases exec_wait hp hexec with rfl | ⟨r, hscan, rfl⟩
    · exact .leave (leave_sleep hp _)
    · exact effect_wait hp hscan
  | waitx h copyoutFails =>
    obtain ⟨p, hp, -⟩ := henabled
    rcases exec_waitx hp hexec with rfl | ⟨r, hscan, rfl⟩
    · exact .leave (leave_sleep hp _)
    · exact effect_waitx hp hscan
  | settickets h number =>
    obtain ⟨p, hp, -⟩ := henabled
    cases (asProcess_some hp).symm.trans hexec
    unfold settickets
    split
    · exact .stir (Stir.refl s)
    · dsimp only
      exact .stir (stir_modify (.of_eq rfl rfl rfl rfl rfl))

end Steps

/-! ## The end of a time slice -/

section Expiry

variable {s t : State} {xs : Fin queueSize → List Slot} {p : Slot}

structure Demoted (p : Slot) (s t : State) : Prop where
  state : ∀ i, (t.proc i).state = (s.proc i).state
  level : (t.proc p).priorityQueueNumber = nextLevel (s.proc p).priorityQueueNumber
  startTime : (t.proc p).startTime = 0
  waitTicks : (t.proc p).waitTicks = 0
  others : ∀ i, i ≠ p → (t.proc i).priorityQueueNumber = (s.proc i).priorityQueueNumber ∧
    (t.proc i).startTime = (s.proc i).startTime ∧ (t.proc i).waitTicks = (s.proc i).waitTicks
  slice : ∀ q, (t.queue q).priorityQueueTicks = (s.queue q).priorityQueueTicks
  cpu : t.cpu = s.cpu
  forkChild : t.forkChild = s.forkChild

/-- What the end of `usertrap` does at a timer interrupt of process `p` at level `q`. -/
inductive Expired (s : State) (xs : Fin queueSize → List Slot) (p : Slot) (q : Fin queueSize) :
    State → Prop
  /-- the time slice is not used up -/
  | unexpired : ¬ (s.proc p).startTime ≥ (s.queue q).priorityQueueTicks → Expired s xs p q s
  /-- the queue of the process is empty -/
  | empty {t : State} : (s.proc p).startTime ≥ (s.queue q).priorityQueueTicks → xs q = [] →
      Rep t xs → Demoted p s t →
      (∀ i, (t.proc i).statusQueue = (s.proc i).statusQueue) → Expired s xs p q t
  /-- the front of the queue is popped, whoever it is -/
  | popped {front : Slot} {rest : List Slot} {t : State} :
      (s.proc p).startTime ≥ (s.queue q).priorityQueueTicks → xs q = front :: rest →
      Rep t (Function.update xs q rest) → Demoted p s t →
      (∀ i, (t.proc i).statusQueue =
        if i = p ∨ i = front then false else (s.proc i).statusQueue) → Expired s xs p q t

theorem Frame.demoted (hframe : Frame s t) : Demoted p s (t.modify p demote) := by
  refine ⟨fun i ↦ ?_, ?_, by simp [demote], by simp [demote], fun i hi ↦ ?_, hframe.slice,
    hframe.cpu, hframe.forkChild⟩
  · by_cases hi : i = p
    · subst hi
      simpa [demote] using hframe.state i
    · simpa [hi] using hframe.state i
  · simp [demote, hframe.level p]
  · simpa [hi] using ⟨hframe.level i, hframe.startTime i, hframe.waitTicks i⟩

/-- The end of a time slice never fails: whatever the queue of the process holds can be popped. -/
theorem expire_spec (hrep : Rep s xs) {q : Fin queueSize}
    (hlevel : (s.proc p).priorityQueueNumber = q) :
    ∃ t, expire s p = .ok t ∧ Expired s xs p q t := by
  simp only [expire, hlevel, queueIndex_val, ok_bind]
  by_cases hslice : (s.proc p).startTime ≥ (s.queue q).priorityQueueTicks
  · cases hq : xs q with
    | nil =>
      have htail : ¬ (s.queue q).tail > 0 := by simp [(hrep q).tail, hq]
      refine ⟨s.modify p demote, ?_, .empty hslice hq hrep (Frame.refl s).demoted fun i ↦ ?_⟩
      · simp only [if_pos hslice, if_neg htail, pure_eq_ok, ok_bind]
      · by_cases hi : i = p <;> simp [hi, demote]
    | cons front rest =>
      have htail : (s.queue q).tail > 0 := by simp [(hrep q).tail, hq]
      obtain ⟨t, hpop, hrep', hframe, hstatus⟩ := pop_spec hrep hq
      refine ⟨(t.modify p fun pr ↦ { pr with statusQueue := false }).modify p demote, ?_,
        .popped hslice hq hrep' (hframe.clearStatus p).demoted fun i ↦ ?_⟩
      · simp only [if_pos hslice, if_pos htail, hpop, pure_eq_ok, ok_bind]
      · have h := hstatus i
        by_cases hi : i = p
        · simp [hi, demote]
        · simpa [hi] using h
  · exact ⟨s, by rw [if_neg hslice]; rfl, .unexpired hslice⟩

end Expiry

end EnhancedXv6.Mlfq
