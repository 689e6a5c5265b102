import EnhancedXv6.Mlfq.Placement

/-!
# The MLFQ scheduler on several harts

The MLFQ scheduler reads `p->state`, `p->status_queue` and the queues without a lock, and takes
`p->lock` only for the switch.  Here a pass is cut at each of these reads: every hart has a program
counter, and the harts, the processes they run and the clock interleave in any order.  A queue edit
together with the read of the level it uses is one step, and so is the section under `p->lock`.  All
other events of the kernel (`fork`, `exit`, `wait`, a timer interrupt and so on) are single steps too.

After line 682 tested `RUNNABLE`, line 683 takes the lock and does not test again.  `Exclusive`
holds in the runs in which no other hart is in that window for the same process.
-/

namespace EnhancedXv6.Smp

open Kernel Mlfq Transition Fallible

/-! ## The model -/

inductive Pc
  /-- at the top of the loop, or switched to a process -/
  | start
  /-- before the read of `p->state` in the scan -/
  | scanState (p : Slot)
  /-- before the read of `p->status_queue` in the scan -/
  | scanStatus (p : Slot)
  /-- before the enqueue of the scan -/
  | scanEnqueue (p : Slot)
  /-- before the read of `queue[q].tail` -/
  | selectQueue (q : Fin queueSize) (current : Option Slot)
  /-- before `pop(q)` -/
  | popQueue (q : Fin queueSize)
  /-- before the test of the popped process -/
  | testPopped (q : Fin queueSize) (p : Slot)
  /-- before the push at the front -/
  | pushFront (p : Slot)
  /-- before the test of line 682 -/
  | finalTest (current : Option Slot)
  /-- between that test and the section under `p->lock` -/
  | acquire (p : Slot)
  deriving DecidableEq

structure SmpState where
  kernel : State
  pc : Hart → Pc

def nextSlot (p : Slot) : Pc :=
  if h : p.val + 1 < NPROC then .scanState ⟨p.val + 1, h⟩ else .selectQueue 0 none

def nextQueue (q : Fin queueSize) (current : Option Slot) : Pc :=
  if current.isSome then .finalTest current
  else if h : q.val + 1 < queueSize then .selectQueue ⟨q.val + 1, h⟩ none
  else .finalTest none

def SmpState.goto (s : SmpState) (h : Hart) (k : State) (pc : Pc) : SmpState :=
  ⟨k, Function.update s.pc h pc⟩

def schedStep (s : SmpState) (h : Hart) : Except Fault SmpState :=
  let k := s.kernel
  match s.pc h with
  | .start => pure (s.goto h k (.scanState 0))
  | .scanState p =>
    pure (s.goto h k (if (k.proc p).state = .runnable then .scanStatus p else nextSlot p))
  | .scanStatus p =>
    pure (s.goto h k (if (k.proc p).statusQueue = false then .scanEnqueue p else nextSlot p))
  | .scanEnqueue p => do
    let k ← enqueue k p
    pure (s.goto h k (nextSlot p))
  | .selectQueue q current =>
    pure (s.goto h k (if (k.queue q).tail ≤ 0 then nextQueue q current else .popQueue q))
  | .popQueue q => do
    let (p, k) ← pop k q
    pure (s.goto h k (.testPopped q p))
  | .testPopped q p =>
    let k := k.modify p fun pr ↦ { pr with statusQueue := false }
    pure (s.goto h k
      (if (k.proc p).state = .runnable then .pushFront p else .selectQueue q (some p)))
  | .pushFront p => do
    let k ← Mlfq.pushFront k p
    pure (s.goto h k (.finalTest (some p)))
  | .finalTest none => pure (s.goto h k .start)
  | .finalTest (some p) =>
    pure (s.goto h k (if (k.proc p).state = .runnable then .acquire p else .start))
  | .acquire p => pure (s.goto h (dispatch k h p) .start)

inductive SmpEvent
  | sched (h : Hart)
  | kernel (e : Event)

def isPass : Event → Bool
  | .pass _ => true
  | _ => false

/-- A hart runs its scheduler or its process. -/
def SmpEnabled (s : SmpState) : SmpEvent → Prop
  | .sched h => s.kernel.cpu h = none
  | .kernel e => isPass e = false ∧ Enabled .mlfq s.kernel e

instance (s : SmpState) : (e : SmpEvent) → Decidable (SmpEnabled s e)
  | .sched _ => inferInstanceAs (Decidable (_ = _))
  | .kernel _ => inferInstanceAs (Decidable (_ ∧ _))

def smpExec (s : SmpState) : SmpEvent → Except Fault SmpState
  | .sched h => schedStep s h
  | .kernel e => do
    let k ← exec .mlfq s.kernel e
    pure ⟨k, s.pc⟩

def smp : System SmpState SmpEvent where
  start := ⟨userinit .mlfq, fun _ ↦ .start⟩
  next s e := if SmpEnabled s e then (smpExec s e).toOption else none

theorem smp_next {s s' : SmpState} {e : SmpEvent} :
    smp.next s e = some s' ↔ SmpEnabled s e ∧ smpExec s e = .ok s' := by
  by_cases h : SmpEnabled s e
  · simp [smp, h, toOption_eq_some]
  · simp [smp, h]

/-! ## Harts that do not meet at a process -/

/-- No process is `c->proc` of two harts, and a hart that is about to set a process `RUNNING` finds
it `RUNNABLE`. -/
structure Exclusive (s : SmpState) : Prop where
  proc : ∀ h h' p, s.kernel.cpu h = some p → s.kernel.cpu h' = some p → h = h'
  runnable : ∀ h p, s.pc h = .acquire p → (s.kernel.proc p).state = .runnable

/-- When a hart switches to a process, no other hart has tested it for its own switch. -/
def Unraced (s : SmpState) : SmpEvent → Prop
  | .sched h => ∀ p, s.pc h = .acquire p → ∀ h', h' ≠ h → s.pc h' ≠ .acquire p
  | .kernel _ => True

instance (s : SmpState) : (e : SmpEvent) → Decidable (Unraced s e)
  | .sched _ => inferInstanceAs (Decidable (∀ _, _))
  | .kernel _ => inferInstanceAs (Decidable True)

structure Inv (s : SmpState) : Prop where
  sound : ∃ xs, Sound s.kernel xs
  placed : Placed s.kernel
  runnable : ∀ h p, s.pc h = .acquire p → (s.kernel.proc p).state = .runnable

variable {s s' : SmpState} {h : Hart} {p : Slot}

/-- Queue edits keep the invariant; the new program counter may ask for a `RUNNABLE` process. -/
theorem Inv.goto {k : State} {pc : Pc} {xs ys : Fin queueSize → List Slot} (hinv : Inv s)
    (hsound : Sound s.kernel xs) (hframe : Frame s.kernel k) (hrep : Rep k ys)
    (hpc : ∀ p, pc = .acquire p → (s.kernel.proc p).state = .runnable) : Inv (s.goto h k pc) := by
  refine ⟨⟨ys, hsound.of_frame hframe hrep⟩, hinv.placed.of_frame hframe, fun h' p hp ↦ ?_⟩
  change (k.proc p).state = .runnable
  rw [hframe.state]
  by_cases hh : h' = h
  · exact hpc p (by simpa [SmpState.goto, hh] using hp)
  · exact hinv.runnable h' p (by simpa [SmpState.goto, hh] using hp)

/-- A step that only reads. -/
theorem Inv.read {pc : Pc} (hinv : Inv s)
    (hpc : ∀ p, pc = .acquire p → (s.kernel.proc p).state = .runnable) :
    Inv (s.goto h s.kernel pc) := by
  obtain ⟨xs, hsound⟩ := hinv.sound
  exact hinv.goto hsound (Frame.refl _) hsound.rep hpc

theorem nextSlot_ne_acquire (p i : Slot) : nextSlot p ≠ .acquire i := by
  unfold nextSlot
  split <;> simp

theorem nextQueue_ne_acquire (q : Fin queueSize) (current : Option Slot) (i : Slot) :
    nextQueue q current ≠ .acquire i := by
  unfold nextQueue
  split
  · simp
  · split <;> simp

/-- The switch to a process that no other hart is about to switch to. -/
theorem Inv.dispatch (hinv : Inv s) (hpc : s.pc h = .acquire p)
    (hunraced : ∀ h', h' ≠ h → s.pc h' ≠ .acquire p) :
    Inv (s.goto h (dispatch s.kernel h p) .start) := by
  obtain ⟨xs, hsound⟩ := hinv.sound
  refine ⟨⟨xs, hsound.of_kept (kept_dispatch _ _ _) rfl⟩,
    hinv.placed.dispatch (hinv.runnable h p hpc), fun h' i hi ↦ ?_⟩
  change ((Kernel.dispatch s.kernel h p).proc i).state = .runnable
  have hh : h' ≠ h := by
    rintro rfl
    simp [SmpState.goto] at hi
  have hi' : s.pc h' = .acquire i := by simpa [SmpState.goto, hh] using hi
  have hne : i ≠ p := by
    rintro rfl
    exact hunraced h' hh hi'
  rw [dispatch_state, if_neg hne]
  exact hinv.runnable h' i hi'

theorem Inv.schedStep (hinv : Inv s) (hunraced : Unraced s (.sched h))
    (hstep : schedStep s h = .ok s') : Inv s' := by
  obtain ⟨xs, hsound⟩ := hinv.sound
  unfold Smp.schedStep at hstep
  split at hstep
  · cases hstep
    exact hinv.read (by simp)
  · cases hstep
    exact hinv.read fun i hi ↦ by split at hi <;> simp_all [nextSlot_ne_acquire]
  · cases hstep
    exact hinv.read fun i hi ↦ by split at hi <;> simp_all [nextSlot_ne_acquire]
  · obtain ⟨k, henqueue, hend⟩ := bind_eq_ok.mp hstep
    cases hend
    obtain ⟨q, -, -, hrep, hframe, -⟩ := enqueue_ok hsound.rep henqueue
    exact hinv.goto hsound hframe hrep fun i hi ↦ absurd hi (nextSlot_ne_acquire _ i)
  · cases hstep
    exact hinv.read fun i hi ↦ by split at hi <;> simp_all [nextQueue_ne_acquire]
  · obtain ⟨⟨i, k⟩, hpop, hend⟩ := bind_eq_ok.mp hstep
    cases hend
    obtain ⟨rest, -, hrep, hframe⟩ := pop_ok hsound.rep hpop
    exact hinv.goto hsound hframe hrep (by simp)
  · cases hstep
    refine hinv.goto hsound ((Frame.refl _).clearStatus _) (hsound.rep.modify _) fun i hi ↦ ?_
    split at hi <;> cases hi
  · obtain ⟨k, hpush, hend⟩ := bind_eq_ok.mp hstep
    cases hend
    obtain ⟨q, -, -, hrep, hframe, -⟩ := pushFront_ok hsound.rep hpush
    exact hinv.goto hsound hframe hrep (by simp)
  · cases hstep
    exact hinv.read (by simp)
  · cases hstep
    -- the test of line 682
    refine hinv.read fun i hi ↦ ?_
    split at hi
    · rename_i hrunnable
      cases hi
      exact hrunnable
    · cases hi
  · rename_i p hpc
    cases hstep
    exact hinv.dispatch hpc (hunraced p hpc)

/-- Nothing but a scheduler takes a process out of `RUNNABLE`. -/
theorem runnable_of_effect {k k' : State} {xs : Fin queueSize → List Slot} {e : Event}
    (hsound : Sound k xs) (hplaced : Placed k) (hpass : isPass e = false)
    (heffect : Effect k e k') {i : Slot} (hi : (k.proc i).state = .runnable) :
    (k'.proc i).state = .runnable := by
  have hcpu : ∀ h, k.cpu h ≠ some i := by
    intro h hcpu
    rw [hplaced.running h i hcpu] at hi
    cases hi
  have hstirred : ∀ {tick k'}, Stirred tick (k.proc i) k' → k'.state = .runnable :=
    fun hs ↦ (hs.woken.of_ne_sleeping (by simp [hi])).trans hi
  have hother : ∀ {np}, Around np k k' → (k.proc np).state ≠ .runnable →
      (k'.proc i).state = .runnable := by
    intro np haround hnp
    refine hstirred (haround.others i ?_)
    rintro rfl
    exact hnp hi
  cases heffect with
  | pass _ _ => cases hpass
  | @slice h ctx kalloc p t u hp hstir hexpire =>
    have hne : i ≠ p := by
      rintro rfl
      exact hcpu h hp
    obtain ⟨q, -, hexpired⟩ := (hsound.stir hstir).expire hexpire
    have hplaced' := (hplaced.stir hstir).expired hexpired
    have hcpu : u.cpu h = some p := by rw [hplaced'.2, hstir.cpu, hp]
    have hleave := leave_yield (Stir.refl u) hcpu
    have hstate : (u.proc i).state = .runnable := by
      rw [hexpired.state]
      exact hstirred (hstir.proc i)
    exact ((hleave.others i hne).woken.of_ne_sleeping (by simp [hstate])).trans hstate
  | stir hstir => exact hstirred (hstir.proc i)
  | leave hleave =>
    refine hstirred (hleave.others i ?_)
    rintro rfl
    exact hcpu _ hleave.current
  | alloc _ _ hunused _ _ _ _ _ haround => exact hother haround (by simp [hunused])
  | discard _ hunused _ _ _ _ _ haround => exact hother haround (by simp [hunused])
  | publish _ hnp _ _ haround => exact hother haround (by simp [hplaced.child _ _ hnp])
  | reap _ hzombie _ _ _ _ _ haround => exact hother haround (by simp [hzombie])

theorem Inv.next {e : SmpEvent} (hinv : Inv s) (hunraced : Unraced s e)
    (hnext : smp.next s e = some s') : Inv s' := by
  obtain ⟨henabled, hexec⟩ := smp_next.mp hnext
  cases e with
  | sched h => exact hinv.schedStep hunraced hexec
  | kernel e =>
    obtain ⟨k, hk, hend⟩ := bind_eq_ok.mp hexec
    cases hend
    obtain ⟨xs, hsound⟩ := hinv.sound
    have heffect := effect_of_next hsound.waitTicks (system_next.mpr ⟨henabled.2, hk⟩)
    exact ⟨hsound.effect heffect, hinv.placed.effect hsound heffect, fun h p hp ↦
      runnable_of_effect hsound hinv.placed henabled.1 heffect (hinv.runnable h p hp)⟩

theorem inv_start : Inv smp.start where
  sound := ⟨_, sound_start⟩
  placed := placed_start
  runnable h p hp := by cases hp

/-- In every run in which a hart switches to a process only while no other hart has tested the same
process for its own switch, no process is on two harts and processes are set `RUNNING` only from
`RUNNABLE`. -/
theorem exclusive_of_unraced (hs : smp.Reachable Unraced s) : Exclusive s := by
  have hinv := hs.invariant Inv inv_start fun _ _ _ hinv hgood hnext ↦ hinv.next hgood hnext
  exact ⟨hinv.placed.cpu_inj, hinv.runnable⟩

/-- The first process runs on hart 0 and forks a child, which hart 1 takes. -/
def childDispatched : List SmpEvent :=
  List.flatten [List.replicate 73 (.sched 0), [.kernel (.forkAlloc 0 .ok), .kernel (.forkPublish 0)],
    List.replicate 76 (.sched 1)]

set_option maxRecDepth 100000 in
theorem exclusive_childDispatched :
    ∃ s, (smp.Reachable Unraced s ∧ s.kernel.cpu 0 = some 0 ∧ s.kernel.cpu 1 = some 1) ∧
      Exclusive s := by
  obtain ⟨s, hs, hcpu⟩ := smp.exists_reachable Unraced
    (fun s ↦ s.kernel.cpu 0 = some 0 ∧ s.kernel.cpu 1 = some 1) childDispatched (by decide +kernel)
  exact ⟨s, ⟨hs, hcpu⟩, exclusive_of_unraced hs⟩

/-- Hart 0 tests the first process, then hart 1 does, then both switch to it. -/
def bothDispatch : List SmpEvent :=
  List.replicate 72 (SmpEvent.sched 0) ++ List.replicate 71 (SmpEvent.sched 1) ++
    [SmpEvent.sched 0, .sched 1]

set_option maxRecDepth 100000 in
/-- Two harts run the same process; the second one set it `RUNNING` when it was so already. -/
theorem two_harts_run_one_process :
    ∃ s, smp.Reachable (fun _ _ ↦ True) s ∧
      (s.kernel.cpu 0 = some 0 ∧ s.kernel.cpu 1 = some 0) ∧ ¬ Exclusive s := by
  obtain ⟨s, hs, hzero, hone⟩ := smp.exists_reachable (fun _ _ ↦ True)
    (fun s ↦ s.kernel.cpu 0 = some 0 ∧ s.kernel.cpu 1 = some 0) bothDispatch (by decide +kernel)
  exact ⟨s, hs, ⟨hzero, hone⟩, fun hex ↦ absurd (hex.proc 0 1 0 hzero hone) (by decide)⟩

end EnhancedXv6.Smp
