import EnhancedXv6.Mlfq.TimeSlice

/-!
# Starvation

Priority boosting is meant to bound the time a process waits below level 0 by 48 clock ticks.  The
kernel is observed by the number of clock ticks each process has been continuously `RUNNABLE`.  The
second test of `update_time` repeats the first one, so `wait_ticks` never grows and the aging loop
promotes nobody (`agingLoop_eq`): whether the bound holds is left to the load.  It does while the
levels below 0 run empty of `RUNNABLE` processes at least once every 48 ticks.
-/

namespace EnhancedXv6.Mlfq

open Kernel Trap Transition Fallible

variable {s t s' : State} {xs : Fin queueSize → List Slot} {e : Event} {i p : Slot}

/-! ## Waiting times -/

def clockTicks (e : Event) : ℕ := if charges e then 1 else 0

/-- For how many clock ticks a process has been continuously `RUNNABLE` without being promoted,
when a step or a part of it led from `s` to `s'`. -/
def waitedAfter (waited : Slot → ℕ) (s : State) (e : Event) (s' : State) (i : Slot) : ℕ :=
  if (s.proc i).state = .runnable ∧ (s'.proc i).state = .runnable ∧
      (s.proc i).priorityQueueNumber ≤ (s'.proc i).priorityQueueNumber then
    waited i + clockTicks e
  else 0

def LowRunnable (s : State) : Prop :=
  ∃ i, (s.proc i).state = .runnable ∧ 0 < (s.proc i).priorityQueueNumber

instance (s : State) : Decidable (LowRunnable s) :=
  inferInstanceAs (Decidable (∃ _, _ ∧ _))

/-- The waiting time of each process, and the clock ticks since the levels below 0 last had no
`RUNNABLE` process. -/
structure Waits where
  waited : Slot → ℕ := fun _ ↦ 0
  streak : ℕ := 0

def recordWaits (w : Waits) (s : State) (e : Event) (s' : State) : Waits where
  waited := waitedAfter w.waited s e s'
  streak := if LowRunnable s' then w.streak + clockTicks e else 0

def watched : System (State × Waits) Event :=
  (system .mlfq).withHistory {} recordWaits

/-- The state right after the aging loop of `usertrap`, in the steps that run it. -/
def agingPoint (s : State) : Event → Option State
  | .userTimer h ctx kalloc => (s.cpu h).bind fun p ↦
      (do usertrapAge .mlfq (← usertrapTimer .mlfq s h p ctx kalloc) p).toOption.join
  | .trapReturn h => (s.cpu h).bind fun p ↦ (usertrapAge .mlfq s p).toOption.join
  | _ => none

/-- Nobody who is queued below level 0 has waited for 48 ticks when the aging loop is done. -/
def NoStarvation (o : State × Waits) (e : Event) : Prop :=
  ∀ u, agingPoint o.1 e = some u → ∀ p, (u.proc p).statusQueue = true →
    0 < (u.proc p).priorityQueueNumber → waitedAfter o.2.waited o.1 e u p < 48

/-! ## The bound -/

/-- A process that waits below level 0 waits no longer than the levels below 0 are busy. -/
structure Watched (o : State × Waits) : Prop where
  sound : ∃ xs, Sound o.1 xs
  placed : Placed o.1
  waited : ∀ i, (o.1.proc i).state = .runnable → 0 < (o.1.proc i).priorityQueueNumber →
    o.2.waited i ≤ o.2.streak

theorem SlotStep.level_of_runnable (hplaced : Placed s) (hstep : SlotStep s e s' i)
    (hi : (s.proc i).state = .runnable) :
    (s'.proc i).priorityQueueNumber = (s.proc i).priorityQueueNumber := by
  cases hstep with
  | clocked hlevel _ _ => exact hlevel
  | fresh halloc _ =>
    rw [unused_of_allocated halloc] at hi
    cases hi
  | expired _ hcpu _ _ _ _ =>
    rw [hplaced.running _ i hcpu] at hi
    cases hi

theorem watched_start : Watched watched.start :=
  ⟨⟨_, sound_start⟩, placed_start, fun _ _ _ ↦ le_rfl⟩

theorem Watched.next {o o' : State × Waits} (ho : Watched o) (hnext : watched.next o e = some o') :
    Watched o' := by
  obtain ⟨hstep, hrecord⟩ := System.withHistory_next.mp hnext
  obtain ⟨xs, hsound⟩ := ho.sound
  have heffect := effect_of_next hsound.waitTicks hstep
  refine ⟨hsound.effect heffect, ho.placed.effect hsound heffect, fun i hi hlevel ↦ ?_⟩
  have hlow : LowRunnable o'.1 := ⟨i, hi, hlevel⟩
  rw [hrecord]
  simp only [recordWaits, waitedAfter, hlow, if_true]
  split
  · rename_i hwaits
    have hsame := (heffect.slotStep hsound ho.placed i).level_of_runnable ho.placed hwaits.1
    have := ho.waited i hwaits.1 (hsame ▸ hlevel)
    omega
  · exact Nat.zero_le _

theorem watched_of_reachable {good : State × Waits → Event → Prop} {o : State × Waits}
    (ho : watched.Reachable good o) : Watched o :=
  ho.invariant Watched watched_start fun _ _ _ hinv _ hnext ↦ hinv.next hnext

/-- Up to the end of the aging loop `usertrap` only charges the clock tick: the loop finds
`wait_ticks` at 0 everywhere. -/
theorem Sound.stir_agingPoint {u : State} (hsound : Sound s xs) (hpoint : agingPoint s e = some u) :
    Stir (charges e) s u := by
  cases e with
  | userTimer h ctx kalloc =>
    obtain ⟨p, -, hjoin⟩ := Option.bind_eq_some_iff.mp hpoint
    have hrun := toOption_eq_some.mp (Option.join_eq_some_iff.mp hjoin)
    obtain ⟨t, htimer, hage⟩ := bind_eq_ok.mp hrun
    have hstir := stir_usertrapTimer htimer
    rw [usertrapAge_eq (hstir.waitTicks hsound.waitTicks)] at hage
    split at hage
    · cases hage
    · cases hage
      exact hstir
  | trapReturn h =>
    obtain ⟨p, -, hjoin⟩ := Option.bind_eq_some_iff.mp hpoint
    have hage := toOption_eq_some.mp (Option.join_eq_some_iff.mp hjoin)
    rw [usertrapAge_eq hsound.waitTicks] at hage
    split at hage
    · cases hage
    · cases hage
      exact Stir.refl s
  | _ => cases hpoint

/-- The levels below 0 had no `RUNNABLE` process at some step of the last 48 clock ticks. -/
def ShortStreak (o : State × Waits) (e : Event) : Prop :=
  o.2.streak + clockTicks e < 48

/-- The child of the first process moves down to level 1; then the first process is woken. -/
def childBelow : List Event :=
  [.pass 0, .forkAlloc 0 .ok, .forkPublish 0, .sleep 0 (.addr 1), .pass 0,
    .userTimer 0 ⟨0, fun _ ↦ 0⟩ true, .wakeup 0 (.addr 1), .pass 0]

/-- The first process stays in the kernel for 48 ticks, preempted and dispatched again each time. -/
def busyAbove : List Event :=
  childBelow ++ (List.replicate 48 [Event.kernelTimer 0, .pass 0]).flatten

end EnhancedXv6.Mlfq
