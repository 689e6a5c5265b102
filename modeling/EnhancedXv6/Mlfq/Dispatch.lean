import EnhancedXv6.Mlfq.Membership

/-!
# What a scheduler pass dispatches

A pass stops at the first queue that is not empty.  It uses `current_process_track` both for the process
popped last and for the process found, so a queue that held only processes which are not `RUNNABLE` ends
the search as well.  When the queues are coherent, the process dispatched has the highest level among
those that are `RUNNABLE`.
-/

namespace EnhancedXv6.Mlfq

open Kernel Trap Transition Fallible

variable {s t s' : State} {xs : Fin queueSize → List Slot} {h : Hart} {p : Slot}

/-! ## Work conservation -/

def InScanned (s : State) (p : Slot) (q : Fin queueSize) : Prop :=
  (∃ j, OccursAt s p q j) ∨ (Waiting s p ∧ (s.proc p).priorityQueueNumber = q.val)

/-- The first queue that is not empty once the scan is done holds a `RUNNABLE` process. -/
def FrontRunnable (s : State) : Prop :=
  ∃ q, (∀ i < q, load s i = 0) ∧ ∃ p, InScanned s p q ∧ (s.proc p).state = .runnable

def Dispatched (s : State) (h : Hart) (p : Slot) : Prop :=
  s.cpu h = some p ∧ (s.proc p).state = .running

theorem Rep.mem_scanned_iff (hrep : Rep s xs) {q : Fin queueSize} :
    p ∈ scanned s xs q ↔ InScanned s p q := by
  simp [scanned, appended, InScanned, hrep.mem_iff_occursAt]

theorem Rep.load_eq_zero_iff (hrep : Rep s xs) {q : Fin queueSize} :
    load s q = 0 ↔ scanned s xs q = [] := by
  rw [hrep.load_eq, Int.natCast_eq_zero, List.length_eq_zero_iff]

theorem Rep.frontRunnable_iff (hrep : Rep s xs) :
    FrontRunnable s ↔ ∃ q, firstQueue (scanned s xs) = some q ∧
      ∃ p ∈ scanned s xs q, (s.proc p).state = .runnable := by
  constructor
  · rintro ⟨q, hbefore, p, hp, hrunnable⟩
    have hmem := hrep.mem_scanned_iff.mpr hp
    cases hfirst : firstQueue (scanned s xs) with
    | none =>
      rw [firstQueue_eq_none.mp hfirst q] at hmem
      cases hmem
    | some q' =>
      obtain ⟨hne, hbefore'⟩ := firstQueue_eq_some hfirst
      obtain rfl : q' = q := by
        rcases lt_trichotomy q' q with hlt | heq | hlt
        · exact absurd (hrep.load_eq_zero_iff.mp (hbefore q' hlt)) hne
        · exact heq
        · rw [hbefore' q hlt] at hmem
          cases hmem
      exact ⟨q', rfl, p, hmem, hrunnable⟩
  · rintro ⟨q, hfirst, p, hmem, hrunnable⟩
    exact ⟨q, fun i hi ↦ hrep.load_eq_zero_iff.mpr ((firstQueue_eq_some hfirst).2 i hi), p,
      hrep.mem_scanned_iff.mp hmem, hrunnable⟩

/-- A pass dispatches exactly when the first queue that is not empty holds a `RUNNABLE` process. -/
theorem Passed.dispatches_iff (hrep : Rep s xs) (hidle : s.cpu h = none)
    (hpass : Passed s xs h s') : (∃ p, Dispatched s' h p) ↔ FrontRunnable s := by
  rw [hrep.frontRunnable_iff]
  cases hpass with
  | idle hempty _ hframe =>
    refine iff_of_false ?_ ?_
    · rintro ⟨p, hp, -⟩
      simp [hframe.cpu, hidle] at hp
    · rintro ⟨q, hfirst, -⟩
      exact (firstQueue_eq_some hfirst).1 (hempty q)
  | exhausted hfirst hdead _ hframe =>
    refine iff_of_false ?_ ?_
    · rintro ⟨p, hp, -⟩
      simp [hframe.cpu, hidle] at hp
    · rintro ⟨q, hfirst', p, hmem, hrunnable⟩
      cases hfirst.symm.trans hfirst'
      exact hdead p hmem hrunnable
  | @dispatched q level dead rest p u hfirst hsplit _ hp _ _ _ _ =>
    refine iff_of_true ⟨p, by simp [dispatch], by simp [dispatch]⟩ ⟨q, hfirst, p, ?_, hp⟩
    simp [hsplit]

/-- In every reachable state of one hart, a pass that does not leave the arrays dispatches a process if
and only if the first queue that is not empty holds a `RUNNABLE` process; with room it does not leave
them. -/
theorem pass_dispatches_iff_frontRunnable
    (hs : (system .mlfq).Reachable (fun _ e ↦ e.hart = 0) s) (hidle : s.cpu 0 = none) :
    (∀ s', pass s 0 = .ok s' → ((∃ p, Dispatched s' 0 p) ↔ FrontRunnable s)) ∧
      (Roomy s → ∃ s', pass s 0 = .ok s') := by
  obtain ⟨xs, hsound⟩ := sound_of_reachable hs
  refine ⟨fun s' hpass ↦ ?_, fun hroomy ↦ hsound.pass_exists hroomy 0⟩
  exact (pass_ok hsound.rep hpass).1.dispatches_iff hsound.rep hidle

set_option maxRecDepth 100000 in
theorem pass_dispatches_iff_frontRunnable_afterFork :
    ∃ s, ((system .mlfq).Reachable (fun _ e ↦ e.hart = 0) s ∧ s.cpu 0 = none ∧
        (s.proc 1).state = .runnable) ∧
      (∀ s', pass s 0 = .ok s' → ((∃ p, Dispatched s' 0 p) ↔ FrontRunnable s)) ∧
      (Roomy s → ∃ s', pass s 0 = .ok s') := by
  obtain ⟨s, hs, hidle, hrunnable⟩ := (system .mlfq).exists_reachable (fun _ e ↦ e.hart = 0)
    (fun s ↦ s.cpu 0 = none ∧ (s.proc 1).state = .runnable)
    [.pass 0, .forkAlloc 0 .ok, .forkPublish 0, .kernelTimer 0] (by decide +kernel)
  exact ⟨s, ⟨hs, hidle, hrunnable⟩, pass_dispatches_iff_frontRunnable hs hidle⟩

/-- The child of the first process moves down to level 1, and the first process goes to sleep. -/
def sleepAbove : List Event :=
  [.pass 0, .forkAlloc 0 .ok, .forkPublish 0, .sleep 0 .ticks, .pass 0,
    .userTimer 0 ⟨0, fun _ ↦ 0⟩ true, .pass 0, .sleep 0 .ticks]

set_option maxRecDepth 100000 in
/-- The pass pops the sleeping process from queue 0 and dispatches nobody, although the child is
`RUNNABLE` at level 1. -/
theorem pass_idles_with_runnable_process :
    ∃ s s', (system .mlfq).Reachable (fun _ e ↦ e.hart = 0) s ∧ s.cpu 0 = none ∧
      (s.proc 1).state = .runnable ∧ pass s 0 = .ok s' ∧ ∀ p, ¬ Dispatched s' 0 p := by
  obtain ⟨s, hs, hidle, hrunnable, s', hpass, hend⟩ :=
    (system .mlfq).exists_reachable (fun _ e ↦ e.hart = 0)
      (fun s ↦ s.cpu 0 = none ∧ (s.proc 1).state = .runnable ∧
        ∃ s' ∈ (pass s 0).toOption, s'.cpu 0 = none) sleepAbove (by decide +kernel)
  refine ⟨s, s', hs, hidle, hrunnable, toOption_eq_some.mp hpass, fun p hp ↦ ?_⟩
  rw [hp.1] at hend
  cases hend

/-! ## Priority order -/

/-- The hart runs what the pass dispatched, and nothing else changed a level. -/
theorem Coherent.level_le_of_passed (hc : Coherent s xs) (hidle : s.cpu h = none)
    (hpass : Passed s xs h s') (hp : s'.cpu h = some p) {i : Slot}
    (hi : (s.proc i).state = .runnable) :
    (s'.proc p).priorityQueueNumber ≤ (s.proc i).priorityQueueNumber := by
  have hqueued : Queued s i := by
    by_cases hstatus : (s.proc i).statusQueue = true
    · exact .inl hstatus
    · exact .inr ⟨hi, by simpa using hstatus⟩
  have hmem : i ∈ scanned s xs ⟨_, hc.level i⟩ := hc.mem_scanned_iff.mpr ⟨hqueued, rfl⟩
  cases hpass with
  | idle _ _ hframe => simp [hframe.cpu, hidle] at hp
  | exhausted _ _ _ hframe => simp [hframe.cpu, hidle] at hp
  | @dispatched q level dead rest p' u hfirst hsplit _ _ hlevel _ hframe _ =>
    obtain rfl : p' = p := by simpa [Kernel.dispatch] using hp
    obtain rfl := hc.level_eq hsplit hlevel
    rw [(kept_dispatch u h p' p').level, hframe.level, hlevel]
    by_contra hlt
    rw [(firstQueue_eq_some hfirst).2 ⟨_, hc.level i⟩ (Fin.lt_def.mpr (by simpa using hlt))]
      at hmem
    cases hmem

/-- In every run of one hart that frees no queued process, a pass dispatches a process of the
highest level among the processes that are `RUNNABLE` after its scan. -/
theorem dispatched_level_le_of_runnable
    (hs : (system .mlfq).Reachable (fun s e ↦ e.hart = 0 ∧ ReapsUnqueued s e) s)
    (hidle : s.cpu 0 = none) (hscan : enqueueScan s = .ok t) (hpass : pass s 0 = .ok s')
    (hp : s'.cpu 0 = some p) (i : Slot) (hi : (t.proc i).state = .runnable) :
    (s'.proc p).priorityQueueNumber ≤ (t.proc i).priorityQueueNumber := by
  obtain ⟨xs, hc⟩ := coherent_of_reachable hs
  have hframe := (enqueueScan_ok hc.rep hscan).frame
  rw [hframe.level]
  rw [hframe.state] at hi
  exact hc.level_le_of_passed hidle (pass_ok hc.rep hpass).1 hp hi

set_option maxRecDepth 100000 in
theorem dispatched_level_le_of_runnable_afterFork :
    ∃ s t s', ((system .mlfq).Reachable (fun s e ↦ e.hart = 0 ∧ ReapsUnqueued s e) s ∧
        s.cpu 0 = none ∧ enqueueScan s = .ok t ∧ pass s 0 = .ok s' ∧ s'.cpu 0 = some 0 ∧
        (t.proc 1).state = .runnable) ∧
      (s'.proc 0).priorityQueueNumber ≤ (t.proc 1).priorityQueueNumber := by
  obtain ⟨s, hs, hidle, t, hscan, s', hpass, hp, hi⟩ := (system .mlfq).exists_reachable
    (fun s e ↦ e.hart = 0 ∧ ReapsUnqueued s e)
    (fun s ↦ s.cpu 0 = none ∧ ∃ t ∈ (enqueueScan s).toOption, ∃ s' ∈ (pass s 0).toOption,
      s'.cpu 0 = some 0 ∧ (t.proc 1).state = .runnable)
    [.pass 0, .forkAlloc 0 .ok, .forkPublish 0, .kernelTimer 0] (by decide +kernel)
  have hscan := toOption_eq_some.mp hscan
  have hpass := toOption_eq_some.mp hpass
  exact ⟨s, t, s', ⟨hs, hidle, hscan, hpass, hp, hi⟩,
    dispatched_level_le_of_runnable hs hidle hscan hpass hp 1 hi⟩

/-- After a child was reaped while queued at level 1, its slot goes to a new child: the new
process moves down to level 2 while the entry at level 1 still names it. -/
def reuseSlot : List Event :=
  reapQueued ++ [Event.forkAlloc 0 .ok, .forkPublish 0, .forkAlloc 0 .ok, .forkPublish 0,
    .sleep 0 (.addr 1), .pass 0] ++
  (List.replicate 5 [Event.userTimer 0 ⟨0, fun _ ↦ 0⟩ true, .pass 0]).flatten ++
  [Event.userTimer 0 ⟨0, fun _ ↦ 0⟩ true]

set_option maxRecDepth 100000 in
/-- The pass dispatches slot 1, at level 2, while slot 2 is `RUNNABLE` at level 1. -/
theorem stale_entry_overtakes :
    ∃ s t s', (system .mlfq).Reachable (fun _ e ↦ e.hart = 0) s ∧ s.cpu 0 = none ∧
      enqueueScan s = .ok t ∧ pass s 0 = .ok s' ∧ s'.cpu 0 = some 1 ∧
      (s'.proc 1).priorityQueueNumber = 2 ∧ (t.proc 2).state = .runnable ∧
      (t.proc 2).priorityQueueNumber = 1 := by
  obtain ⟨s, hs, hidle, t, hscan, s', hpass, hend⟩ := (system .mlfq).exists_reachable
    (fun _ e ↦ e.hart = 0)
    (fun s ↦ s.cpu 0 = none ∧ ∃ t ∈ (enqueueScan s).toOption, ∃ s' ∈ (pass s 0).toOption,
      s'.cpu 0 = some 1 ∧ (s'.proc 1).priorityQueueNumber = 2 ∧ (t.proc 2).state = .runnable ∧
      (t.proc 2).priorityQueueNumber = 1) reuseSlot (by decide +kernel)
  exact ⟨s, t, s', hs, hidle, toOption_eq_some.mp hscan, toOption_eq_some.mp hpass, hend⟩

end EnhancedXv6.Mlfq
