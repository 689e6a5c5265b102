import EnhancedXv6.Mlfq.Placement

/-!
# Queue membership

On one hart, `status_queue` says whether a process is queued, and a queued process stands once, in the
queue of its level, except that `freeproc` clears `status_queue` and leaves the entry of the reaped
process in its queue.  `Coherent` is the invariant of the runs in which no queued process is reaped; it
includes that the running process is at the front of its queue, which is why the blind `pop` at the end
of a time slice removes the right entry.
-/

namespace EnhancedXv6.Mlfq

open Kernel Trap Transition Fallible

variable {s t s' : State} {xs ys : Fin queueSize → List Slot} {p : Slot} {e : Event}

/-! ## The invariant -/

/-- The queues hold exactly the processes marked as queued, each once and at its level. -/
structure Matches (s : State) (xs : Fin queueSize → List Slot) : Prop where
  mem_iff : ∀ p q, p ∈ xs q ↔ (s.proc p).statusQueue = true ∧ (s.proc p).priorityQueueNumber = q.val
  nodup : ∀ q, (xs q).Nodup

structure Coherent (s : State) (xs : Fin queueSize → List Slot) : Prop
    extends Sound s xs, Placed s, Matches s xs where
  unused : ∀ p, (s.proc p).state = .unused → (s.proc p).statusQueue = false
  front : ∀ p, s.cpu 0 = some p → ∃ (q : Fin queueSize) (rest : List Slot),
    (s.proc p).priorityQueueNumber = q.val ∧ xs q = p :: rest

/-- The lists still match when the standing of a process changes only while it is not queued. -/
theorem Matches.congr (hmatches : Matches s xs)
    (hstanding : ∀ i, ((s'.proc i).statusQueue = (s.proc i).statusQueue ∧
        (s'.proc i).priorityQueueNumber = (s.proc i).priorityQueueNumber) ∨
      ((s.proc i).statusQueue = false ∧ (s'.proc i).statusQueue = false)) : Matches s' xs := by
  refine ⟨fun i q ↦ ?_, hmatches.nodup⟩
  rw [hmatches.mem_iff i q]
  rcases hstanding i with ⟨hstatus, hlevel⟩ | ⟨hstatus, hstatus'⟩
  · rw [hstatus, hlevel]
  · simp [hstatus, hstatus']

theorem Matches.of_kept {tick : Bool} (hmatches : Matches s xs)
    (hkept : ∀ i, Kept tick (s.proc i) (s'.proc i)) : Matches s' xs :=
  hmatches.congr fun i ↦ .inl ⟨(hkept i).status, (hkept i).level⟩

theorem Around.kept_all {np : Slot} (haround : Around np s s')
    (hkept : Kept false (s.proc np) (s'.proc np)) (i : Slot) :
    Kept false (s.proc i) (s'.proc i) := by
  by_cases hi : i = np
  · exact hi ▸ hkept
  · exact (haround.others i hi).toKept

/-- A step about a slot that is not queued before nor after. -/
theorem Matches.around {np : Slot} (hmatches : Matches s xs) (haround : Around np s s')
    (hstatus : (s.proc np).statusQueue = false) (hstatus' : (s'.proc np).statusQueue = false) :
    Matches s' xs := by
  refine hmatches.congr fun i ↦ ?_
  by_cases hi : i = np
  · exact .inr (hi ▸ ⟨hstatus, hstatus'⟩)
  · exact .inl ⟨(haround.others i hi).status, (haround.others i hi).level⟩

/-! ## Steps outside the scheduler -/

theorem Coherent.stir {tick : Bool} (hc : Coherent s xs) (hstir : Stir tick s s') :
    Coherent s' xs where
  toSound := hc.toSound.stir hstir
  toPlaced := hc.toPlaced.stir hstir
  toMatches := hc.toMatches.of_kept fun i ↦ (hstir.proc i).toKept
  unused i hi := by
    have hstate := (hstir.proc i).woken.state_eq (by simp [hi])
    rw [(hstir.proc i).status]
    exact hc.unused i (hstate ▸ hi)
  front i hi := by
    rw [(hstir.proc i).level]
    exact hc.front i (hstir.cpu ▸ hi)

/-- A process that gives up its hart is not `UNUSED`, and the others are as they were. -/
theorem Leave.unused {tick : Bool} {h : Hart} (hleave : Leave tick h p s s')
    (hunused : ∀ i, (s.proc i).state = .unused → (s.proc i).statusQueue = false) (i : Slot)
    (hi : (s'.proc i).state = .unused) : (s'.proc i).statusQueue = false := by
  by_cases hip : i = p
  · subst hip
    rcases hleave.left with h | h | h <;> rw [hi] at h <;> cases h
  · have hother := hleave.others i hip
    rw [hother.status]
    exact hunused i (hother.woken.state_eq (by simp [hi]) ▸ hi)

theorem Coherent.leave {tick : Bool} (hc : Coherent s xs) (hleave : Leave tick 0 p s s') :
    Coherent s' xs where
  toSound := hc.toSound.of_kept hleave.kept_all hleave.queue
  toPlaced := hc.toPlaced.leave hleave
  toMatches := hc.toMatches.of_kept hleave.kept_all
  unused := hleave.unused hc.unused
  front i hi := by simp [hleave.cpu] at hi

theorem Coherent.around {np : Slot} (hc : Coherent s xs) (haround : Around np s s')
    (hsound : Sound s' xs) (hplaced : Placed s') (hmatches : Matches s' xs)
    (hnp : (s.proc np).state ≠ .running)
    (hunused : (s'.proc np).state = .unused → (s'.proc np).statusQueue = false) :
    Coherent s' xs := by
  refine ⟨hsound, hplaced, hmatches, fun i hi ↦ ?_, fun i hi ↦ ?_⟩
  · by_cases hin : i = np
    · exact hin ▸ hunused (hin ▸ hi)
    · have hother := haround.others i hin
      rw [hother.status]
      exact hc.unused i (hother.woken.state_eq (by simp [hi]) ▸ hi)
  · rw [haround.cpu] at hi
    have hne : i ≠ np := by
      rintro rfl
      exact hnp (hc.running 0 i hi)
    rw [(haround.others i hne).level]
    exact hc.front i hi

/-- The guard of the runs of this module: no process is freed while it is marked as queued. -/
def ReapsUnqueued (s : State) (e : Event) : Prop :=
  ∀ np ∈ reaped s e, (s.proc np).statusQueue = false

instance (s : State) (e : Event) : Decidable (ReapsUnqueued s e) :=
  inferInstanceAs (Decidable (∀ np ∈ reaped s e, _))

/-! ## The scheduler pass -/

/-- After the scan a process stands in the queue of its level if it is marked or was waiting. -/
theorem Matches.mem_scanned_iff (hm : Matches s xs) {q : Fin queueSize} :
    p ∈ scanned s xs q ↔ Queued s p ∧ (s.proc p).priorityQueueNumber = q.val := by
  simp only [scanned, appended, List.mem_append, hm.mem_iff p q, List.mem_filter,
    List.mem_finRange, true_and, decide_eq_true_eq, Queued]
  tauto

theorem Matches.nodup_scanned (hm : Matches s xs) (q : Fin queueSize) :
    (scanned s xs q).Nodup := by
  refine (hm.nodup q).append ((List.nodup_finRange NPROC).filter _) ?_
  intro i hi hi'
  have hstatus := ((hm.mem_iff i q).mp hi).1
  have hwaiting := (List.mem_filter.mp hi').2
  simp only [decide_eq_true_eq] at hwaiting
  rw [hwaiting.1.2] at hstatus
  cases hstatus

/-- The process that a pass dispatches goes back to the queue it came from. -/
theorem Matches.level_eq (hm : Matches s xs) {q level : Fin queueSize} {dead rest : List Slot}
    (hsplit : scanned s xs q = dead ++ p :: rest)
    (hlevel : (s.proc p).priorityQueueNumber = level.val) : level = q := by
  have hmem : p ∈ scanned s xs q := by simp [hsplit]
  exact Fin.ext (hlevel.symm.trans (hm.mem_scanned_iff.mp hmem).2)

theorem putBack_self {zs : Fin queueSize → List Slot} {q : Fin queueSize} {rest : List Slot} :
    putBack zs q rest q p = Function.update zs q (p :: rest) := by
  simp [putBack]

/-- Once a queue was emptied, the lists match again. -/
theorem Matches.exhausted (hm : Matches s xs) {q : Fin queueSize} (hframe : Frame s t)
    (hstatus : ∀ i, (t.proc i).statusQueue = true ↔ Queued s i ∧ i ∉ scanned s xs q) :
    Matches t (Function.update (scanned s xs) q []) := by
  refine ⟨fun i j ↦ ?_, fun j ↦ ?_⟩
  · rw [hstatus i, hframe.level i]
    by_cases hj : j = q
    · subst hj
      simp only [Function.update_self, List.not_mem_nil, hm.mem_scanned_iff, false_iff]
      tauto
    · have hne : j.val ≠ q.val := fun h ↦ hj (Fin.ext h)
      simp only [Function.update_of_ne hj, hm.mem_scanned_iff]
      constructor
      · rintro ⟨hqueued, hlevel⟩
        exact ⟨⟨hqueued, fun h ↦ hne (hlevel.symm.trans h.2)⟩, hlevel⟩
      · rintro ⟨⟨hqueued, -⟩, hlevel⟩
        exact ⟨hqueued, hlevel⟩
  · by_cases hj : j = q
    · simp [hj]
    · simpa [hj] using hm.nodup_scanned j

/-- Once the entries before `p` were popped, the lists match again. -/
theorem Matches.found (hm : Matches s xs) {q : Fin queueSize} {dead rest : List Slot}
    (hframe : Frame s t) (hsplit : scanned s xs q = dead ++ p :: rest)
    (hstatus : ∀ i, (t.proc i).statusQueue = true ↔ i = p ∨ (Queued s i ∧ i ∉ dead)) :
    Matches t (Function.update (scanned s xs) q (p :: rest)) := by
  have hnodup := hm.nodup_scanned q
  rw [hsplit, List.nodup_append] at hnodup
  obtain ⟨-, hrest, hdisjoint⟩ := hnodup
  have hp := hm.mem_scanned_iff.mp (hsplit ▸ by simp : p ∈ scanned s xs q)
  refine ⟨fun i j ↦ ?_, fun j ↦ ?_⟩
  · rw [hstatus i, hframe.level i]
    have hdead : i ∈ dead → (s.proc i).priorityQueueNumber = q.val := fun hi ↦
      (hm.mem_scanned_iff.mp (hsplit ▸ by simp [hi] : i ∈ scanned s xs q)).2
    by_cases hj : j = q
    · subst hj
      have hmem : i ∈ dead ++ p :: rest ↔ Queued s i ∧ (s.proc i).priorityQueueNumber = j.val :=
        hsplit ▸ hm.mem_scanned_iff
      rw [List.mem_append] at hmem
      rw [Function.update_self]
      constructor
      · intro hi
        obtain ⟨hqueued, hlevel⟩ := hmem.mp (.inr hi)
        exact ⟨.inr ⟨hqueued, fun hd ↦ hdisjoint i hd i hi rfl⟩, hlevel⟩
      · rintro ⟨rfl | ⟨hqueued, hd⟩, hlevel⟩
        · exact List.mem_cons_self
        · exact (hmem.mpr ⟨hqueued, hlevel⟩).resolve_left hd
    · have hne : j.val ≠ q.val := fun h ↦ hj (Fin.ext h)
      rw [Function.update_of_ne hj, hm.mem_scanned_iff]
      constructor
      · rintro ⟨hqueued, hlevel⟩
        exact ⟨.inr ⟨hqueued, fun hd ↦ hne (hlevel.symm.trans (hdead hd))⟩, hlevel⟩
      · rintro ⟨rfl | ⟨hqueued, -⟩, hlevel⟩
        · exact ⟨hp.1, hlevel⟩
        · exact ⟨hqueued, hlevel⟩
  · by_cases hj : j = q
    · simpa [hj] using hrest
    · simpa [hj] using hm.nodup_scanned j

/-- The queue work of a pass, before the dispatch. -/
theorem Coherent.of_frame (hc : Coherent s xs) (hidle : s.cpu 0 = none) (hframe : Frame s t)
    (hrep : Rep t ys) (hmatches : Matches t ys)
    (hqueued : ∀ i, (t.proc i).statusQueue = true → Queued s i) : Coherent t ys where
  toSound := hc.toSound.of_frame hframe hrep
  toPlaced := hc.toPlaced.of_frame hframe
  toMatches := hmatches
  unused i hi := by
    rw [hframe.state i] at hi
    by_contra hstatus
    rcases hqueued i (by simpa using hstatus) with h | h
    · rw [hc.unused i hi] at h
      cases h
    · rw [h.1] at hi
      cases hi
  front i hi := by simp [hframe.cpu, hidle] at hi

/-- The dispatch of a process that stands at the front of its queue. -/
theorem Coherent.dispatch {q : Fin queueSize} {rest : List Slot} (hc : Coherent s xs)
    (hp : (s.proc p).state = .runnable) (hlevel : (s.proc p).priorityQueueNumber = q.val)
    (hfront : xs q = p :: rest) : Coherent (dispatch s 0 p) xs where
  toSound := hc.toSound.of_kept (kept_dispatch s 0 p) rfl
  toPlaced := hc.toPlaced.dispatch hp
  toMatches := hc.toMatches.of_kept (kept_dispatch s 0 p)
  unused i hi := by
    rw [dispatch_state] at hi
    rw [(kept_dispatch s 0 p i).status]
    split at hi
    · cases hi
    · exact hc.unused i hi
  front i hi := by
    obtain rfl : p = i := by simpa [Kernel.dispatch] using hi
    exact ⟨q, rest, (kept_dispatch s 0 p p).level.trans hlevel, hfront⟩

theorem Coherent.passed (hc : Coherent s xs) (hidle : s.cpu 0 = none)
    (hpass : Passed s xs 0 s') : ∃ ys, Coherent s' ys := by
  have hm := hc.toMatches
  cases hpass with
  | idle hempty hrep hframe hstatus =>
    have hmatches : Matches s' (scanned s xs) := by
      refine ⟨fun i q ↦ ?_, hm.nodup_scanned⟩
      rw [hm.mem_scanned_iff, hstatus i, hframe.level i]
    exact ⟨_, hc.of_frame hidle hframe hrep hmatches fun i ↦ (hstatus i).mp⟩
  | exhausted _ _ hrep hframe hstatus =>
    exact ⟨_, hc.of_frame hidle hframe hrep (hm.exhausted hframe hstatus)
      fun i hi ↦ ((hstatus i).mp hi).1⟩
  | @dispatched q level dead rest p u _ hsplit _ hp hlevel hrep hframe hstatus =>
    obtain rfl := hm.level_eq hsplit hlevel
    rw [putBack_self] at hrep
    have hqueued : ∀ i, (u.proc i).statusQueue = true → Queued s i := by
      intro i hi
      rcases (hstatus i).mp hi with rfl | ⟨hi, -⟩
      · exact (hm.mem_scanned_iff.mp (hsplit ▸ by simp : i ∈ scanned s xs level)).1
      · exact hi
    have hu := hc.of_frame hidle hframe hrep (hm.found hframe hsplit hstatus) hqueued
    exact ⟨_, hu.dispatch ((hframe.state p).trans hp) ((hframe.level p).trans hlevel)
      (Function.update_self level _ _)⟩

/-! ## The end of a time slice -/

/-- The process at the front of its queue gives up its place and moves down a level. -/
theorem Matches.demoted {q : Fin queueSize} {rest : List Slot} (hm : Matches s xs)
    (hlevel : (s.proc p).priorityQueueNumber = q.val) (hq : xs q = p :: rest)
    (hdemoted : Demoted p s t) (hstatus : ∀ i, (t.proc i).statusQueue =
      if i = p then false else (s.proc i).statusQueue) :
    Matches t (Function.update xs q rest) := by
  have hnodup := hm.nodup q
  rw [hq, List.nodup_cons] at hnodup
  refine ⟨fun i j ↦ ?_, fun j ↦ ?_⟩
  · rw [hstatus i]
    by_cases hi : i = p
    · subst hi
      simp only [if_true, Bool.false_eq_true, false_and, iff_false]
      by_cases hj : j = q
      · subst hj
        simpa using hnodup.1
      · rw [Function.update_of_ne hj, hm.mem_iff]
        rintro ⟨-, h⟩
        exact hj (Fin.ext (h.symm.trans hlevel))
    · simp only [hi, if_false, (hdemoted.others i hi).1]
      rw [← hm.mem_iff i j]
      by_cases hj : j = q
      · subst hj
        simp [hq, hi]
      · simp [hj]
  · by_cases hj : j = q
    · subst hj
      simpa using hnodup.2
    · simpa [hj] using hm.nodup j

/-- The running process stands at the front of its queue, so the entry popped is its own. -/
theorem Coherent.demoted {q : Fin queueSize} {front : Slot} {rest : List Slot}
    (hc : Coherent s xs) (hp : s.cpu 0 = some p)
    (hlevel : (s.proc p).priorityQueueNumber = q.val) (hq : xs q = front :: rest)
    (hdemoted : Demoted p s t) (hstatus : ∀ i, (t.proc i).statusQueue =
      if i = p ∨ i = front then false else (s.proc i).statusQueue) :
    Matches t (Function.update xs q rest) := by
  obtain ⟨q', rest', hlevel', hfront⟩ := hc.front p hp
  obtain rfl : q' = q := Fin.ext (hlevel'.symm.trans hlevel)
  obtain ⟨rfl, rfl⟩ : p = front ∧ rest' = rest := by simpa [hfront] using hq
  exact hc.toMatches.demoted hlevel hq hdemoted fun i ↦ by simpa using hstatus i

theorem Coherent.slice {u : State} (hc : Coherent s xs) (hp : s.cpu 0 = some p)
    (hexpire : Kernel.expire s p = .ok u) : ∃ ys, Coherent (yield .mlfq u 0 p) ys := by
  obtain ⟨q, hlevel, hexpired⟩ := hc.toSound.expire hexpire
  cases hexpired with
  | unexpired _ => exact ⟨xs, hc.leave (leave_yield (Stir.refl _) hp)⟩
  | empty _ hempty =>
    obtain ⟨q', rest, hlevel', hfront⟩ := hc.front p hp
    obtain rfl : q' = q := Fin.ext (hlevel'.symm.trans hlevel)
    rw [hempty] at hfront
    cases hfront
  | @popped front rest _ _ hq hrep hdemoted hstatus =>
    have hplaced := (hc.toPlaced.of_state_eq hdemoted.state hdemoted.cpu hdemoted.forkChild)
    have hmatches := hc.demoted hp hlevel hq hdemoted hstatus
    have hleave := leave_yield (Stir.refl u) (hdemoted.cpu.symm ▸ hp : u.cpu 0 = some p)
    have hunused : ∀ i, (u.proc i).state = .unused → (u.proc i).statusQueue = false := by
      intro i hi
      rw [hstatus i]
      split
      · rfl
      · exact hc.unused i (hdemoted.state i ▸ hi)
    exact ⟨Function.update xs q rest,
      (hc.toSound.demoted hdemoted hrep).of_kept hleave.kept_all hleave.queue,
      hplaced.leave hleave, hmatches.of_kept hleave.kept_all, hleave.unused hunused,
      fun i hi ↦ by simp [hleave.cpu] at hi⟩

/-! ## Runs -/

/-- Every step of hart 0 that frees no queued process keeps the queues coherent. -/
theorem Coherent.effect (hc : Coherent s xs) (hhart : e.hart = 0) (hreap : ReapsUnqueued s e)
    (heffect : Effect s e s') : ∃ ys, Coherent s' ys := by
  have hplaced := hc.toPlaced.effect hc.toSound heffect
  obtain ⟨ys, hys⟩ := hc.toSound.effect heffect
  have hsound : s'.queue = s.queue → Sound s' xs := by
    intro hqueue
    rw [← (hys.rep.congr hqueue.symm).unique hc.rep]
    exact hys
  have hm := hc.toMatches
  cases heffect with
  | pass hidle hpass =>
    obtain rfl := hhart
    exact hc.passed hidle (pass_ok hc.rep hpass).1
  | slice hp hstir hexpire =>
    obtain rfl := hhart
    exact (hc.stir hstir).slice (hstir.cpu ▸ hp) hexpire
  | stir hstir => exact ⟨xs, hc.stir hstir⟩
  | leave hleave => exact ⟨xs, hc.leave (hhart ▸ hleave)⟩
  | alloc _ _ hunused _ hstatus _ _ _ haround _ =>
    exact ⟨xs, hc.around haround (hsound haround.queue) hplaced
      (hm.around haround (hc.unused _ hunused) hstatus) (by simp [hunused]) fun _ ↦ hstatus⟩
  | discard _ hunused _ hstatus _ _ _ haround _ =>
    exact ⟨xs, hc.around haround (hsound haround.queue) hplaced
      (hm.around haround (hc.unused _ hunused) hstatus) (by simp [hunused]) fun _ ↦ hstatus⟩
  | publish _ hnp hstate hkept haround _ =>
    exact ⟨xs, hc.around haround (hsound haround.queue) hplaced
      (hm.of_kept (haround.kept_all hkept)) (by simp [hc.child _ _ hnp]) (by simp [hstate])⟩
  | reap hreaped hzombie _ hstatus _ _ _ haround _ =>
    exact ⟨xs, hc.around haround (hsound haround.queue) hplaced
      (hm.around haround (hreap _ hreaped) hstatus) (by simp [hzombie]) fun _ ↦ hstatus⟩

theorem coherent_start : Coherent (system .mlfq).start fun _ ↦ [] where
  toSound := sound_start
  toPlaced := placed_start
  mem_iff p q := by
    change p ∈ [] ↔ ((userinit .mlfq).proc p).statusQueue = true ∧ _
    simp [(userinit_mlfq p).2.1]
  nodup _ := List.nodup_nil
  unused p _ := (userinit_mlfq p).2.1
  front p hp := by cases hp

theorem coherent_of_reachable
    (hs : (system .mlfq).Reachable (fun s e ↦ e.hart = 0 ∧ ReapsUnqueued s e) s) :
    ∃ xs, Coherent s xs := by
  refine hs.invariant (fun s ↦ ∃ xs, Coherent s xs) ⟨_, coherent_start⟩ ?_
  rintro s e s' ⟨xs, hc⟩ ⟨hhart, hreap⟩ hnext
  exact hc.effect hhart hreap (effect_of_next hc.waitTicks hnext)

/-- Membership as the queues show it: `status_queue` is 1 for exactly the processes that stand at
one position of all live segments, in the queue of their level. -/
structure Membership (s : State) : Prop where
  length : ∀ q, (s.queue q).tail = (s.queue q).length
  queued : ∀ p, (s.proc p).statusQueue = true ↔
    ∃ q j, OccursAt s p q j ∧ (s.proc p).priorityQueueNumber = q.val ∧
      ∀ q' j', OccursAt s p q' j' → q' = q ∧ j' = j
  absent : ∀ p, (s.proc p).statusQueue = false → ∀ q j, ¬ OccursAt s p q j
  unused : ∀ p, (s.proc p).state = .unused → (s.proc p).statusQueue = false

theorem Coherent.occursAt_unique (hc : Coherent s xs) {q q' : Fin queueSize} {j j' : Fin NPROC}
    (h : OccursAt s p q j) (h' : OccursAt s p q' j') : q' = q ∧ j' = j := by
  have hlevel := ((hc.mem_iff p q).mp (hc.rep.mem_iff_occursAt.mpr ⟨j, h⟩)).2
  have hlevel' := ((hc.mem_iff p q').mp (hc.rep.mem_iff_occursAt.mpr ⟨j', h'⟩)).2
  obtain rfl : q' = q := Fin.ext (hlevel'.symm.trans hlevel)
  have hget := hc.rep.occursAt_iff.mp h
  have hget' := hc.rep.occursAt_iff.mp h'
  have hj := (List.getElem?_eq_some_iff.mp hget).1
  have hsame := (List.getElem?_inj hj (hc.nodup q')).mp (hget.trans hget'.symm)
  exact ⟨rfl, Fin.ext hsame.symm⟩

theorem Coherent.membership (hc : Coherent s xs) : Membership s where
  length q := (hc.rep q).tail.trans (hc.rep q).length.symm
  queued p := by
    constructor
    · intro hstatus
      have hmem := (hc.mem_iff p ⟨_, hc.level p⟩).mpr ⟨hstatus, rfl⟩
      obtain ⟨j, hj⟩ := hc.rep.mem_iff_occursAt.mp hmem
      exact ⟨_, j, hj, rfl, fun q' j' h' ↦ hc.occursAt_unique hj h'⟩
    · rintro ⟨q, j, hj, -, -⟩
      exact ((hc.mem_iff p q).mp (hc.rep.mem_iff_occursAt.mpr ⟨j, hj⟩)).1
  absent p hstatus q j hj := by
    have hqueued := ((hc.mem_iff p q).mp (hc.rep.mem_iff_occursAt.mpr ⟨j, hj⟩)).1
    rw [hstatus] at hqueued
    cases hqueued
  unused := hc.unused

/-- In every run of one hart that frees no queued process, the queues and `status_queue` agree
after every step; and where there is room before a pass, no step leaves the arrays. -/
theorem membership_of_reapsUnqueued
    (hs : (system .mlfq).Reachable (fun s e ↦ e.hart = 0 ∧ ReapsUnqueued s e) s) :
    Membership s ∧ ∀ e f, e.hart = 0 → RoomBefore s e → Enabled .mlfq s e →
      exec .mlfq s e = .error f → f.isQueueFault = false := by
  obtain ⟨xs, hc⟩ := coherent_of_reachable hs
  exact ⟨hc.membership, fun e f _ hroom henabled ↦ hc.toSound.exec_noQueueFault henabled hroom⟩

/-- The first process waits for a child that exits at level 0. -/
def reapUnqueued : List Event :=
  [.pass 0, .forkAlloc 0 .ok, .forkPublish 0, .wait 0 false, .pass 0, .exit 0 0, .pass 0,
    .wait 0 false]

set_option maxRecDepth 100000 in
theorem membership_reapUnqueued :
    ∃ s, ((system .mlfq).Reachable (fun s e ↦ e.hart = 0 ∧ ReapsUnqueued s e) s ∧
        (s.proc 1).state = .unused ∧ (s.proc 1).pid = 0 ∧ s.nextpid = 3) ∧
      Membership s ∧ ∀ e f, e.hart = 0 → RoomBefore s e → Enabled .mlfq s e →
        exec .mlfq s e = .error f → f.isQueueFault = false := by
  obtain ⟨s, hs, hend⟩ := (system .mlfq).exists_reachable
    (fun s e ↦ e.hart = 0 ∧ ReapsUnqueued s e)
    (fun s ↦ (s.proc 1).state = .unused ∧ (s.proc 1).pid = 0 ∧ s.nextpid = 3) reapUnqueued
    (by decide +kernel)
  exact ⟨s, ⟨hs, hend⟩, membership_of_reapsUnqueued hs⟩

/-- The first process waits for a child that moves down to level 1 and exits there. -/
def reapQueued : List Event :=
  [.pass 0, .forkAlloc 0 .ok, .forkPublish 0, .wait 0 false, .pass 0,
    .userTimer 0 ⟨0, fun _ ↦ 0⟩ true, .pass 0, .exit 0 0, .pass 0, .wait 0 false]

set_option maxRecDepth 100000 in
/-- The freed slot of the child is still in the queue of level 1. -/
theorem freed_slot_stays_queued :
    ∃ s, (system .mlfq).Reachable (fun _ e ↦ e.hart = 0) s ∧
      ((s.proc 1).state = .unused ∧ (s.proc 1).statusQueue = false ∧ OccursAt s 1 1 0) ∧
      ¬ Membership s := by
  obtain ⟨s, hs, hend⟩ := (system .mlfq).exists_reachable (fun _ e ↦ e.hart = 0)
    (fun s ↦ (s.proc 1).state = .unused ∧ (s.proc 1).statusQueue = false ∧ OccursAt s 1 1 0)
    reapQueued (by decide +kernel)
  exact ⟨s, hs, hend, fun hm ↦ hm.absent 1 hend.2.1 1 0 hend.2.2⟩

end EnhancedXv6.Mlfq
