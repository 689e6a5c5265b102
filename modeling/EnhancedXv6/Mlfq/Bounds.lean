import EnhancedXv6.Mlfq.Step

/-!
# Bounds of the MLFQ queues

`Sound s xs` holds in every state that the MLFQ kernel reaches without an access outside `mlfq_queue[]`:
the four arrays represent the four lists `xs`, and `pop` is only called on a queue that is not empty and
never returns a null pointer.

A scheduler pass puts the chosen process back at the front with a loop that starts one place past the
last live entry, so a level at which all `NPROC` processes are queued is written at index `NPROC`.
`Roomy` is the condition before a pass under which this does not happen.
-/

namespace EnhancedXv6.Mlfq

open Kernel Trap Transition Fallible

variable {s t s' : State} {xs : Fin queueSize → List Slot} {h : Hart} {p : Slot} {e : Event}

/-! ## The invariant -/

/-- The queues represent lists, every level is the index of a queue, and nobody waits. -/
structure Sound (s : State) (xs : Fin queueSize → List Slot) : Prop where
  rep : Rep s xs
  level : ∀ p, (s.proc p).priorityQueueNumber < queueSize
  waitTicks : ∀ p, (s.proc p).waitTicks = 0

theorem Rep.congr (hrep : Rep s xs) (hqueue : s'.queue = s.queue) : Rep s' xs := by
  intro q
  rw [hqueue]
  exact hrep q

theorem kept_dispatch (s : State) (h : Hart) (p i : Slot) :
    Kept false (s.proc i) ((dispatch s h p).proc i) := by
  by_cases hi : i = p
  · exact .of_eq (by simp [dispatch, hi]) (by simp [dispatch, hi]) (by simp [dispatch, hi])
      (by simp [dispatch, hi])
  · exact .of_eq (by simp [dispatch, hi]) (by simp [dispatch, hi]) (by simp [dispatch, hi])
      (by simp [dispatch, hi])

theorem kept_yield (s : State) (h : Hart) (p i : Slot) :
    Kept false (s.proc i) ((yield .mlfq s h p).proc i) := by
  have hstate : ∀ pr : Proc, Kept false pr
      (if Build.mlfq = .mlfq ∧ pr.state = .sleeping then pr
        else { pr with state := .runnable }) := by
    intro pr
    split <;> exact .of_eq rfl rfl rfl rfl
  by_cases hi : i = p
  · simpa [yield, hi] using hstate (s.proc p)
  · simpa [yield, hi] using Kept.refl (s.proc i)

/-- Steps that keep the queues and the levels keep soundness. -/
theorem Sound.of_kept {tick : Bool} (hsound : Sound s xs)
    (hkept : ∀ i, Kept tick (s.proc i) (s'.proc i)) (hqueue : s'.queue = s.queue) :
    Sound s' xs :=
  ⟨hsound.rep.congr hqueue, fun i ↦ (hkept i).level ▸ hsound.level i,
    fun i ↦ (hkept i).waitTicks.trans (hsound.waitTicks i)⟩

theorem Sound.of_frame {ys : Fin queueSize → List Slot} (hsound : Sound s xs)
    (hframe : Frame s s') (hrep : Rep s' ys) : Sound s' ys :=
  ⟨hrep, fun i ↦ hframe.level i ▸ hsound.level i,
    fun i ↦ (hframe.waitTicks i).trans (hsound.waitTicks i)⟩

/-- A step about slot `np` keeps soundness when it leaves `np` sound. -/
theorem Sound.around {np : Slot} (hsound : Sound s xs) (haround : Around np s s')
    (hlevel : (s'.proc np).priorityQueueNumber < queueSize)
    (hwait : (s'.proc np).waitTicks = 0) : Sound s' xs := by
  refine ⟨hsound.rep.congr haround.queue, fun i ↦ ?_, fun i ↦ ?_⟩
  · by_cases hi : i = np
    · exact hi ▸ hlevel
    · exact (haround.others i hi).level ▸ hsound.level i
  · by_cases hi : i = np
    · exact hi ▸ hwait
    · exact (haround.others i hi).waitTicks.trans (hsound.waitTicks i)

theorem Sound.passed (hsound : Sound s xs) (hpass : Passed s xs h s') : ∃ ys, Sound s' ys := by
  cases hpass with
  | idle _ hrep hframe => exact ⟨_, hsound.of_frame hframe hrep⟩
  | exhausted _ _ hrep hframe => exact ⟨_, hsound.of_frame hframe hrep⟩
  | dispatched _ _ _ _ _ hrep hframe =>
    exact ⟨_, (hsound.of_frame hframe hrep).of_kept (kept_dispatch _ _ _) rfl⟩

theorem nextLevel_lt {level : ℕ} (hlevel : level < queueSize) : nextLevel level < queueSize := by
  unfold nextLevel
  split <;> omega

theorem Sound.demoted {ys : Fin queueSize → List Slot} (hsound : Sound s xs)
    (hdemoted : Demoted p s t) (hrep : Rep t ys) : Sound t ys := by
  refine ⟨hrep, fun i ↦ ?_, fun i ↦ ?_⟩
  · by_cases hi : i = p
    · subst hi
      rw [hdemoted.level]
      exact nextLevel_lt (hsound.level i)
    · rw [(hdemoted.others i hi).1]
      exact hsound.level i
  · by_cases hi : i = p
    · exact hi ▸ hdemoted.waitTicks
    · exact (hdemoted.others i hi).2.2.trans (hsound.waitTicks i)

theorem Sound.expired {q : Fin queueSize} (hsound : Sound s xs) (hexpired : Expired s xs p q t) :
    ∃ ys, Sound t ys := by
  cases hexpired with
  | unexpired _ => exact ⟨xs, hsound⟩
  | empty _ _ hrep hdemoted => exact ⟨_, hsound.demoted hdemoted hrep⟩
  | popped _ _ hrep hdemoted => exact ⟨_, hsound.demoted hdemoted hrep⟩

theorem Sound.stir {tick : Bool} (hsound : Sound s xs) (hstir : Stir tick s t) : Sound t xs :=
  hsound.of_kept (fun i ↦ (hstir.proc i).toKept) hstir.queue

/-- Giving up a hart keeps every process as it was, apart from its state. -/
theorem Leave.kept_all {tick : Bool} (hleave : Leave tick h p s s') (i : Slot) :
    Kept tick (s.proc i) (s'.proc i) := by
  by_cases hi : i = p
  · exact hi ▸ hleave.kept
  · exact (hleave.others i hi).toKept

/-- The end of a time slice as it is seen from a sound state. -/
theorem Sound.expire (hsound : Sound s xs) {u : State} (hexpire : expire s p = .ok u) :
    ∃ q : Fin queueSize, (s.proc p).priorityQueueNumber = q ∧ Expired s xs p q u := by
  have hlevel : (s.proc p).priorityQueueNumber =
      (⟨_, hsound.level p⟩ : Fin queueSize).val := rfl
  obtain ⟨v, hv, hexpired⟩ := expire_spec hsound.rep hlevel
  cases hv.symm.trans hexpire
  exact ⟨_, hlevel, hexpired⟩

theorem Sound.effect (hsound : Sound s xs) (heffect : Effect s e s') : ∃ ys, Sound s' ys := by
  cases heffect with
  | pass _ hpass => exact hsound.passed (pass_ok hsound.rep hpass).1
  | slice _ hstir hexpire =>
    obtain ⟨q, -, hexpired⟩ := (hsound.stir hstir).expire hexpire
    obtain ⟨ys, hys⟩ := (hsound.stir hstir).expired hexpired
    exact ⟨ys, hys.of_kept (kept_yield _ _ _) rfl⟩
  | stir hstir => exact ⟨xs, hsound.stir hstir⟩
  | leave hleave => exact ⟨xs, hsound.of_kept hleave.kept_all hleave.queue⟩
  | alloc _ _ _ _ _ hlevel hwait _ haround =>
    exact ⟨xs, hsound.around haround (by rw [hlevel]; decide) hwait⟩
  | discard _ _ _ _ hlevel hwait _ haround =>
    refine ⟨xs, hsound.around haround ?_ ?_⟩
    · rcases hlevel with hlevel | hlevel
      · exact hlevel ▸ hsound.level _
      · rw [hlevel]
        decide
    · rcases hwait with hwait | hwait
      · exact hwait.trans (hsound.waitTicks _)
      · exact hwait
  | publish _ _ _ hkept haround =>
    exact ⟨xs, hsound.around haround (hkept.level ▸ hsound.level _)
      (hkept.waitTicks.trans (hsound.waitTicks _))⟩
  | reap _ _ _ _ hlevel hwait _ haround =>
    exact ⟨xs, hsound.around haround (hlevel ▸ hsound.level _)
      (hwait.trans (hsound.waitTicks _))⟩

theorem sound_start : Sound (system .mlfq).start fun _ ↦ [] := by
  refine ⟨fun q ↦ ⟨rfl, rfl, Buffer.Holds.nil _⟩, fun p ↦ ?_, fun p ↦ (userinit_mlfq p).2.2.2.1⟩
  change ((userinit .mlfq).proc p).priorityQueueNumber < queueSize
  rw [(userinit_mlfq p).2.2.1]
  decide

theorem sound_of_reachable {good : State → Event → Prop}
    (hs : (system .mlfq).Reachable good s) : ∃ xs, Sound s xs := by
  refine hs.invariant (fun s ↦ ∃ xs, Sound s xs) ⟨_, sound_start⟩ ?_
  rintro s e s' ⟨xs, hsound⟩ - hnext
  exact hsound.effect (effect_of_next hsound.waitTicks hnext)

/-! ## Room for a pass -/

/-- Process `p` stands at position `j` of the live segment of queue `q`. -/
def OccursAt (s : State) (p : Slot) (q : Fin queueSize) (j : Fin NPROC) : Prop :=
  (j.val : ℤ) < (s.queue q).tail ∧ (s.queue q).mlfqQueue.get j = some p

instance (s : State) (p : Slot) (q : Fin queueSize) (j : Fin NPROC) :
    Decidable (OccursAt s p q j) :=
  inferInstanceAs (Decidable (_ ∧ _))

theorem Rep.occursAt_iff (hrep : Rep s xs) {q : Fin queueSize} {j : Fin NPROC} :
    OccursAt s p q j ↔ (xs q)[j.val]? = some p := by
  unfold OccursAt
  rw [(hrep q).tail]
  by_cases hj : j.val < (xs q).length
  · have hcell := (hrep q).holds j.val hj
    rw [Vector.getElem?_eq_getElem j.isLt, List.getElem?_eq_getElem hj, Option.map_some,
      Option.some.injEq] at hcell
    have hget : (s.queue q).mlfqQueue.get j = some (xs q)[j.val] := hcell
    simp [hget, hj]
  · simp [hj]

theorem Rep.mem_iff_occursAt (hrep : Rep s xs) {q : Fin queueSize} :
    p ∈ xs q ↔ ∃ j, OccursAt s p q j := by
  constructor
  · intro hp
    obtain ⟨n, hn, hget⟩ := List.mem_iff_getElem.mp hp
    have hlt : n < NPROC := hn.trans_le (hrep.length_le q)
    exact ⟨⟨n, hlt⟩, hrep.occursAt_iff.mpr (by simp [List.getElem?_eq_getElem hn, hget])⟩
  · rintro ⟨j, hj⟩
    exact List.mem_of_getElem? (hrep.occursAt_iff.mp hj)

/-- The number of entries queue `q` has once the scan is done. -/
def load (s : State) (q : Fin queueSize) : ℤ :=
  (s.queue q).tail + (appended s table q).length

/-- A `RUNNABLE` process of level `q` stands in the queue of another level. -/
def HasStray (s : State) (q : Fin queueSize) : Prop :=
  ∃ p i j, i ≠ q ∧ OccursAt s p i j ∧ (s.proc p).state = .runnable ∧
    (s.proc p).priorityQueueNumber = q.val

/-- Before a pass: no level has all `NPROC` processes queued or about to be queued, and one place
more is free at a level to which a stray process would return. -/
def Roomy (s : State) : Prop :=
  ∀ q, load s q < NPROC ∧ (HasStray s q → load s q + 1 < NPROC)

/-- The condition a run has to meet: there is room before each scheduler pass. -/
def RoomBefore (s : State) : Event → Prop
  | .pass _ => Roomy s
  | _ => True

/-- Strays are looked for among the live entries, not among all processes. -/
instance (s : State) (q : Fin queueSize) : Decidable (HasStray s q) :=
  decidable_of_iff (∃ i, i ≠ q ∧ ∃ j : Fin NPROC, (j.val : ℤ) < (s.queue i).tail ∧
      ∃ p ∈ (s.queue i).mlfqQueue.get j, (s.proc p).state = .runnable ∧
        (s.proc p).priorityQueueNumber = q.val)
    ⟨fun ⟨i, hi, j, hj, p, hp, hstate, hlevel⟩ ↦ ⟨p, i, j, hi, ⟨hj, hp⟩, hstate, hlevel⟩,
      fun ⟨p, i, j, hi, ⟨hj, hp⟩, hstate, hlevel⟩ ↦ ⟨i, hi, j, hj, p, hp, hstate, hlevel⟩⟩

instance (s : State) : Decidable (Roomy s) :=
  inferInstanceAs (Decidable (∀ _, _ ∧ _))

instance (s : State) : (e : Event) → Decidable (RoomBefore s e)
  | .pass _ => inferInstanceAs (Decidable (Roomy s))
  | .poll _ _ | .userTimer _ _ _ | .trapReturn _ | .kernelTimer _ | .wakeup _ _ | .sleep _ _
  | .kill _ _ | .forkAlloc _ _ | .forkPublish _ | .exit _ _ | .wait _ _ | .waitx _ _
  | .settickets _ _ => inferInstanceAs (Decidable True)

theorem Rep.load_eq (hrep : Rep s xs) (q : Fin queueSize) :
    load s q = (scanned s xs q).length := by
  simp [load, scanned, (hrep q).tail]

theorem Sound.pass_exists (hsound : Sound s xs) (hroomy : Roomy s) (h : Hart) :
    ∃ s', Mlfq.pass s h = .ok s' := by
  have hload := hsound.rep.load_eq
  refine Mlfq.pass_exists hsound.rep (fun p _ ↦ hsound.level p) (fun q ↦ ?_) ?_
  · have hq := (hroomy q).1
    rw [hload q] at hq
    omega
  · intro q dead p rest hsplit hp
    refine ⟨⟨_, hsound.level p⟩, rfl, ?_⟩
    generalize hlevel : (⟨_, hsound.level p⟩ : Fin queueSize) = level
    have hval : (s.proc p).priorityQueueNumber = level.val := congrArg Fin.val hlevel
    by_cases hq : level = q
    · -- the process returns to the queue it came from
      subst hq
      have hlt := (hroomy level).1
      rw [hload level, hsplit] at hlt
      simp only [List.length_append, List.length_cons] at hlt
      simp only [Function.update_self]
      omega
    · -- only an entry that was there before the scan can be in the queue of another level
      have hmem : p ∈ scanned s xs q := by simp [hsplit]
      have hold : p ∈ xs q := by
        rcases List.mem_append.mp hmem with hp' | hp'
        · exact hp'
        · have happended := (List.mem_filter.mp hp').2
          simp only [decide_eq_true_eq] at happended
          exact absurd (Fin.ext (hval.symm.trans happended.2)) hq
      obtain ⟨j, hj⟩ := hsound.rep.mem_iff_occursAt.mp hold
      have hlt := (hroomy level).2 ⟨p, q, j, Ne.symm hq, hj, hp, hval⟩
      rw [hload level] at hlt
      rw [Function.update_of_ne hq]
      omega

/-! ## Faults -/

theorem exit_error {status : Int32} {f : Fault} (hexit : exit s h p status = .error f) :
    f.isQueueFault = false := by
  unfold exit at hexit
  split at hexit
  · cases hexit
    rfl
  · cases hexit

theorem usertrapTimer_error {ctx : UserContext} {kalloc : Bool} {f : Fault}
    (htrap : usertrapTimer .mlfq s h p ctx kalloc = .error f) : f.isQueueFault = false := by
  rcases bind_eq_error.mp htrap with halarm | ⟨pr, -, hend⟩
  · unfold alarmTick at halarm
    split at halarm
    · dsimp only at halarm
      split at halarm
      · split at halarm
        · cases halarm
        · cases halarm
          rfl
      · cases halarm
    · cases halarm
  · cases hend

theorem Sound.usertrap_error (hsound : Sound s xs) {ctx : UserContext} {kalloc : Bool} {f : Fault}
    (htrap : usertrap .mlfq s h p ctx kalloc = .error f) : f.isQueueFault = false := by
  rcases bind_eq_error.mp htrap with htimer | ⟨t, htimer, hrest⟩
  · exact usertrapTimer_error htimer
  · have hsound' := hsound.stir (stir_usertrapTimer htimer)
    rw [usertrapAge_eq hsound'.waitTicks, ok_bind] at hrest
    split at hrest
    · exact exit_error hrest
    · rename_i hkilled
      split at hkilled
      · cases hkilled
      · cases hkilled
        simp only [if_true] at hrest
        obtain ⟨u, hexpire, -⟩ := expire_spec hsound'.rep
          (rfl : _ = (⟨_, hsound'.level p⟩ : Fin queueSize).val)
        rw [hexpire] at hrest
        cases hrest

/-- From a sound state no step leaves the queue arrays, if there is room before a pass. -/
theorem Sound.exec_noQueueFault (hsound : Sound s xs) (henabled : Enabled .mlfq s e)
    (hroom : RoomBefore s e) {f : Fault} (hexec : exec .mlfq s e = .error f) :
    f.isQueueFault = false := by
  cases e with
  | pass h =>
    obtain ⟨s', hpass⟩ := hsound.pass_exists hroom h
    cases hpass.symm.trans hexec
  | poll h p => cases henabled.1
  | wakeup h chan => cases hexec
  | kernelTimer h => cases hexec
  | kill h pid => cases hexec
  | userTimer h ctx kalloc =>
    obtain ⟨p, hp, -⟩ := henabled
    exact hsound.usertrap_error ((asProcess_some hp).symm.trans hexec)
  | trapReturn h =>
    obtain ⟨p, hp, -⟩ := henabled
    have htrap := (asProcess_some hp).symm.trans hexec
    rw [usertrapReturn, usertrapAge_eq hsound.waitTicks, ok_bind] at htrap
    split at htrap
    · exact exit_error htrap
    · cases htrap
  | exit h status =>
    obtain ⟨p, hp, -⟩ := henabled
    exact exit_error ((asProcess_some hp).symm.trans hexec)
  | wait h copyoutFails =>
    obtain ⟨p, hp, -⟩ := henabled
    have hstep := (asProcess_some hp).symm.trans hexec
    split at hstep <;> cases hstep
  | waitx h copyoutFails =>
    obtain ⟨p, hp, -⟩ := henabled
    have hstep := (asProcess_some hp).symm.trans hexec
    split at hstep <;> cases hstep
  | sleep h _ | forkAlloc h _ | settickets h _ =>
    obtain ⟨p, hp, -⟩ := henabled
    cases (asProcess_some hp).symm.trans hexec
  | forkPublish h =>
    obtain ⟨p, -, hp, -⟩ := henabled
    cases (asProcess_some hp).symm.trans hexec

/-- In every run of one hart that has room before each pass, `tail` stays within the array, every
access to `mlfq_queue[]` is inside it, and `pop` is called on a queue that is not empty and returns
a process. -/
theorem tail_and_accesses_in_bounds
    (hs : (system .mlfq).Reachable (fun s e ↦ e.hart = 0 ∧ RoomBefore s e) s) :
    (∀ q, 0 ≤ (s.queue q).tail ∧ (s.queue q).tail ≤ NPROC) ∧
      ∀ e f, e.hart = 0 → RoomBefore s e → Enabled .mlfq s e → exec .mlfq s e = .error f →
        f.isQueueFault = false := by
  obtain ⟨xs, hsound⟩ := sound_of_reachable hs
  refine ⟨fun q ↦ ?_, fun e f _ hroom henabled hexec ↦ ?_⟩
  · have hlength := hsound.rep.length_le q
    rw [(hsound.rep q).tail]
    omega
  · exact hsound.exec_noQueueFault henabled hroom hexec

/-- The first process forks a child, which then uses up its first time slice. -/
def forkAndExpire : List Event :=
  [.pass 0, .forkAlloc 0 .ok, .forkPublish 0, .sleep 0 .ticks, .pass 0,
    .userTimer 0 ⟨0, fun _ ↦ 0⟩ true, .pass 0]

set_option maxRecDepth 100000 in
theorem tail_and_accesses_in_bounds_forkAndExpire :
    ∃ s, ((system .mlfq).Reachable (fun s e ↦ e.hart = 0 ∧ RoomBefore s e) s ∧
        0 < (s.queue 1).tail) ∧
      (∀ q, 0 ≤ (s.queue q).tail ∧ (s.queue q).tail ≤ NPROC) ∧
      ∀ e f, e.hart = 0 → RoomBefore s e → Enabled .mlfq s e → exec .mlfq s e = .error f →
        f.isQueueFault = false := by
  obtain ⟨s, hs, htail⟩ := (system .mlfq).exists_reachable
    (fun s e ↦ e.hart = 0 ∧ RoomBefore s e) (fun s ↦ 0 < (s.queue 1).tail) forkAndExpire
    (by decide +kernel)
  exact ⟨s, ⟨hs, htail⟩, tail_and_accesses_in_bounds hs⟩

/-- The first process forks until the table is full, and is then preempted in the kernel. -/
def fillTable : List Event :=
  Event.pass 0 :: (List.replicate 63 [Event.forkAlloc 0 .ok, .forkPublish 0]).flatten ++
    [Event.kernelTimer 0]

set_option maxRecDepth 100000 in
/-- With all `NPROC` processes queued at level 0, the next pass writes past the array. -/
theorem pass_writes_past_array :
    ∃ s, (system .mlfq).Reachable (fun _ e ↦ e.hart = 0) s ∧ Enabled .mlfq s (.pass 0) ∧
      exec .mlfq s (.pass 0) = .error (.mlfqIndex NPROC) := by
  obtain ⟨s, hs, henabled, hexec⟩ := (system .mlfq).exists_reachable
    (fun _ e ↦ e.hart = 0) (fun s ↦ Enabled .mlfq s (.pass 0) ∧
      errorOf (exec .mlfq s (.pass 0)) = some (.mlfqIndex NPROC)) fillTable (by decide +kernel)
  exact ⟨s, hs, henabled, errorOf_eq_some.mp hexec⟩

end EnhancedXv6.Mlfq
