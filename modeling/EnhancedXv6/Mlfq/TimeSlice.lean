import EnhancedXv6.Mlfq.Placement

/-!
# Time slices

The law of the MLFQ time slices concerns the history of a slot, so the kernel is observed by an
`Account` per slot: how many clock ticks `update_time` charged to it since it entered its level, and
which `start_time` it had when `allocproc` took it.

`start_time` never runs ahead of the account, except that `allocproc` does not reset it, so a new
process starts with what the last owner of the slot left.  At level 0, whose time slice is one tick,
this matters only for a timer interrupt that charges no tick, that is on a hart other than hart 0.
-/

namespace EnhancedXv6.Mlfq

open Kernel Trap Transition Fallible

variable {s t s' : State} {xs : Fin queueSize → List Slot} {e : Event} {i p : Slot}

/-! ## What a step does to one slot -/

/-- `start_time` once `update_time` ran, if it did. -/
def clockedStart (tick : Bool) (pr : Proc) : Int32 :=
  if tick = true ∧ pr.state = .running then pr.startTime + 1 else pr.startTime

def charge (s : State) (e : Event) (i : Slot) : ℕ :=
  if charges e = true ∧ (s.proc i).state = .running then 1 else 0

/-- What a step does to the level and the `start_time` of slot `i`. -/
inductive SlotStep (s : State) (e : Event) (s' : State) (i : Slot) : Prop
  /-- nothing but the clock -/
  | clocked : (s'.proc i).priorityQueueNumber = (s.proc i).priorityQueueNumber →
      (s'.proc i).startTime = clockedStart (charges e) (s.proc i) →
      ((s.proc i).state = .unused → (s'.proc i).state = .unused) → SlotStep s e s' i
  /-- `allocproc` took the slot -/
  | fresh : allocated s e = some i →
      ((s'.proc i).state ≠ .unused → (s'.proc i).priorityQueueNumber = 0 ∧
        (s'.proc i).startTime = (s.proc i).startTime) → SlotStep s e s' i
  /-- the time slice of the process is used up -/
  | expired {h : Hart} {ctx : UserContext} {kalloc : Bool} {q : Fin queueSize} :
      e = .userTimer h ctx kalloc → s.cpu h = some i →
      (s.proc i).priorityQueueNumber = q.val →
      (s.queue q).priorityQueueTicks ≤ clockedStart (charges e) (s.proc i) →
      (s'.proc i).priorityQueueNumber = nextLevel q.val → (s'.proc i).startTime = 0 →
      SlotStep s e s' i

theorem Stirred.slotStep (hstirred : Stirred (charges e) (s.proc i) (s'.proc i)) :
    SlotStep s e s' i :=
  .clocked hstirred.level hstirred.startTime hstirred.woken.unused

theorem Around.slotStep {np : Slot} (haround : Around np s s') (hquiet : charges e = false)
    (hi : i ≠ np) : SlotStep s e s' i := by
  have hstirred := haround.others i hi
  rw [← hquiet] at hstirred
  exact hstirred.slotStep

theorem Frame.slotStep {h : Hart} (hframe : Frame s s') : SlotStep s (.pass h) s' i :=
  .clocked (hframe.level i) (by simpa [clockedStart, charges] using hframe.startTime i)
    fun hi ↦ (hframe.state i).trans hi

/-- The slots after a process was demoted and gave up its hart. -/
theorem Demoted.slotStep {u : State} {h : Hart} {ctx : UserContext} {kalloc : Bool}
    {q : Fin queueSize} (hp : s.cpu h = some p)
    (hstir : Stir (charges (.userTimer h ctx kalloc)) s t)
    (hlevel : (t.proc p).priorityQueueNumber = q.val)
    (hslice : (t.proc p).startTime ≥ (t.queue q).priorityQueueTicks) (hdemoted : Demoted p t u)
    (i : Slot) : SlotStep s (.userTimer h ctx kalloc) (yield .mlfq u h p) i := by
  have hleave := leave_yield (Stir.refl u) (by rw [hdemoted.cpu, hstir.cpu, hp] : u.cpu h = some p)
  have hkept := hleave.kept_all i
  have hstart : ((yield .mlfq u h p).proc i).startTime = (u.proc i).startTime := by
    simpa using hkept.startTime
  have hbefore := hstir.proc i
  by_cases hi : i = p
  · subst hi
    refine .expired rfl hp (hbefore.level.symm.trans hlevel) ?_ ?_ ?_
    · rw [← hstir.queue]
      exact (show clockedStart _ _ = (t.proc i).startTime from hbefore.startTime.symm) ▸ hslice
    · rw [hkept.level, hdemoted.level, hlevel]
    · rw [hstart, hdemoted.startTime]
  · obtain ⟨hlevel', hstart', -⟩ := hdemoted.others i hi
    refine .clocked ?_ ?_ fun hunused ↦ ?_
    · rw [hkept.level, hlevel', hbefore.level]
    · rw [hstart, hstart']
      exact hbefore.startTime
    · refine (hleave.others i hi).woken.unused ?_
      rw [hdemoted.state]
      exact hbefore.woken.unused hunused

theorem Passed.slotStep {h : Hart} (hpass : Passed s xs h s') (i : Slot) :
    SlotStep s (.pass h) s' i := by
  cases hpass with
  | idle _ _ hframe => exact hframe.slotStep
  | exhausted _ _ _ hframe => exact hframe.slotStep
  | @dispatched _ _ _ _ p u _ _ _ hp _ _ hframe =>
    have hkept := kept_dispatch u h p i
    have hstart : ((dispatch u h p).proc i).startTime = (u.proc i).startTime := by
      simpa using hkept.startTime
    refine .clocked (hkept.level.trans (hframe.level i)) ?_ fun hi ↦ ?_
    · rw [hstart, hframe.startTime]
      simp [clockedStart, charges]
    · have hne : i ≠ p := by
        rintro rfl
        rw [hp] at hi
        cases hi
      rw [dispatch_state, if_neg hne, hframe.state, hi]

/-- Every step of the kernel is one of the three for each slot. -/
theorem Effect.slotStep (hsound : Sound s xs) (hplaced : Placed s) (heffect : Effect s e s')
    (i : Slot) : SlotStep s e s' i := by
  cases heffect with
  | pass _ hpass => exact (pass_ok hsound.rep hpass).1.slotStep i
  | @slice h ctx kalloc p t u hp hstir hexpire =>
    obtain ⟨q, hlevel, hexpired⟩ := (hsound.stir hstir).expire hexpire
    cases hexpired with
    | unexpired _ =>
      have hleave := leave_yield hstir hp
      have hkept := hleave.kept_all i
      refine .clocked hkept.level hkept.startTime fun hi ↦ ?_
      have hne : i ≠ p := by
        rintro rfl
        rw [hplaced.running h i hp] at hi
        cases hi
      exact (hleave.others i hne).woken.unused hi
    | empty hslice _ _ hdemoted => exact hdemoted.slotStep hp hstir hlevel hslice i
    | popped hslice _ _ hdemoted => exact hdemoted.slotStep hp hstir hlevel hslice i
  | stir hstir => exact (hstir.proc i).slotStep
  | @leave _ p _ hleave =>
    by_cases hi : i = p
    · refine .clocked (hleave.kept_all i).level (hleave.kept_all i).startTime fun hunused ↦ ?_
      rw [hi, hplaced.running _ p hleave.current] at hunused
      cases hunused
    · exact (hleave.others i hi).slotStep
  | @alloc _ _ np _ _ halloc _ _ _ hlevel _ hstart haround =>
    by_cases hi : i = np
    · exact .fresh (hi ▸ halloc) fun _ ↦ hi ▸ ⟨hlevel, hstart⟩
    · exact haround.slotStep (charges_of_allocated halloc) hi
  | @discard _ np _ halloc _ hunused _ _ _ _ haround =>
    by_cases hi : i = np
    · exact .fresh (hi ▸ halloc) fun hne ↦ absurd (hi ▸ hunused) hne
    · exact haround.slotStep (charges_of_allocated halloc) hi
  | @publish _ _ np _ _ hnp _ hkept haround =>
    by_cases hi : i = np
    · subst hi
      refine .clocked hkept.level hkept.startTime fun hunused ↦ ?_
      rw [hplaced.child _ i hnp] at hunused
      cases hunused
    · exact haround.slotStep rfl hi
  | @reap _ np _ hreaped _ hunused _ hlevel _ hstart haround =>
    by_cases hi : i = np
    · subst hi
      refine .clocked hlevel ?_ fun _ ↦ hunused
      rw [hstart, charges_of_reaped hreaped]
      simp [clockedStart]
    · exact haround.slotStep (charges_of_reaped hreaped) hi

theorem Passed.slice {h : Hart} (hpass : Passed s xs h s') (q : Fin queueSize) :
    (s'.queue q).priorityQueueTicks = (s.queue q).priorityQueueTicks := by
  cases hpass with
  | idle _ _ hframe => exact hframe.slice q
  | exhausted _ _ _ hframe => exact hframe.slice q
  | dispatched _ _ _ _ _ _ hframe => exact hframe.slice q

theorem Expired.slice {q' : Fin queueSize} (hexpired : Expired s xs p q' t) (q : Fin queueSize) :
    (t.queue q).priorityQueueTicks = (s.queue q).priorityQueueTicks := by
  cases hexpired with
  | unexpired _ => rfl
  | empty _ _ _ hdemoted => exact hdemoted.slice q
  | popped _ _ _ hdemoted => exact hdemoted.slice q

theorem Effect.slice_eq (hsound : Sound s xs) (heffect : Effect s e s') (q : Fin queueSize) :
    (s'.queue q).priorityQueueTicks = (s.queue q).priorityQueueTicks := by
  cases heffect with
  | pass _ hpass => exact (pass_ok hsound.rep hpass).1.slice q
  | slice _ hstir hexpire =>
    obtain ⟨q', -, hexpired⟩ := (hsound.stir hstir).expire hexpire
    exact (hexpired.slice q).trans (by rw [hstir.queue])
  | stir hstir => rw [hstir.queue]
  | leave hleave => rw [hleave.queue]
  | alloc _ _ _ _ _ _ _ _ haround => rw [haround.queue]
  | discard _ _ _ _ _ _ _ haround => rw [haround.queue]
  | publish _ _ _ _ haround => rw [haround.queue]
  | reap _ _ _ _ _ _ _ haround => rw [haround.queue]

/-! ## Accounts -/

/-- What is known about the time slice of the process in a slot. -/
structure Account where
  /-- clock ticks charged by `update_time` since the process entered its level -/
  charged : ℕ := 0
  /-- the `start_time` that `allocproc` found in the slot -/
  inherited : Int32 := 0

def account (a : Slot → Account) (s : State) (e : Event) (s' : State) (i : Slot) : Account :=
  if allocated s e = some i then { inherited := (s.proc i).startTime }
  else
    { a i with
      charged :=
        if (s'.proc i).priorityQueueNumber = (s.proc i).priorityQueueNumber then
          (a i).charged + charge s e i
        else 0 }

def audited : System (State × (Slot → Account)) Event :=
  (system .mlfq).withHistory (fun _ ↦ {}) account

/-- At level 0 the leftover of the last owner may add to the account. -/
def allowance (pr : Proc) (a : Account) : ℤ :=
  if pr.priorityQueueNumber = 0 then max 0 a.inherited.toInt else 0

structure Accounted (o : State × (Slot → Account)) : Prop where
  sound : ∃ xs, Sound o.1 xs
  placed : Placed o.1
  slices : ∀ q, (o.1.queue q).priorityQueueTicks = priorityQueueTicks q
  start : ∀ i, (o.1.proc i).state ≠ .unused →
    (o.1.proc i).startTime.toInt ≤ (o.2 i).charged + allowance (o.1.proc i) (o.2 i)

theorem allowance_nonneg (pr : Proc) (a : Account) : 0 ≤ allowance pr a := by
  unfold allowance
  split
  · exact le_max_left _ _
  · exact le_rfl

/-- One tick adds at most one, also where the counter wraps around. -/
theorem toInt_add_one_le (a : Int32) : (a + 1).toInt ≤ a.toInt + 1 := by
  have hone : (1 : Int32).toInt = 1 := rfl
  have hlt := a.toInt_lt
  have hle := a.le_toInt
  rw [Int32.toInt_add, hone, Int.bmod_def]
  split <;> omega

theorem clockedStart_toInt_le (s : State) (e : Event) (i : Slot) :
    (clockedStart (charges e) (s.proc i)).toInt ≤ (s.proc i).startTime.toInt + charge s e i := by
  unfold clockedStart charge
  split
  · exact toInt_add_one_le _
  · simp

theorem accounted_start : Accounted audited.start where
  sound := ⟨_, sound_start⟩
  placed := placed_start
  slices q := rfl
  start i _ := by
    have hstart : (audited.start.1.proc i).startTime = 0 := (userinit_mlfq i).2.2.2.2
    have hallow := allowance_nonneg (audited.start.1.proc i) (audited.start.2 i)
    rw [hstart]
    change (0 : ℤ) ≤ ((0 : ℕ) : ℤ) + _
    omega

/-- A step keeps `start_time` within the account of each slot. -/
theorem SlotStep.start {a : Slot → Account} (hstep : SlotStep s e s' i)
    (hstart : (s.proc i).state ≠ .unused →
      (s.proc i).startTime.toInt ≤ (a i).charged + allowance (s.proc i) (a i))
    (hi : (s'.proc i).state ≠ .unused) :
    (s'.proc i).startTime.toInt ≤
      (account a s e s' i).charged + allowance (s'.proc i) (account a s e s' i) := by
  cases hstep with
  | clocked hlevel htime hunused =>
    have hused : (s.proc i).state ≠ .unused := mt hunused hi
    have hold : allocated s e ≠ some i := fun halloc ↦ hused (unused_of_allocated halloc)
    have hbound := clockedStart_toInt_le s e i
    have hallow : allowance (s'.proc i) (account a s e s' i) = allowance (s.proc i) (a i) := by
      simp [allowance, account, hold, hlevel]
    have hcharged : (account a s e s' i).charged = (a i).charged + charge s e i := by
      simp [account, hold, hlevel]
    rw [htime, hallow, hcharged]
    have := hstart hused
    push_cast
    omega
  | fresh halloc hnew =>
    obtain ⟨hlevel, htime⟩ := hnew hi
    have haccount : account a s e s' i = { inherited := (s.proc i).startTime } := by
      simp [account, halloc]
    rw [haccount, htime]
    simp [allowance, hlevel]
  | expired _ _ _ _ _ htime =>
    have hallow := allowance_nonneg (s'.proc i) (account a s e s' i)
    rw [htime]
    change (0 : ℤ) ≤ _
    omega

theorem Accounted.next {o o' : State × (Slot → Account)} (ho : Accounted o)
    (hnext : audited.next o e = some o') : Accounted o' := by
  obtain ⟨hstep, hrecord⟩ := System.withHistory_next.mp hnext
  obtain ⟨xs, hsound⟩ := ho.sound
  have heffect := effect_of_next hsound.waitTicks hstep
  refine ⟨hsound.effect heffect, ho.placed.effect hsound heffect, fun q ↦ ?_, fun i hi ↦ ?_⟩
  · exact (heffect.slice_eq hsound q).trans (ho.slices q)
  · rw [hrecord]
    exact (heffect.slotStep hsound ho.placed i).start (ho.start i) hi

/-! ## The law of time slices -/

/-- What one step may do to the levels, given the accounts before it. -/
structure SliceLaw (o : State × (Slot → Account)) (e : Event) (s' : State) : Prop where
  /-- a process that `allocproc` created starts at level 0 -/
  starts : ∀ i, allocated o.1 e = some i → (s'.proc i).state ≠ .unused →
    (s'.proc i).priorityQueueNumber = 0
  /-- any other level stays, or grows by one after the time slice of the level was charged -/
  grows : ∀ i, allocated o.1 e ≠ some i →
    (s'.proc i).priorityQueueNumber = (o.1.proc i).priorityQueueNumber ∨
    ∃ q : Fin queueSize, (o.1.proc i).priorityQueueNumber = q.val ∧
      (s'.proc i).priorityQueueNumber = q.val + 1 ∧
      (priorityQueueTicks q).toInt ≤ (o.2 i).charged + charge o.1 e i
  /-- no level is past the last queue -/
  bounded : ∀ i, (s'.proc i).priorityQueueNumber ≤ 3
  /-- the queues have the time slices of `userinit` -/
  slices : ∀ q, (o.1.queue q).priorityQueueTicks = priorityQueueTicks q

/-- A timer interrupt from user mode either charges a tick, or hits a process that is below level 0
or whose slot had no `start_time` left when `allocproc` took it. -/
def NoLeftover (o : State × (Slot → Account)) : Event → Prop
  | .userTimer h _ _ => h = 0 ∨ ∀ p ∈ o.1.cpu h,
      (o.1.proc p).priorityQueueNumber = 0 → (o.2 p).inherited ≤ 0
  | _ => True

instance (o : State × (Slot → Account)) : (e : Event) → Decidable (NoLeftover o e)
  | .userTimer _ _ _ => inferInstanceAs (Decidable (_ ∨ _))
  | .pass _ | .poll _ _ | .trapReturn _ | .kernelTimer _ | .wakeup _ _ | .sleep _ _ | .kill _ _
  | .forkAlloc _ _ | .forkPublish _ | .exit _ _ | .wait _ _ | .waitx _ _ | .settickets _ _ =>
    inferInstanceAs (Decidable True)

/-- The account of a process whose time slice ends covers the time slice. -/
theorem Accounted.slice_le {o : State × (Slot → Account)} {h : Hart} {ctx : UserContext}
    {kalloc : Bool} {q : Fin queueSize} (ho : Accounted o)
    (hgood : NoLeftover o (.userTimer h ctx kalloc)) (hi : o.1.cpu h = some i)
    (hlevel : (o.1.proc i).priorityQueueNumber = q.val)
    (hslice : (o.1.queue q).priorityQueueTicks ≤
      clockedStart (charges (.userTimer h ctx kalloc)) (o.1.proc i)) :
    (priorityQueueTicks q).toInt ≤
      (o.2 i).charged + charge o.1 (.userTimer h ctx kalloc) i := by
  have hrunning := ho.placed.running h i hi
  have hstart := ho.start i (by simp [hrunning])
  have hbound := clockedStart_toInt_le o.1 (.userTimer h ctx kalloc) i
  rw [ho.slices q, Int32.le_iff_toInt_le] at hslice
  by_cases hq : q = 0
  · rcases hgood with rfl | hleft
    · -- hart 0 charges the tick that is the whole time slice of level 0
      have hcharge : charge o.1 (.userTimer 0 ctx kalloc) i = 1 := by
        simp [charge, charges, hrunning]
      subst hq
      rw [hcharge]
      change (1 : ℤ) ≤ _
      omega
    · have hinherited := Int32.le_iff_toInt_le.mp (hleft i hi (by simp [hlevel, hq]))
      have hzero : (0 : Int32).toInt = 0 := rfl
      have hallow : allowance (o.1.proc i) (o.2 i) = 0 := by
        simp only [allowance, hlevel, hq, Fin.val_zero, if_true]
        omega
      omega
  · have hallow : allowance (o.1.proc i) (o.2 i) = 0 := by
      have hne : q.val ≠ 0 := fun h ↦ hq (Fin.ext h)
      simp [allowance, hlevel, hne]
    omega

/-- A step that `allocproc` does not take part in obeys the law. -/
theorem Accounted.grows {o : State × (Slot → Account)} (ho : Accounted o) (hgood : NoLeftover o e)
    (hstep : SlotStep o.1 e s' i) (hold : allocated o.1 e ≠ some i) :
    (s'.proc i).priorityQueueNumber = (o.1.proc i).priorityQueueNumber ∨
    ∃ q : Fin queueSize, (o.1.proc i).priorityQueueNumber = q.val ∧
      (s'.proc i).priorityQueueNumber = q.val + 1 ∧
      (priorityQueueTicks q).toInt ≤ (o.2 i).charged + charge o.1 e i := by
  cases hstep with
  | clocked hlevel _ _ => exact .inl hlevel
  | fresh halloc _ => exact absurd halloc hold
  | @expired h ctx kalloc q he hi hlevel hslice hnext _ =>
    subst he
    by_cases hlast : q.val < queueSize - 1
    · rw [nextLevel, if_pos hlast] at hnext
      exact .inr ⟨q, hlevel, hnext, ho.slice_le hgood hi hlevel hslice⟩
    · rw [nextLevel, if_neg hlast] at hnext
      exact .inl (hnext.trans hlevel.symm)

theorem accounted_of_reachable {good : State × (Slot → Account) → Event → Prop}
    {o : State × (Slot → Account)} (ho : audited.Reachable good o) : Accounted o :=
  ho.invariant Accounted accounted_start fun _ _ _ hinv _ hnext ↦ hinv.next hnext

/-- Two harts.  A child runs on hart 1 for one tick and exits; its slot goes to a new child with
`start_time` still 1, and hart 1 takes the new child. -/
def leftoverSlice : List Event :=
  [.pass 0, .forkAlloc 0 .ok, .forkPublish 0, .pass 1, .kernelTimer 0, .pass 0, .exit 1 0,
    .wait 0 false, .forkAlloc 0 .ok, .forkPublish 0, .pass 1]

end EnhancedXv6.Mlfq
