import EnhancedXv6.Lifecycle.Waiting

/-!
# What a new process inherits from its slot

`freeproc`, `allocproc` and `fork` each initialise some fields of a slot.  Two forks by the same
parent at the same time, into slots with different pasts, are compared here.  Three fields of the
past survive: `killed`, since `kill(0)` finds `UNUSED` slots by their pid and `allocproc` does not
clear it, `start_time`, and outside the LBS build `tickets`.
-/

namespace EnhancedXv6.Lifecycle

open Kernel Transition

variable {b : Build} {s s' : State} {e : LifeEvent} {p np : Slot} {pr pr' : Proc}

/-- `fork()` by process `p` into slot `np`, in which nothing fails. -/
def forked (b : Build) (s : State) (p np : Slot) : State :=
  forkPublish (forkAllocAt b s p np .ok) p

/-- The processes start with the same flags, alarm, counters, files, scheduling fields and times. -/
structure StartsAs (pr pr' : Proc) : Prop where
  killed : pr.killed = pr'.killed
  handlingAlarm : pr.handlingAlarm = pr'.handlingAlarm
  ticksOfAlarm : pr.ticksOfAlarm = pr'.ticksOfAlarm
  currentTicks : pr.currentTicks = pr'.currentTicks
  trapframeAlarm : pr.trapframeAlarm = pr'.trapframeAlarm
  alarmStatus : pr.alarmStatus = pr'.alarmStatus
  sysCounter : pr.sysCounter = pr'.sysCounter
  ofile : pr.ofile = pr'.ofile
  tickets : pr.tickets = pr'.tickets
  priorityQueueNumber : pr.priorityQueueNumber = pr'.priorityQueueNumber
  startTime : pr.startTime = pr'.startTime
  waitTicks : pr.waitTicks = pr'.waitTicks
  rtime : pr.rtime = pr'.rtime
  ctime : pr.ctime = pr'.ctime
  etime : pr.etime = pr'.etime

/-- A slot without a live process has no open files, and the MLFQ fields are used by the MLFQ build
only. -/
structure Clean (b : Build) (pr : Proc) : Prop where
  files : Dead pr.state → pr.ofile = fun _ ↦ none
  level : b ≠ .mlfq → pr.priorityQueueNumber = 0
  startTime : b ≠ .mlfq → pr.startTime = 0
  waitTicks : b ≠ .mlfq → pr.waitTicks = 0

theorem Clean.of_eq (hclean : Clean b pr) (hdead : Dead pr'.state → Dead pr.state)
    (hfile : pr'.ofile = pr.ofile) (hlevel : pr'.priorityQueueNumber = pr.priorityQueueNumber)
    (hstart : pr'.startTime = pr.startTime) (hwait : pr'.waitTicks = pr.waitTicks) :
    Clean b pr' where
  files h := hfile.trans (hclean.files (hdead h))
  level h := hlevel.trans (hclean.level h)
  startTime h := hstart.trans (hclean.startTime h)
  waitTicks h := hwait.trans (hclean.waitTicks h)

theorem Clean.of_rehomed (hclean : Clean b pr) (h : Rehomed pr pr') : Clean b pr' := by
  obtain ⟨state, parent, rfl, hstate⟩ := h
  refine hclean.of_eq (fun hdead ↦ ?_) rfl rfl rfl rfl
  rcases hstate with rfl | ⟨-, rfl⟩
  · exact hdead
  · simp [Dead] at hdead

theorem clean_modify (hclean : ∀ i, Clean b (s.proc i)) {f : Proc → Proc}
    (hf : Clean b (f (s.proc p))) (i : Slot) : Clean b ((s.modify p f).proc i) := by
  by_cases hi : i = p
  · subst hi
    simpa using hf
  · simpa [hi] using hclean i

theorem Clean.freeproc (hclean : Clean b pr) (hdead : Dead pr.state) :
    Clean b (freeproc b pr) :=
  hclean.of_eq (fun _ ↦ hdead) rfl rfl rfl rfl

theorem Clean.updateTimeProc (hclean : Clean b pr) : Clean b (updateTimeProc b pr) := by
  unfold Kernel.updateTimeProc
  split_ifs with hrunning hmlfq
  · refine ⟨fun hdead ↦ ?_, hclean.level, fun h ↦ ?_, hclean.waitTicks⟩
    · simp [Dead, hrunning] at hdead
    · exact absurd hmlfq h
  · exact hclean.of_eq id rfl rfl rfl rfl
  · exact hclean

theorem clean_forkAllocAt (hclean : ∀ i, Clean b (s.proc i))
    (hunused : (s.proc np).state = .unused) (outcome : AllocOutcome) (i : Slot) :
    Clean b ((forkAllocAt b s p np outcome).proc i) := by
  by_cases hi : i = np
  · subst hi
    have hfiles := (hclean i).files (.inl hunused)
    refine ⟨fun hdead ↦ ?_, fun hb ↦ ?_, fun hb ↦ ?_, fun hb ↦ ?_⟩
    · rw [forkAllocAt_state] at hdead
      cases outcome with
      | ok => simp [Dead] at hdead
      | _ => simp [forkAllocAt, allocprocAt, forkCopy, allocprocFound, allocprocReady, freeproc, hfiles]
    · cases outcome <;> simp [forkAllocAt, allocprocAt, forkCopy, allocprocFound, allocprocReady,
        freeproc, (hclean i).level hb]
    · cases outcome <;> simp [forkAllocAt, allocprocAt, forkCopy, allocprocFound, allocprocReady,
        freeproc, (hclean i).startTime hb]
    · cases outcome <;> simp [forkAllocAt, allocprocAt, forkCopy, allocprocFound, allocprocReady,
        freeproc, (hclean i).waitTicks hb]
  · rw [forkAllocAt_proc_of_ne hi]
    exact hclean i

theorem clean_forkPublish (hclean : ∀ i, Clean b (s.proc i)) (i : Slot) :
    Clean b ((forkPublish s p).proc i) := by
  rw [forkPublish_proc]
  split_ifs
  · exact (hclean i).of_eq (fun hdead ↦ by simp [Dead] at hdead) rfl rfl rfl rfl
  · exact hclean i

theorem clean_exitProc (hclean : ∀ i, Clean b (s.proc i)) (status : Int32) (i : Slot) :
    Clean b ((exitProc s p status).proc i) := by
  by_cases hi : i = p
  · subst hi
    obtain ⟨parent, hself⟩ := exitProc_self s i status
    rw [hself]
    exact ⟨fun _ ↦ rfl, (hclean i).level, (hclean i).startTime, (hclean i).waitTicks⟩
  · exact (hclean i).of_rehomed (rehomed_exitProc s status hi)

theorem Clean.killProc (hclean : Clean b pr) : Clean b (killProc pr) := by
  refine hclean.of_eq (fun hdead ↦ ?_) rfl rfl rfl rfl
  simp only [Kernel.killProc] at hdead
  split_ifs at hdead
  · simp [Dead] at hdead
  · exact hdead

theorem clean_reap (hclean : ∀ i, Clean b (s.proc i)) {pp : Slot}
    (hzombie : (s.proc pp).state = .zombie) (i : Slot) :
    Clean b ((s.modify pp (freeproc b)).proc i) :=
  clean_modify hclean ((hclean pp).freeproc (.inr hzombie)) i

theorem clean_next (hclean : ∀ i, Clean b (s.proc i)) (hnext : (lifecycle b).next s e = some s') :
    ∀ i, Clean b (s'.proc i) := by
  obtain ⟨henabled, hperform⟩ := lifecycle_next.mp hnext
  cases e with
  | move p state =>
    obtain rfl := Option.some.inj hperform
    refine clean_modify hclean ((hclean p).of_eq (fun hdead ↦ ?_) rfl rfl rfl rfl)
    exact absurd hdead (not_dead_of_live henabled.2)
  | requeue p level startTime waitTicks =>
    obtain rfl := Option.some.inj hperform
    obtain ⟨hmlfq, hlive⟩ := henabled
    exact clean_modify hclean ⟨(hclean p).files, fun h ↦ absurd hmlfq h,
      fun h ↦ absurd hmlfq h, fun h ↦ absurd hmlfq h⟩
  | tick =>
    obtain rfl := Option.some.inj hperform
    exact hclean
  | visit p =>
    obtain rfl := Option.some.inj hperform
    exact clean_modify hclean (hclean p).updateTimeProc
  | complete p num =>
    obtain rfl := Option.some.inj hperform
    exact clean_modify hclean ((hclean p).of_eq id rfl rfl rfl rfl)
  | setFile p fd file =>
    obtain rfl := Option.some.inj hperform
    have hrunning : (s.proc p).state = .running := henabled.1
    refine clean_modify hclean ⟨fun hdead ↦ ?_, (hclean p).level, (hclean p).startTime,
      (hclean p).waitTicks⟩
    simp [Dead, hrunning] at hdead
  | forkAlloc p np outcome =>
    obtain rfl := Option.some.inj hperform
    exact clean_forkAllocAt hclean henabled.2 outcome
  | forkPublish p =>
    obtain rfl := Option.some.inj hperform
    exact clean_forkPublish hclean
  | exit p status =>
    obtain rfl := Option.some.inj hperform
    exact clean_exitProc hclean status
  | wait p copyoutFails =>
    obtain ⟨x, hscan, rfl⟩ := Option.map_eq_some_iff.mp hperform
    rcases wait_cases hscan with ⟨-, hx⟩ | ⟨pp, hfind, hx⟩
    · rwa [hx]
    · have hmerged : ∀ i, Clean b
          ((s.modify p (addCounters (s.proc pp).sysCounter)).proc i) :=
        clean_modify hclean ((hclean p).of_eq id rfl rfl rfl rfl)
      rw [hx]
      split_ifs
      · exact hmerged
      · apply clean_reap hmerged
        by_cases hpp : pp = p <;> simp [hpp, addCounters, ← (findZombie_spec hfind).2]
  | waitx p copyoutFails =>
    obtain ⟨x, hscan, rfl⟩ := Option.map_eq_some_iff.mp hperform
    rcases waitx_cases hscan with hx | ⟨pp, hfind, hx⟩ <;> rw [hx]
    · exact hclean
    · exact clean_reap hclean (findZombie_spec hfind).2
  | kill pid =>
    obtain rfl := Option.some.inj hperform
    unfold kill
    split
    · exact hclean
    · exact clean_modify hclean (hclean _).killProc
  | settickets p number =>
    obtain rfl := Option.some.inj hperform
    unfold settickets
    split_ifs
    · exact hclean
    · dsimp only
      exact clean_modify hclean ((hclean p).of_eq id rfl rfl rfl rfl)

theorem clean_userinit (b : Build) (i : Slot) : Clean b ((userinit b).proc i) := by
  simp only [userinit, allocproc, allocprocAt, findUnused_zeroed, reduceCtorEq, if_false]
  by_cases hi : i = 0
  · refine ⟨fun hdead ↦ ?_, fun _ ↦ ?_, fun _ ↦ ?_, fun _ ↦ ?_⟩
    · simp [Dead, hi] at hdead
    all_goals simp [allocprocReady, allocprocFound, zeroed, hi]
  · refine ⟨fun _ ↦ ?_, fun _ ↦ ?_, fun _ ↦ ?_, fun _ ↦ ?_⟩ <;> simp [zeroed, hi]

theorem clean_of_reachable (hs : (lifecycle b).Reachable (fun _ _ ↦ True) s) :
    ∀ i, Clean b (s.proc i) :=
  hs.invariant (fun s ↦ ∀ i, Clean b (s.proc i)) (clean_userinit b)
    fun _ _ _ hclean _ hnext ↦ clean_next hclean hnext

/-! ## Two pasts -/

def childProc (b : Build) (s : State) (p : Slot) (old : Proc) : Proc :=
  { forkedProc b s (s.proc p) old with parent := some p, state := .runnable }

theorem forked_proc (hunused : (s.proc np).state = .unused) (hacts : Acts s p) :
    (forked b s p np).proc np = childProc b s p (s.proc np) := by
  have hne : p ≠ np := by
    rintro rfl
    simp [hacts.1] at hunused
  rw [forked, forkPublish_proc, forkAllocAt_forkChild, if_pos rfl, Function.update_self,
    if_pos rfl, forkAllocAt_child hne, childProc]

/-- The pasts of two slots agree where a child depends on them. -/
structure SamePast (b : Build) (old old' : Proc) : Prop where
  killed : old.killed = old'.killed
  startTime : old.startTime = old'.startTime
  tickets : b ≠ .lbs → old.tickets = old'.tickets

theorem startsAs_iff_samePast {t : State} {old old' : Proc} (hparent : s.proc p = t.proc p)
    (hticks : s.ticks = t.ticks) (hold : Clean b old) (hold' : Clean b old')
    (hdead : Dead old.state) (hdead' : Dead old'.state) :
    StartsAs (childProc b s p old) (childProc b t p old') ↔ SamePast b old old' := by
  constructor
  · intro h
    refine ⟨h.killed, h.startTime, fun hb ↦ ?_⟩
    simpa [childProc, forkedProc, hb] using h.tickets
  · rintro ⟨hkilled, hstart, htickets⟩
    refine ⟨hkilled, rfl, rfl, rfl, rfl, rfl, rfl, ?_, ?_, ?_, hstart, ?_, rfl, hticks, rfl⟩
    · simp [childProc, forkedProc, hparent, hold.files hdead, hold'.files hdead']
    · by_cases hb : b = .lbs
      · simp [childProc, forkedProc, hparent, hb]
      · simpa [childProc, forkedProc, hb] using htickets hb
    · by_cases hb : b = .mlfq
      · simp [childProc, forkedProc, allocprocReady, hb]
      · simp [childProc, forkedProc, allocprocReady, allocprocFound, hb, hold.level hb,
          hold'.level hb]
    · by_cases hb : b = .mlfq
      · simp [childProc, forkedProc, allocprocReady, hb]
      · simp [childProc, forkedProc, allocprocReady, allocprocFound, hb, hold.waitTicks hb,
          hold'.waitTicks hb]

/-- For any two runs that come to a `fork` by the same parent, at the same time and into the same slot,
the children start in the same way if and only if the two pasts of the slot left the same `killed`,
`start_time` and, except for LBS, `tickets` in it. -/
theorem child_independent_of_past_iff (b : Build) {s₁ s₂ : State}
    (h₁ : (lifecycle b).Reachable (fun _ _ ↦ True) s₁)
    (h₂ : (lifecycle b).Reachable (fun _ _ ↦ True) s₂) {p np : Slot} (hacts₁ : Acts s₁ p)
    (hacts₂ : Acts s₂ p) (hparent : s₁.proc p = s₂.proc p) (hticks : s₁.ticks = s₂.ticks)
    (hslot₁ : (s₁.proc np).state = .unused) (hslot₂ : (s₂.proc np).state = .unused) :
    StartsAs ((forked b s₁ p np).proc np) ((forked b s₂ p np).proc np) ↔
      SamePast b (s₁.proc np) (s₂.proc np) := by
  rw [forked_proc hslot₁ hacts₁, forked_proc hslot₂ hacts₂]
  exact startsAs_iff_samePast hparent hticks (clean_of_reachable h₁ np) (clean_of_reachable h₂ np)
    (.inl hslot₁) (.inl hslot₂)

def booted (b : Build) : State :=
  (userinit b).modify 0 fun pr ↦ { pr with state := .running }

theorem booted_reachable (b : Build) : (lifecycle b).Reachable (fun _ _ ↦ True) (booted b) := by
  refine .step (e := .move 0 .running) .start trivial (lifecycle_next.mpr ⟨⟨?_, ?_⟩, rfl⟩)
  · change Live ((userinit b).proc 0).state
    simp [userinit_state, Live]
  · simp [Live]

theorem booted_forks (b : Build) :
    Acts (booted b) 0 ∧ ((booted b).proc 1).state = .unused := by
  cases b <;> decide +kernel

/-- The first process runs and has called `kill(0)`. -/
theorem killed_reachable (b : Build) :
    (lifecycle b).Reachable (fun _ _ ↦ True) ((booted b).modify 1 killProc) := by
  have hfind : (table.find? fun p ↦ ((booted b).proc p).pid = 0) = some 1 := by
    cases b <;> decide +kernel
  refine .step (e := .kill 0) (booted_reachable b) trivial (lifecycle_next.mpr ⟨trivial, ?_⟩)
  simp [perform, kill, hfind]

theorem killed_forks (b : Build) :
    Acts ((booted b).modify 1 killProc) 0 ∧
      (((booted b).modify 1 killProc).proc 1).state = .unused := by
  cases b <;> decide +kernel

theorem killed_parent (b : Build) :
    (booted b).proc 0 = ((booted b).modify 1 killProc).proc 0 := by
  rw [State.modify_proc, if_neg (by decide)]

theorem child_independent_of_past_booted :
    StartsAs ((forked .mlfq (booted .mlfq) 0 1).proc 1)
        ((forked .mlfq ((booted .mlfq).modify 1 killProc) 0 1).proc 1) ↔
      SamePast .mlfq ((booted .mlfq).proc 1) (((booted .mlfq).modify 1 killProc).proc 1) :=
  child_independent_of_past_iff .mlfq (booted_reachable .mlfq) (killed_reachable .mlfq)
    (booted_forks .mlfq).1 (killed_forks .mlfq).1 (killed_parent .mlfq) rfl (booted_forks .mlfq).2
    (killed_forks .mlfq).2

/-- Two runs of the kernel come to the same `fork`, whose children start differently. -/
def Inherits (b : Build) : Prop :=
  ∃ s₁ s₂ p np, (lifecycle b).Reachable (fun _ _ ↦ True) s₁ ∧
    (lifecycle b).Reachable (fun _ _ ↦ True) s₂ ∧ Acts s₁ p ∧ Acts s₂ p ∧
    s₁.proc p = s₂.proc p ∧ s₁.ticks = s₂.ticks ∧ s₁.nextpid = s₂.nextpid ∧
    (s₁.proc np).state = .unused ∧ (s₂.proc np).state = .unused ∧
    ((forked b s₁ p np).proc np).killed = false ∧ ((forked b s₂ p np).proc np).killed = true

theorem inherits_killed (b : Build) : Inherits b := by
  obtain ⟨hacts, hslot⟩ := booted_forks b
  obtain ⟨hacts', hslot'⟩ := killed_forks b
  refine ⟨booted b, (booted b).modify 1 killProc, 0, 1, booted_reachable b, killed_reachable b,
    hacts, hacts', killed_parent b, rfl, rfl, hslot, hslot', ?_, ?_⟩
  · rw [forked_proc hslot hacts]
    cases b <;> decide +kernel
  · rw [forked_proc hslot' hacts']
    simp [childProc, forkedProc, allocprocReady, allocprocFound, killProc]

/-- In each build, a `kill(0)` before the `fork` makes the child start as a killed process. -/
theorem child_inherits_killed : Inherits .default ∧ Inherits .mlfq ∧ Inherits .lbs :=
  ⟨inherits_killed .default, inherits_killed .mlfq, inherits_killed .lbs⟩

end EnhancedXv6.Lifecycle
