import EnhancedXv6.Lifecycle.Frames

/-!
# Process times

`clockintr` advances `ticks` and then runs `update_time`, whose sections lock one process after the
other.  Other harts fork, dispatch and exit between the sections, and `allocproc` and `exit` read
`ticks` without `tickslock`.  A process created between `ticks++` and its own section is therefore
charged a tick of which it has seen nothing, and its run time can exceed its life.  Without such a
process, and as long as no process lives through `2 ^ 32` ticks, the times are consistent.
-/

namespace EnhancedXv6.Lifecycle

open Kernel Transition

variable {b : Build} {s s' : State} {e : LifeEvent} {scan : Option Slot} {p np : Slot}

/-! ## The clock interrupt and the other harts -/

def slotAfter (p : Slot) : Option Slot :=
  if h : p.val + 1 < NPROC then some ⟨p.val + 1, h⟩ else none

/-- The loop of `update_time`: `scan` is the slot whose section comes next, or `none` outside
`clockintr`.  `tickslock` and the test `cpuid() == 0` keep a second `clockintr` out. -/
def scanStep (scan : Option Slot) : LifeEvent → Option (Option Slot)
  | .tick => if scan = none then some (some 0) else none
  | .visit p => if scan = some p then some (slotAfter p) else none
  | _ => some scan

def clocked (b : Build) : System (State × Option Slot) LifeEvent where
  start := (userinit b, none)
  next o e := do
    let scan ← scanStep o.2 e
    let s ← (lifecycle b).next o.1 e
    some (s, scan)

theorem clocked_next {o o' : State × Option Slot} :
    (clocked b).next o e = some o' ↔
      scanStep o.2 e = some o'.2 ∧ (lifecycle b).next o.1 e = some o'.1 := by
  obtain ⟨s', scan'⟩ := o'
  simp only [clocked, Option.bind_eq_bind, Option.bind_eq_some_iff]
  constructor
  · rintro ⟨scan'', hscan, s'', hs, h⟩
    cases h
    exact ⟨hscan, hs⟩
  · rintro ⟨hscan, hs⟩
    exact ⟨scan', hscan, s', hs, rfl⟩

/-! ## The invariant -/

def Pending : Option Slot → Slot → Prop
  | none, _ => False
  | some q, i => q ≤ i

theorem pending_slotAfter {i : Slot} (h : Pending (slotAfter p) i) : p < i := by
  unfold slotAfter at h
  split at h
  · exact Nat.lt_of_succ_le (Fin.le_def.mp h)
  · exact h.elim

/-- The run time of a process is at most its age, and less than that while the pass has still to
charge it the present tick. -/
structure Timed (ticks : UInt32) (pending : Prop) (pr : Proc) : Prop where
  alive : ¬Dead pr.state → pr.rtime ≤ ticks - pr.ctime
  pending : pending → ¬Dead pr.state → pr.ctime ≠ ticks → pr.rtime < ticks - pr.ctime
  exited : pr.state = .zombie → pr.rtime ≤ pr.etime - pr.ctime

namespace Timed

variable {ticks : UInt32} {pending pending' : Prop} {pr pr' : Proc}

theorem of_eq (h : Timed ticks pending pr) (hdead : Dead pr.state → Dead pr'.state)
    (hzombie : pr'.state = .zombie → pr.state = .zombie) (hrtime : pr'.rtime = pr.rtime)
    (hctime : pr'.ctime = pr.ctime) (hetime : pr'.etime = pr.etime) : Timed ticks pending pr' where
  alive hlive := by
    rw [hrtime, hctime]
    exact h.alive (mt hdead hlive)
  pending hpending hlive := by
    rw [hrtime, hctime]
    exact h.pending hpending (mt hdead hlive)
  exited hexited := by
    rw [hrtime, hctime, hetime]
    exact h.exited (hzombie hexited)

theorem of_untouched (h : Timed ticks pending pr) (huntouched : Untouched pr pr') :
    Timed ticks pending pr' :=
  h.of_eq huntouched.dead huntouched.zombie huntouched.rtime huntouched.ctime huntouched.etime

theorem weaken (h : Timed ticks pending pr) (hpending : pending' → pending) :
    Timed ticks pending' pr :=
  ⟨h.alive, fun hp ↦ h.pending (hpending hp), h.exited⟩

theorem tick (h : Timed ticks pending pr) (hage : ¬Dead pr.state → pr.ctime ≠ ticks + 1) :
    Timed (ticks + 1) pending' pr := by
  have holder : ¬Dead pr.state → pr.rtime < ticks + 1 - pr.ctime := by
    intro hlive
    have hrtime := h.alive hlive
    have hctime := hage hlive
    grind
  exact ⟨fun hlive ↦ UInt32.le_of_lt (holder hlive), fun _ hlive _ ↦ holder hlive, h.exited⟩

/-- The section of a process that was created before the present tick. -/
theorem visit (h : Timed ticks pending pr) (hpending : pending)
    (hbefore : pr.state = .running → pr.ctime ≠ ticks) :
    Timed ticks False (updateTimeProc b pr) := by
  by_cases hrunning : pr.state = .running
  · have hlive : ¬Dead pr.state := not_dead_of_live (.inr (.inl hrunning))
    have hrtime := h.pending hpending hlive (hbefore hrunning)
    refine ⟨fun _ ↦ ?_, False.elim, fun hzombie ↦ ?_⟩
    · simp only [updateTimeProc, hrunning, if_true]
      grind
    · simp [updateTimeProc, hrunning] at hzombie
  · have hself : updateTimeProc b pr = pr := by simp [updateTimeProc, hrunning]
    rw [hself]
    exact h.weaken False.elim

end Timed

def TimesInv (o : State × Option Slot) : Prop :=
  ∀ i, Timed o.1.ticks (Pending o.2 i) (o.1.proc i)

theorem timesInv_modify (hinv : TimesInv (s, scan)) {f : Proc → Proc}
    (hf : Timed s.ticks (Pending scan p) (f (s.proc p))) : TimesInv (s.modify p f, scan) := by
  intro i
  by_cases hi : i = p
  · subst hi
    simpa using hf
  · simpa [hi] using hinv i

theorem forkAllocAt_ticks {outcome : AllocOutcome} :
    (forkAllocAt b s p np outcome).ticks = s.ticks := by
  cases outcome <;> rfl

/-- A new process has run for no time since its creation. -/
theorem forkAllocAt_times (b : Build) (s : State) (p np : Slot) :
    ((forkAllocAt b s p np .ok).proc np).rtime = 0 ∧
      ((forkAllocAt b s p np .ok).proc np).ctime = s.ticks := by
  simp [forkAllocAt, allocprocAt, forkCopy, allocprocReady]

theorem TimesInv.forkAlloc (hinv : TimesInv (s, scan)) (p : Slot) (outcome : AllocOutcome) :
    TimesInv (forkAllocAt b s p np outcome, scan) := by
  intro i
  simp only [forkAllocAt_ticks]
  by_cases hi : i = np
  · subst hi
    have hstate := forkAllocAt_state b s p i outcome
    by_cases hok : outcome = .ok
    · subst hok
      obtain ⟨hrtime, hctime⟩ := forkAllocAt_times b s p i
      refine ⟨fun _ ↦ ?_, fun _ _ hne ↦ absurd hctime hne, fun hzombie ↦ ?_⟩
      · rw [hrtime]
        exact UInt32.zero_le
      · cases hstate.symm.trans hzombie
    · rw [if_neg hok] at hstate
      refine ⟨fun hlive ↦ ?_, fun _ hlive ↦ ?_, fun hzombie ↦ ?_⟩
      · exact absurd (.inl hstate) hlive
      · exact absurd (.inl hstate) hlive
      · cases hstate.symm.trans hzombie
  · rw [forkAllocAt_proc_of_ne hi]
    exact hinv i

theorem TimesInv.forkPublish (hinv : TimesInv (s, scan)) (hforking : Forking s) (p : Slot) :
    TimesInv (forkPublish s p, scan) := by
  have hticks : (Kernel.forkPublish s p).ticks = s.ticks := by
    unfold Kernel.forkPublish
    split <;> rfl
  intro i
  simp only [hticks, forkPublish_proc]
  split_ifs with hchild
  · have hused := hforking.child p i hchild
    refine (hinv i).of_eq (fun hdead ↦ ?_) (fun h ↦ ?_) rfl rfl rfl
    · simp [Dead, hused] at hdead
    · cases h
  · exact hinv i

theorem exitProc_ticks (s : State) (p : Slot) (status : Int32) :
    (exitProc s p status).ticks = s.ticks := by
  have hparted : (reparent (s.modify p closeFiles) p).ticks = s.ticks := by
    rw [reparent_eq]
    rfl
  simp only [exitProc, State.modify_ticks, wakeup, hparted]

theorem TimesInv.exit (hinv : TimesInv (s, scan)) (hrunning : (s.proc p).state = .running)
    (status : Int32) : TimesInv (exitProc s p status, scan) := by
  intro i
  simp only [exitProc_ticks]
  by_cases hi : i = p
  · subst hi
    obtain ⟨parent, hself⟩ := exitProc_self s i status
    rw [hself]
    have hlive : ¬Dead (s.proc i).state := not_dead_of_live (.inr (.inl hrunning))
    refine ⟨fun h ↦ absurd (.inr rfl) h, fun _ h ↦ absurd (.inr rfl) h, fun _ ↦ ?_⟩
    exact (hinv i).alive hlive
  · exact (hinv i).of_untouched (.of_rehomed (rehomed_exitProc s status hi))

theorem TimesInv.wait {copyoutFails : Bool} {x : Int32 × State} (hinv : TimesInv (s, scan))
    (hscan : wait b s p copyoutFails = some x) : TimesInv (x.2, scan) := by
  rcases wait_cases hscan with ⟨-, hx⟩ | ⟨pp, hfind, hx⟩
  · rwa [hx]
  · have hmerged : TimesInv (s.modify p (addCounters (s.proc pp).sysCounter), scan) :=
      timesInv_modify hinv ((hinv p).of_eq id id rfl rfl rfl)
    have hzombie : ((s.modify p (addCounters (s.proc pp).sysCounter)).proc pp).state = .zombie := by
      by_cases hpp : pp = p <;> simp [hpp, addCounters, ← (findZombie_spec hfind).2]
    rw [hx]
    split_ifs
    · exact hmerged
    · exact timesInv_modify hmerged ((hmerged pp).of_untouched (untouched_freeproc hzombie))

/-- The two conditions: no process lives through `2 ^ 32` ticks, and no process is charged the tick
in which it was created. -/
def Punctual (o : State × Option Slot) : LifeEvent → Prop
  | .tick => ∀ i, ¬Dead (o.1.proc i).state → (o.1.proc i).ctime ≠ o.1.ticks + 1
  | .visit p => (o.1.proc p).state = .running → (o.1.proc p).ctime ≠ o.1.ticks
  | _ => True

/-- Outside `clockintr` the position in the loop stays. -/
theorem scanStep_of_quiet (hquiet : Quiet e = true) : scanStep scan e = some scan := by
  cases e <;> first | rfl | cases hquiet

theorem TimesInv.next {o o' : State × Option Slot} (hinv : TimesInv o) (hforking : Forking o.1)
    (hpunctual : Punctual o e) (hnext : (clocked b).next o e = some o') : TimesInv o' := by
  obtain ⟨s, scan⟩ := o
  obtain ⟨s', scan'⟩ := o'
  obtain ⟨hscan, hstep⟩ := clocked_next.mp hnext
  dsimp only at hscan hstep hforking
  by_cases hquiet : Quiet e = true
  · obtain ⟨huntouched, -, hticks⟩ := untouched_of_quiet hquiet hstep
    obtain rfl := Option.some.inj ((scanStep_of_quiet hquiet).symm.trans hscan)
    intro i
    simp only [hticks]
    exact (hinv i).of_untouched (huntouched i)
  obtain ⟨henabled, hperform⟩ := lifecycle_next.mp hstep
  cases e with
  | tick =>
    obtain rfl := Option.some.inj hperform
    exact fun i ↦ (hinv i).tick (hpunctual i)
  | visit p =>
    obtain rfl := Option.some.inj hperform
    have hat : scan = some p ∧ slotAfter p = scan' := by
      simpa [scanStep] using hscan
    obtain ⟨rfl, rfl⟩ := hat
    intro i
    by_cases hi : i = p
    · subst hi
      have hvisited := (hinv i).visit (b := b) (Fin.le_refl i) hpunctual
      simpa using hvisited.weaken fun h ↦ absurd (pending_slotAfter h) (lt_irrefl i)
    · simpa [hi] using (hinv i).weaken fun h ↦ Fin.le_of_lt (pending_slotAfter h)
  | complete p num =>
    obtain rfl := Option.some.inj hperform
    obtain rfl := Option.some.inj hscan
    exact timesInv_modify hinv ((hinv p).of_eq id id rfl rfl rfl)
  | forkAlloc p np outcome =>
    obtain rfl := Option.some.inj hperform
    obtain rfl := Option.some.inj hscan
    exact hinv.forkAlloc p outcome
  | forkPublish p =>
    obtain rfl := Option.some.inj hperform
    obtain rfl := Option.some.inj hscan
    exact hinv.forkPublish hforking p
  | exit p status =>
    obtain rfl := Option.some.inj hperform
    obtain rfl := Option.some.inj hscan
    exact hinv.exit henabled.1.1 status
  | wait p copyoutFails =>
    obtain ⟨x, hx, rfl⟩ := Option.map_eq_some_iff.mp hperform
    obtain rfl := Option.some.inj hscan
    exact hinv.wait hx
  | _ => exact absurd rfl hquiet

theorem userinit_times (b : Build) (i : Slot) :
    ((userinit b).proc i).rtime = 0 ∧ ((userinit b).proc i).ctime = (userinit b).ticks := by
  simp only [userinit, allocproc, allocprocAt, findUnused_zeroed, reduceCtorEq, if_false]
  by_cases hi : i = 0
  · simp [allocprocReady, allocprocFound, hi]
  · simp [zeroed, hi]

theorem timesInv_of_reachable {o : State × Option Slot} (ho : (clocked b).Reachable Punctual o) :
    TimesInv o := by
  refine (ho.invariant (fun o ↦ TimesInv o ∧ Forking o.1) ⟨fun i ↦ ?_, forking_userinit b⟩
    fun o e o' hinv hpunctual hnext ↦ ⟨hinv.1.next hinv.2 hpunctual hnext,
      forking_next hinv.2 (clocked_next.mp hnext).2⟩).1
  obtain ⟨hrtime, hctime⟩ := userinit_times b i
  refine ⟨fun _ ↦ ?_, fun h ↦ h.elim, fun _ ↦ ?_⟩ <;> change ((userinit b).proc i).rtime ≤ _ <;>
    rw [hrtime] <;> exact UInt32.zero_le

/-! ## Waiting times -/

theorem waitx_times {r : Int32 × Option (UInt32 × UInt32) × State} {fails : Bool}
    {wtime rtime : UInt32} (hscan : waitx b s p fails = some r)
    (htimes : r.2.1 = some (wtime, rtime)) :
    ∃ pp, (s.proc pp).state = .zombie ∧ rtime = (s.proc pp).rtime ∧
      wtime = (s.proc pp).etime - (s.proc pp).ctime - (s.proc pp).rtime := by
  cases hfind : findZombie s p with
  | none =>
    simp only [waitx, hfind] at hscan
    split at hscan <;> cases hscan
    cases htimes
  | some pp =>
    refine ⟨pp, (findZombie_spec hfind).2, ?_⟩
    cases fails <;> simp only [waitx, hfind] at hscan <;> obtain rfl := Option.some.inj hscan <;>
      cases htimes <;> exact ⟨rfl, rfl⟩

theorem wait_time_add {etime ctime rtime : UInt32} (h : rtime ≤ etime - ctime) :
    (etime - ctime - rtime).toNat + rtime.toNat = (etime - ctime).toNat := by
  have hle := UInt32.le_iff_toNat_le.mp h
  rw [UInt32.toNat_sub_of_le _ _ h]
  omega

/-- In every interleaving in which no process is charged the tick in which it was created and none lives
through `2 ^ 32` ticks, the run time of an exited process is at most the time from its creation to its
exit, and `waitx` returns the difference, without wrapping. -/
theorem run_time_within_life (b : Build) {o : State × Option Slot}
    (ho : (clocked b).Reachable Punctual o) :
    (∀ p, (o.1.proc p).state = .zombie →
      (o.1.proc p).rtime ≤ (o.1.proc p).etime - (o.1.proc p).ctime) ∧
    ∀ p fails r wtime rtime, waitx b o.1 p fails = some r → r.2.1 = some (wtime, rtime) →
      ∃ pp, (o.1.proc pp).state = .zombie ∧ rtime = (o.1.proc pp).rtime ∧
        wtime.toNat + rtime.toNat = ((o.1.proc pp).etime - (o.1.proc pp).ctime).toNat := by
  have hinv := timesInv_of_reachable ho
  refine ⟨fun p ↦ (hinv p).exited, fun p fails r wtime rtime hscan htimes ↦ ?_⟩
  obtain ⟨pp, hzombie, rfl, rfl⟩ := waitx_times hscan htimes
  exact ⟨pp, hzombie, rfl, wait_time_add ((hinv pp).exited hzombie)⟩

instance (o : State × Option Slot) : (e : LifeEvent) → Decidable (Punctual o e)
  | .tick => inferInstanceAs (Decidable (∀ i, ¬Dead (o.1.proc i).state →
      (o.1.proc i).ctime ≠ o.1.ticks + 1))
  | .visit p => inferInstanceAs (Decidable ((o.1.proc p).state = .running →
      (o.1.proc p).ctime ≠ o.1.ticks))
  | .move _ _ | .requeue _ _ _ _ | .complete _ _ | .setFile _ _ _ | .forkAlloc _ _ _
  | .forkPublish _ | .exit _ _ | .wait _ _ | .waitx _ _ | .kill _ | .settickets _ _ =>
    inferInstanceAs (Decidable True)

set_option maxRecDepth 100000 in
theorem run_time_within_life_of_child :
    ∃ o, ((clocked .default).Reachable Punctual o ∧ (o.1.proc 1).state = .zombie ∧
        (o.1.proc 1).rtime = 1) ∧
      (∀ p, (o.1.proc p).state = .zombie →
        (o.1.proc p).rtime ≤ (o.1.proc p).etime - (o.1.proc p).ctime) ∧
      ∀ p fails r wtime rtime, waitx .default o.1 p fails = some r →
        r.2.1 = some (wtime, rtime) →
        ∃ pp, (o.1.proc pp).state = .zombie ∧ rtime = (o.1.proc pp).rtime ∧
          wtime.toNat + rtime.toNat = ((o.1.proc pp).etime - (o.1.proc pp).ctime).toNat := by
  obtain ⟨o, ho, hzombie, hrtime⟩ := (clocked .default).exists_reachable Punctual
    (fun o ↦ (o.1.proc 1).state = .zombie ∧ (o.1.proc 1).rtime = 1)
    [.move 0 .running, .forkAlloc 0 1 .ok, .forkPublish 0, .move 1 .running, .tick, .visit 0,
      .visit 1, .exit 1 0] (by decide +kernel)
  exact ⟨o, ⟨ho, hzombie, hrtime⟩, run_time_within_life .default ho⟩

set_option maxRecDepth 100000 in
/-- One hart has done `ticks++`.  A second one forks a process, a third one dispatches it, the first
one comes to its section, and it exits in the tick in which it was created. -/
theorem run_time_exceeds_life :
    ∃ o, (clocked .default).Reachable (fun _ _ ↦ True) o ∧
      ∃ p, (o.1.proc p).state = .zombie ∧
        ¬(o.1.proc p).rtime ≤ (o.1.proc p).etime - (o.1.proc p).ctime ∧
        (o.1.proc p).etime - (o.1.proc p).ctime - (o.1.proc p).rtime = 4294967295 := by
  obtain ⟨o, ho, hzombie, hrtime, hwtime⟩ := (clocked .default).exists_reachable (fun _ _ ↦ True)
    (fun o ↦ (o.1.proc 1).state = .zombie ∧
      ¬(o.1.proc 1).rtime ≤ (o.1.proc 1).etime - (o.1.proc 1).ctime ∧
      (o.1.proc 1).etime - (o.1.proc 1).ctime - (o.1.proc 1).rtime = 4294967295)
    [.move 0 .running, .tick, .forkAlloc 0 1 .ok, .forkPublish 0, .move 1 .running, .visit 0,
      .visit 1, .exit 1 0] (by decide +kernel)
  exact ⟨o, ho, 1, hzombie, hrtime, hwtime⟩

end EnhancedXv6.Lifecycle
