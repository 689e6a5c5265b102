import EnhancedXv6.Lifecycle.Waiting

/-!
# What each operation leaves alone

Most operations touch neither the beginning or the end of a process nor its counters and times.
The results about these are proved from the remaining operations.
-/

namespace EnhancedXv6.Lifecycle

open Kernel Transition

variable {b : Build} {s s' : State} {e : LifeEvent} {p : Slot} {pr pr' : Proc}

/-- A change that touches neither the counters nor the beginning or the end of a process.  A process
that has exited may be reaped. -/
structure Settled (pr pr' : Proc) : Prop where
  counters : pr'.sysCounter = pr.sysCounter
  unused : pr.state = .unused → pr'.state = .unused
  used : pr.state = .used → pr'.state = .used
  zombie : pr'.state = .zombie → pr.state = .zombie
  dead : Dead pr.state → Dead pr'.state

/-- A change that does not touch the times either. -/
structure Untouched (pr pr' : Proc) : Prop extends Settled pr pr' where
  rtime : pr'.rtime = pr.rtime
  ctime : pr'.ctime = pr.ctime
  etime : pr'.etime = pr.etime

theorem Settled.of_state_eq (hcounters : pr'.sysCounter = pr.sysCounter)
    (hstate : pr'.state = pr.state) : Settled pr pr' where
  counters := hcounters
  unused h := hstate.trans h
  used h := hstate.trans h
  zombie h := hstate.symm.trans h
  dead h := hstate.symm ▸ h

theorem Settled.refl (pr : Proc) : Settled pr pr := .of_state_eq rfl rfl

theorem Settled.of_live (hcounters : pr'.sysCounter = pr.sysCounter) (hlive : Live pr.state)
    (hlive' : Live pr'.state) : Settled pr pr' := by
  refine ⟨hcounters, fun h ↦ ?_, fun h ↦ ?_, fun h ↦ ?_, fun h ↦ ?_⟩
  · simp [h, Live] at hlive
  · simp [h, Live] at hlive
  · simp [h, Live] at hlive'
  · exact absurd h (not_dead_of_live hlive)

theorem Untouched.refl (pr : Proc) : Untouched pr pr := ⟨.refl pr, rfl, rfl, rfl⟩

theorem Untouched.of_rehomed (h : Rehomed pr pr') : Untouched pr pr' := by
  obtain ⟨state, parent, rfl, rfl | ⟨hsleep, rfl⟩⟩ := h
  · exact ⟨.of_state_eq rfl rfl, rfl, rfl, rfl⟩
  · exact ⟨.of_live rfl (by simp [hsleep, Live]) (by simp [Live]), rfl, rfl, rfl⟩

theorem settled_modify {f : Proc → Proc} (hf : Settled (s.proc p) (f (s.proc p))) (i : Slot) :
    Settled (s.proc i) ((s.modify p f).proc i) := by
  by_cases hi : i = p
  · subst hi
    simpa using hf
  · simpa [hi] using Settled.refl (s.proc i)

theorem untouched_modify {f : Proc → Proc} (hf : Untouched (s.proc p) (f (s.proc p))) (i : Slot) :
    Untouched (s.proc i) ((s.modify p f).proc i) := by
  by_cases hi : i = p
  · subst hi
    simpa using hf
  · simpa [hi] using Untouched.refl (s.proc i)

theorem untouched_freeproc (hzombie : pr.state = .zombie) : Untouched pr (freeproc b pr) :=
  ⟨⟨rfl, fun _ ↦ rfl, fun h ↦ (by simp [hzombie] at h), fun _ ↦ hzombie, fun _ ↦ .inl rfl⟩,
    rfl, rfl, rfl⟩

theorem untouched_killProc (pr : Proc) : Untouched pr (killProc pr) := by
  refine ⟨?_, rfl, rfl, rfl⟩
  by_cases hsleep : pr.state = .sleeping
  · exact .of_live rfl (by simp [hsleep, Live]) (by simp [killProc, hsleep, Live])
  · exact .of_state_eq rfl (if_neg hsleep)

theorem settled_visit (b : Build) (p i : Slot) :
    Settled (s.proc i) ((s.modify p (updateTimeProc b)).proc i) := by
  apply settled_modify
  unfold updateTimeProc
  split_ifs <;> exact .of_state_eq rfl rfl

/-- The events other than those that begin, end or reap a process, count a call, or move the
clock. -/
def Quiet : LifeEvent → Bool
  | .tick | .visit _ | .complete _ _ | .forkAlloc _ _ _ | .forkPublish _ | .exit _ _
  | .wait _ _ => false
  | _ => true

theorem untouched_of_quiet (hquiet : Quiet e = true) (hnext : (lifecycle b).next s e = some s') :
    (∀ i, Untouched (s.proc i) (s'.proc i)) ∧ s'.forkChild = s.forkChild ∧ s'.ticks = s.ticks := by
  obtain ⟨henabled, hperform⟩ := lifecycle_next.mp hnext
  cases e with
  | move p state =>
    obtain rfl := Option.some.inj hperform
    exact ⟨untouched_modify ⟨.of_live rfl henabled.1 henabled.2, rfl, rfl, rfl⟩, rfl, rfl⟩
  | requeue p level startTime waitTicks =>
    obtain rfl := Option.some.inj hperform
    exact ⟨untouched_modify ⟨.of_state_eq rfl rfl, rfl, rfl, rfl⟩, rfl, rfl⟩
  | setFile p fd file =>
    obtain rfl := Option.some.inj hperform
    exact ⟨untouched_modify ⟨.of_state_eq rfl rfl, rfl, rfl, rfl⟩, rfl, rfl⟩
  | waitx p copyoutFails =>
    obtain ⟨r, hscan, rfl⟩ := Option.map_eq_some_iff.mp hperform
    rcases waitx_cases hscan with hr | ⟨pp, hfind, hr⟩ <;> rw [hr]
    · exact ⟨fun i ↦ .refl _, rfl, rfl⟩
    · exact ⟨untouched_modify (untouched_freeproc (findZombie_spec hfind).2), rfl, rfl⟩
  | kill pid =>
    obtain rfl := Option.some.inj hperform
    unfold kill
    split
    · exact ⟨fun i ↦ .refl _, rfl, rfl⟩
    · exact ⟨untouched_modify (untouched_killProc _), rfl, rfl⟩
  | settickets p number =>
    obtain rfl := Option.some.inj hperform
    unfold settickets
    split_ifs
    · exact ⟨fun i ↦ .refl _, rfl, rfl⟩
    · dsimp only
      exact ⟨untouched_modify ⟨.of_state_eq rfl rfl, rfl, rfl, rfl⟩, rfl, rfl⟩
  | _ => cases hquiet

/-! ## Unfinished children -/

theorem forking_userinit (b : Build) : Forking (userinit b) := by
  have hnone : ∀ p, (userinit b).forkChild p = none := congrFun (userinit_idle b).2
  exact ⟨fun p np h ↦ (by simp [hnone] at h), fun p p' np h ↦ (by simp [hnone] at h)⟩

theorem forking_next (hs : Forking s) (hnext : (lifecycle b).next s e = some s') : Forking s' := by
  by_cases hquiet : Quiet e = true
  · obtain ⟨huntouched, hfork, -⟩ := untouched_of_quiet hquiet hnext
    exact hs.of_used hfork fun i ↦ (huntouched i).used
  obtain ⟨henabled, hperform⟩ := lifecycle_next.mp hnext
  cases e with
  | tick =>
    obtain rfl := Option.some.inj hperform
    exact hs.of_used rfl fun i h ↦ h
  | visit p =>
    obtain rfl := Option.some.inj hperform
    exact hs.of_used rfl fun i ↦ (settled_visit b p i).used
  | complete p num =>
    obtain rfl := Option.some.inj hperform
    refine hs.of_used rfl fun i h ↦ ?_
    by_cases hi : i = p <;> simp_all [countCall]
  | forkAlloc p np outcome =>
    obtain rfl := Option.some.inj hperform
    exact hs.forkAllocAt p henabled.2 outcome
  | forkPublish p =>
    obtain rfl := Option.some.inj hperform
    exact hs.forkPublish p
  | exit p status =>
    obtain rfl := Option.some.inj hperform
    obtain ⟨⟨hrunning, -⟩, -⟩ := henabled
    refine hs.of_used (exitProc_forkChild s p status) fun i h ↦ ?_
    have hi : i ≠ p := by
      rintro rfl
      simp [h] at hrunning
    exact (Untouched.of_rehomed (rehomed_exitProc s status hi)).used h
  | wait p copyoutFails =>
    obtain ⟨r, hscan, rfl⟩ := Option.map_eq_some_iff.mp hperform
    rcases wait_cases hscan with ⟨-, hr⟩ | ⟨pp, hfind, hr⟩
    · rwa [hr]
    · have hzombie := (findZombie_spec hfind).2
      rw [hr]
      refine hs.of_used (by split <;> rfl) fun i h ↦ ?_
      have hi : i ≠ pp := by
        rintro rfl
        simp [h] at hzombie
      by_cases hip : i = p <;> split <;> simp_all [addCounters]
  | _ => exact absurd rfl hquiet

end EnhancedXv6.Lifecycle
