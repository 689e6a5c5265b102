import EnhancedXv6.ExitWait.Reaping
import EnhancedXv6.ExitWait.Waking

/-!
# The exit and wait protocol

The results on parents, on pids and exit statuses, and on processes asleep in `wait` put together,
for every run with an observer.
-/

namespace EnhancedXv6.ExitWait

open Kernel Ownership Registry Transition

variable {s : ExitState} {e : ExitEvent}

/-! ## The protocol -/

def observed (b : Build) : System (ExitState × Ledger) ExitEvent :=
  (exitWait b).withHistory ⟨0, [], []⟩ fun r s e _ ↦ r.record (noteOf s e)

/-- Fewer than `2 ^ 31 - 1` forks ask for a process, so that no pid is given out twice. -/
def FewForks (o : ExitState × Ledger) : ExitEvent → Prop
  | .fork _ _ _ => o.2.forks + 1 < 2 ^ 31 - 1
  | _ => True

instance (o : ExitState × Ledger) : (e : ExitEvent) → Decidable (FewForks o e)
  | .fork _ _ _ => inferInstanceAs (Decidable (o.2.forks + 1 < 2 ^ 31 - 1))
  | .dispatch _ | .preempt _ | .sleep _ _ | .wakeup _ _ | .exit _ _ | .wait _ _ | .kill _ _
  | .advance _ _ => inferInstanceAs (Decidable True)

/-- What `fork`, `exit` and `wait` promise of the processes `s`, after what `r` records. -/
structure Protocol (s : ExitState) (r : Ledger) : Prop where
  /-- every process that can run, and every one that has exited, has a parent that has not -/
  parent : ∀ i, (s.kernel.proc i).state ≠ .unused → (s.kernel.proc i).state ≠ .used →
    s.kernel.initproc ≠ some i → ∃ q, (s.kernel.proc i).parent = some q ∧
      (s.kernel.proc q).state ≠ .unused ∧ (s.kernel.proc q).state ≠ .zombie
  pid : ∀ i j, (s.kernel.proc i).state ≠ .unused → (s.kernel.proc j).state ≠ .unused →
    (s.kernel.proc i).pid = (s.kernel.proc j).pid → i = j
  /-- an exited process is a `ZOMBIE` that no `wait` has returned, or a `wait` of the process that
  was then its parent has returned it with its status -/
  exits : ∀ pid status, (pid, status) ∈ r.exits →
    (∃ i, (s.kernel.proc i).state = .zombie ∧ (s.kernel.proc i).pid = pid ∧
      (s.kernel.proc i).xstate = status ∧ ∀ x ∈ r.returns, x.pid ≠ pid) ∨
    ∃ x ∈ r.returns, x.pid = pid ∧ x.status = status ∧ x.parent = some x.waiter
  /-- `wait` returns processes that have exited, with their status -/
  returns : ∀ x ∈ r.returns, (x.pid, x.status) ∈ r.exits
  /-- and none of them twice -/
  returns_nodup : (r.returns.map Return.pid).Nodup
  asleep : s.waitLock = none → ∀ w z, AsleepInWait s w → (s.kernel.proc z).parent = some w →
    (s.kernel.proc z).state ≠ .zombie

theorem entryOf_number {pr : Proc} (h : pr.state ≠ .unused) :
    (entryOf pr).number = some pr.pid := by
  unfold entryOf
  cases hstage : stage pr.state with
  | free => exact absurd (stage_eq_free.mp hstage) h
  | used | live | zombie => rfl

theorem entryOf_finished {pr : Proc} {pid status : Int32} (h : entryOf pr = .finished pid status) :
    pr.state = .zombie ∧ pr.pid = pid ∧ pr.xstate = status := by
  unfold entryOf at h
  split at h <;> cases h
  exact ⟨stage_eq_zombie.mp ‹_›, rfl, rfl⟩

theorem protocol_of (hfamily : Family s.kernel s.pc) {r : Ledger} (hreaping : Reaping s.kernel r)
    (htold : Told s) : Protocol s r where
  parent i hunused hused hinit := by
    have hstage : stage (s.kernel.proc i).state = .live ∨
        stage (s.kernel.proc i).state = .zombie := by
      generalize (s.kernel.proc i).state = state at hunused hused
      cases state <;> simp_all [stage]
    obtain ⟨q, hq⟩ := Option.ne_none_iff_exists'.mp (hfamily.raised i hstage hinit)
    have hlive := hfamily.home i q hq
    refine ⟨q, hq, fun hstate ↦ ?_, fun hstate ↦ ?_⟩ <;> simp [hstate, stage] at hlive
  pid i j hi hj hpid :=
    hreaping.registered.inj i j _ (entryOf_number hi) (hpid ▸ entryOf_number hj)
  exits pid status hmem := by
    rcases hreaping.registered.kept pid status hmem with htaken | ⟨i, hi⟩
    · obtain ⟨x, hx, hxeq⟩ := List.mem_map.mp htaken
      obtain ⟨hpid, hstatus⟩ := Prod.mk.inj hxeq
      exact .inr ⟨x, hx, hpid, hstatus, hreaping.parent x hx⟩
    · obtain ⟨hzombie, hpid, hstatus⟩ := entryOf_finished hi
      refine .inl ⟨i, hzombie, hpid, hstatus, fun x hx hxpid ↦ ?_⟩
      refine hreaping.registered.taken_gone _ (List.mem_map_of_mem hx) i ?_
      rw [hi, Entry.number, hxpid]
  returns x hx := hreaping.registered.taken_done _ (List.mem_map_of_mem hx)
  returns_nodup := by
    have hnodup := hreaping.registered.taken_nodup
    rwa [List.map_map] at hnodup
  asleep hfree w z hasleep hparent hzombie := by
    obtain ⟨p, hwake⟩ := htold.child w z hasleep hparent hzombie
    exact htold.excludes.not_of_free (l := Lock.waitLock) hfree hwake.locked

theorem noteOf_fork (h : noteOf s e = .fork) : ∃ p np outcome, e = .fork p np outcome := by
  cases e with
  | fork p np outcome => exact ⟨p, np, outcome, rfl⟩
  | advance p fails =>
    simp only [noteOf] at h
    unfold noteAt at h
    split at h <;> (try split at h) <;> cases h
  | _ => cases h

/-- The first process forks, its child exits with status 7 and the first process waits for it. -/
def forkExitWait : List ExitEvent :=
  [ExitEvent.dispatch 0, .fork 0 1 .ok] ++ List.replicate 4 (ExitEvent.advance 0 false) ++
    [ExitEvent.dispatch 1, .exit 1 7] ++ List.replicate 132 (ExitEvent.advance 1 false) ++
    [ExitEvent.wait 0 false] ++ List.replicate 3 (ExitEvent.advance 0 false)

end EnhancedXv6.ExitWait
