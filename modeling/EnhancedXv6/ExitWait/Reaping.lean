import EnhancedXv6.ExitWait.Family
import EnhancedXv6.Transition.Registry

/-!
# Pids and exit statuses

The process table is a register of numbered entries: `fork` opens an entry with the next pid, `exit`
ends it with a status and `wait` collects it.  The rules of the register give that pids are distinct
and that every status is collected once, as long as `nextpid` has not come back to 1.
-/

namespace EnhancedXv6.ExitWait

open Kernel Ownership Registry Transition

variable {b : Build} {m : Move} {k k' : State} {p np : Slot} {pc : ProcPc} {note : Note}

structure Ledger where
  /-- the number of `fork`s that asked for a process -/
  forks : ℕ
  /-- the pids and statuses of the processes that have exited -/
  exits : List (Int32 × Int32)
  /-- the children that `wait` has returned -/
  returns : List Return

def Ledger.record (r : Ledger) : Note → Ledger
  | .none => r
  | .fork => { r with forks := r.forks + 1 }
  | .exit pid status => { r with exits := (pid, status) :: r.exits }
  | .ret x => { r with returns := x :: r.returns }

def entryOf (pr : Proc) : Entry Int32 Int32 :=
  match stage pr.state with
  | .free => .free
  | .zombie => .finished pr.pid pr.xstate
  | .used | .live => .active pr.pid

/-- The pid that `allocpid` gives out after `n` others. -/
def nthPid (n : ℕ) : Int32 := Int32.ofNat (n + 1)

theorem nthPid_ne {i j : ℕ} (hij : i < j) (hj : j + 1 < 2 ^ 31) : nthPid i ≠ nthPid j := by
  intro h
  have htoInt := congrArg Int32.toInt h
  rw [nthPid, nthPid, Int32.toInt_ofNat_of_lt (by omega), Int32.toInt_ofNat_of_lt hj] at htoInt
  omega

theorem nthPid_succ (n : ℕ) : nthPid (n + 1) = nthPid n + 1 := by
  rw [nthPid, Int32.ofNat_add]
  rfl

structure Reaping (k : State) (r : Ledger) : Prop where
  registered : Registered nthPid (fun i ↦ entryOf (k.proc i)) (r.forks + 1) r.exits
    (r.returns.map fun x ↦ (x.pid, x.status))
  nextpid : k.nextpid = nthPid (r.forks + 1)
  parent : ∀ x ∈ r.returns, x.parent = some x.waiter

theorem entryOf_same {pr pr' : Proc} (h : Same pr pr') : entryOf pr' = entryOf pr := by
  rw [entryOf, entryOf, h.stage, h.pid, h.xstate]

theorem entryOf_update {q : Slot} {entry : Entry Int32 Int32}
    (hothers : ∀ i, i ≠ q → Same (k.proc i) (k'.proc i)) (hq : entryOf (k'.proc q) = entry) :
    (fun i ↦ entryOf (k'.proc i)) = Function.update (fun i ↦ entryOf (k.proc i)) q entry := by
  funext i
  by_cases hi : i = q
  · subst hi
    simpa using hq
  · simpa [hi] using entryOf_same (hothers i hi)

theorem forkAllocAt_nextpid {outcome : AllocOutcome} :
    (forkAllocAt b k p np outcome).nextpid = k.nextpid + 1 := by
  cases outcome <;> rfl

theorem forkAllocAt_pid (b : Build) (k : State) (p np : Slot) :
    ((forkAllocAt b k p np .ok).proc np).pid = k.nextpid := by
  simp [forkAllocAt, allocprocAt, forkCopy, allocprocFound, allocprocReady]

theorem same_forkAllocAt {outcome : AllocOutcome} (i : Slot) (hi : i ≠ np) :
    Same (k.proc i) ((forkAllocAt b k p np outcome).proc i) := by
  rw [forkAllocAt_proc_of_ne hi]
  exact .refl _

theorem entryOf_unused {pr : Proc} (h : pr.state = .unused) : entryOf pr = .free := by
  rw [entryOf, h]
  rfl

namespace Reaping

variable {r : Ledger}

/-- A step that leaves the entries alone. -/
theorem unchanged (h : Reaping k r) (hentry : ∀ i, entryOf (k'.proc i) = entryOf (k.proc i))
    (hnext : k'.nextpid = k.nextpid) : Reaping k' r := by
  have hentries : (fun i ↦ entryOf (k'.proc i)) = fun i ↦ entryOf (k.proc i) := funext hentry
  exact ⟨hentries ▸ h.registered, hnext.trans h.nextpid, h.parent⟩

theorem alloc (h : Reaping k r) (hunused : (k.proc np).state = .unused)
    (hfew : r.forks + 1 < 2 ^ 31 - 1) :
    Reaping (forkAllocAt b k p np .ok) (r.record .fork) := by
  have hnew : entryOf ((forkAllocAt b k p np .ok).proc np) = .active (nthPid (r.forks + 1)) := by
    rw [entryOf, forkAllocAt_state, if_pos rfl, forkAllocAt_pid, h.nextpid]
    rfl
  refine ⟨?_, ?_, h.parent⟩
  · rw [entryOf_update same_forkAllocAt hnew]
    refine h.registered.start (entryOf_unused hunused) fun j hj ↦ ?_
    exact nthPid_ne hj (by omega)
  · rw [forkAllocAt_nextpid, h.nextpid]
    exact (nthPid_succ (r.forks + 1)).symm

theorem allocFails {outcome : AllocOutcome} (h : Reaping k r)
    (hunused : (k.proc np).state = .unused) (hok : outcome ≠ .ok) :
    Reaping (forkAllocAt b k p np outcome) (r.record .fork) := by
  have hentry : ∀ i, entryOf ((forkAllocAt b k p np outcome).proc i) = entryOf (k.proc i) := by
    intro i
    by_cases hi : i = np
    · rw [hi, entryOf_unused hunused, entryOf_unused]
      rw [forkAllocAt_state, if_neg hok]
    · exact entryOf_same (same_forkAllocAt i hi)
  refine ⟨?_, ?_, h.parent⟩
  · rw [funext hentry]
    exact h.registered.skip
  · rw [forkAllocAt_nextpid, h.nextpid]
    exact (nthPid_succ (r.forks + 1)).symm

theorem die {status : Int32} {ticks : UInt32} (h : Reaping k r)
    (hrunning : (k.proc p).state = .running) :
    Reaping (k.modify p (exitState status ticks)) (r.record (.exit (k.proc p).pid status)) := by
  have hothers : ∀ i, i ≠ p → Same (k.proc i) ((k.modify p (exitState status ticks)).proc i) := by
    intro i hi
    simpa [hi] using Same.refl (k.proc i)
  have hnew : entryOf ((k.modify p (exitState status ticks)).proc p) =
      .finished (k.proc p).pid status := by
    simp [entryOf, exitState, stage]
  refine ⟨?_, h.nextpid, h.parent⟩
  rw [entryOf_update hothers hnew]
  exact h.registered.finish (by rw [entryOf, hrunning]; rfl) status

theorem reap {pp : Slot} {x : Bool} (h : Reaping k r) (hrunning : (k.proc p).state = .running)
    (hparent : (k.proc pp).parent = some p) (hzombie : (k.proc pp).state = .zombie) :
    Reaping (ExitWait.reap b k p pp x false)
      (r.record (.ret ⟨p, (k.proc pp).parent, (k.proc pp).pid, (k.proc pp).xstate⟩)) := by
  have hne : p ≠ pp := by
    rintro rfl
    simp [hrunning] at hzombie
  have hnew : entryOf ((ExitWait.reap b k p pp x false).proc pp) = .free := by
    rw [reap_proc_child b k x hne]
    rfl
  refine ⟨?_, (reap_nextpid b k p pp x false).trans h.nextpid, fun y hy ↦ ?_⟩
  · rw [entryOf_update (fun i hi ↦ same_reap b k p x hi) hnew]
    exact h.registered.collect (by rw [entryOf, hzombie]; rfl)
  · rcases List.mem_cons.mp hy with rfl | hy
    · exact hparent
    · exact h.parent y hy

theorem does (h : Reaping k r) (hdoes : Does b k p pc m note)
    (hfew : note = .fork → r.forks + 1 < 2 ^ 31 - 1)
    (hchild : ∀ np, pc.child = some np → stage (k.proc np).state = .used) :
    Reaping m.kernel (r.record note) := by
  cases hdoes with
  | quiet _ hsame hnext _ => exact h.unchanged (fun i ↦ entryOf_same (hsame i)) hnext
  | alloc _ hunused => exact h.alloc hunused (hfew rfl)
  | allocFails hok hunused => exact h.allocFails hunused hok
  | link =>
    rename_i np _
    refine h.unchanged (fun i ↦ ?_) rfl
    by_cases hi : i = np <;> simp [hi, setParent, entryOf]
  | publish =>
    rename_i np
    have hentry : entryOf (k.proc np) = .active (k.proc np).pid := by
      rw [entryOf, hchild np rfl]
    refine h.unchanged (fun i ↦ ?_) rfl
    by_cases hi : i = np
    · rw [hi, hentry]
      simp [publish, setState, entryOf, stage]
    · simp [publish, hi]
  | adopt hparent =>
    rename_i pp _
    refine h.unchanged (fun i ↦ ?_) rfl
    by_cases hi : i = pp <;> simp [hi, setParent, entryOf]
  | die hrunning => exact h.die hrunning
  | reap hrunning hparent hzombie => exact h.reap hrunning hparent hzombie

end Reaping

theorem reaping_userinit (b : Build) : Reaping (userinit b) ⟨0, [], []⟩ := by
  have hentry : (fun i ↦ entryOf ((userinit b).proc i)) =
      Function.update (fun _ ↦ .free) 0 (.active (nthPid 0)) := by
    funext i
    simp only [userinit, allocproc, allocprocAt, findUnused_zeroed, reduceCtorEq, if_false]
    by_cases hi : i = 0
    · simp [allocprocReady, allocprocFound, zeroed, entryOf, stage, nthPid, hi]
    · simp [zeroed, entryOf, stage, hi]
  refine ⟨?_, ?_, fun x hx ↦ (by simp at hx)⟩
  · rw [hentry]
    exact Registered.empty.start rfl fun j hj ↦ absurd hj (Nat.not_lt_zero j)
  · simp only [userinit, allocproc, allocprocAt, findUnused_zeroed, reduceCtorEq, if_false]
    rfl

end EnhancedXv6.ExitWait
