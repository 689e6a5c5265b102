import EnhancedXv6.ExitWait.Model

/-!
# What the steps do

Most steps leave the parent, the pid and the exit status of every process as they are and begin or
end no process.  The others are listed in `Does`, each with the place in the code where it happens
and with what an observer of the system calls notes.
-/

namespace EnhancedXv6.ExitWait

open Kernel Ownership Transition

variable {b : Build} {s s' : ExitState} {e : ExitEvent} {m : Move} {k : State} {p : Slot}
  {pr pr' : Proc} {pc : ProcPc}

/-! ## Stages of a slot -/

inductive Stage
  | free | used | live | zombie
  deriving DecidableEq

/-- The state of a process without the scheduling. -/
def stage : Procstate → Stage
  | .unused => .free
  | .used => .used
  | .sleeping | .runnable | .running => .live
  | .zombie => .zombie

@[simp] theorem stage_eq_free {state : Procstate} : stage state = .free ↔ state = .unused := by
  cases state <;> simp [stage]

@[simp] theorem stage_eq_zombie {state : Procstate} : stage state = .zombie ↔ state = .zombie := by
  cases state <;> simp [stage]

/-- A change that matters to the scheduler only. -/
structure Same (pr pr' : Proc) : Prop where
  stage : stage pr'.state = stage pr.state
  parent : pr'.parent = pr.parent
  pid : pr'.pid = pr.pid
  xstate : pr'.xstate = pr.xstate

theorem Same.refl (pr : Proc) : Same pr pr := ⟨rfl, rfl, rfl, rfl⟩

theorem same_modify {f : Proc → Proc} (hf : Same (k.proc p) (f (k.proc p))) (i : Slot) :
    Same (k.proc i) ((k.modify p f).proc i) := by
  by_cases hi : i = p
  · subst hi
    simpa using hf
  · simpa [hi] using Same.refl (k.proc i)

theorem same_wakeupProc (chan : Chan) (pr : Proc) : Same pr (wakeupProc chan pr) := by
  unfold wakeupProc
  split
  · exact ⟨by simp [*, stage], rfl, rfl, rfl⟩
  · exact .refl pr

theorem same_killProc (pr : Proc) : Same pr (killProc pr) := by
  refine ⟨?_, rfl, rfl, rfl⟩
  simp only [killProc]
  split
  · simp [*, stage]
  · rfl

theorem same_wakeupAt (k : State) (p q : Slot) (chan : Chan) (i : Slot) :
    Same (k.proc i) ((wakeupAt k p q chan).proc i) := by
  unfold wakeupAt
  split
  · exact .refl _
  · exact same_modify (same_wakeupProc chan _) i

/-- A `wait` that fails to store the status has only counted system calls. -/
theorem same_reap_fails (b : Build) (k : State) (p pp : Slot) (x : Bool) (i : Slot) :
    Same (k.proc i) ((reap b k p pp x true).proc i) := by
  cases x
  · exact same_modify ⟨rfl, rfl, rfl, rfl⟩ i
  · exact .refl _

/-- A `wait` that reaps a child leaves the others alone. -/
theorem same_reap (b : Build) (k : State) (p : Slot) {pp i : Slot} (x : Bool) (hi : i ≠ pp) :
    Same (k.proc i) ((reap b k p pp x false).proc i) := by
  cases x
  · have hmerged : Same (k.proc i) ((k.modify p (addCounters (k.proc pp).sysCounter)).proc i) :=
      same_modify ⟨rfl, rfl, rfl, rfl⟩ i
    simpa [reap, hi] using hmerged
  · simpa [reap, hi] using Same.refl (k.proc i)

theorem reap_proc_child (b : Build) (k : State) {p pp : Slot} (x : Bool) (hne : p ≠ pp) :
    (reap b k p pp x false).proc pp = freeproc b (k.proc pp) := by
  cases x <;> simp [reap, hne.symm]

theorem reap_initproc (b : Build) (k : State) (p pp : Slot) (x fails : Bool) :
    (reap b k p pp x fails).initproc = k.initproc := by
  cases x <;> cases fails <;> rfl

theorem reap_nextpid (b : Build) (k : State) (p pp : Slot) (x fails : Bool) :
    (reap b k p pp x fails).nextpid = k.nextpid := by
  cases x <;> cases fails <;> rfl

/-! ## Program counters -/

namespace ProcPc

def Locked : ProcPc → Prop
  | .forkLocked _ | .forkLinked _ | .exitReparent _ _ | .exitInit _ _ _ | .exitParent _ _ _
  | .exitLast _ | .waitScan _ _ _ | .waitKilled _ | .waitSleep _ => True
  | _ => False

def child : ProcPc → Option Slot
  | .forkAllocated np | .forkLocked np | .forkLinked np | .forkUnlocked np => some np
  | _ => none

def linked : ProcPc → Option Slot
  | .forkLinked np | .forkUnlocked np => some np
  | _ => none

def Exiting : ProcPc → Prop
  | .exitEnter _ | .exitReparent _ _ | .exitInit _ _ _ | .exitParent _ _ _ | .exitLast _ => True
  | _ => False

end ProcPc

/-- What `reparent` has achieved when `p` is at `pc`. -/
def Parted (k : State) (p : Slot) : ProcPc → Prop
  | .exitReparent _ rest | .exitInit _ rest _ => ∀ i, i ∉ rest → (k.proc i).parent ≠ some p
  | .exitParent _ _ _ | .exitLast _ => ∀ i, (k.proc i).parent ≠ some p
  | _ => True

/-- What the scan of `wait` has found when `p` is at `pc`. -/
def Scanned (k : State) (p : Slot) : ProcPc → Prop
  | .waitScan _ rest _ => ∀ i, i ∉ rest → (k.proc i).parent = some p → (k.proc i).state ≠ .zombie
  | .waitKilled _ | .waitSleep _ => ∀ i, (k.proc i).parent = some p → (k.proc i).state ≠ .zombie
  | _ => True

/-- The program counter moves on inside the code. -/
structure Onward (k : State) (p : Slot) (pc pc' : ProcPc) : Prop where
  busy : pc' ≠ .out → pc ≠ .out ∨ (k.proc p).state = .running
  child : ∀ np, pc'.child = some np → pc.child = some np
  linked : ∀ np, pc'.linked = some np → pc.linked = some np
  exiting : pc'.Exiting → pc.Exiting ∨ k.initproc ≠ some p
  parted : Parted k p pc → Parted k p pc'
  scanned : Scanned k p pc → Scanned k p pc'

theorem Onward.refl (k : State) (p : Slot) (pc : ProcPc) : Onward k p pc pc :=
  ⟨.inl, fun _ h ↦ h, fun _ h ↦ h, .inl, id, id⟩

/-! ## Observations -/

/-- A child that `wait` returns to `waiter`: its parent at that time, its pid and its status. -/
structure Return where
  waiter : Slot
  parent : Option Slot
  pid : Int32
  status : Int32

inductive Note
  | none
  /-- `fork` asks for a process -/
  | fork
  /-- the process with that pid ends with that status -/
  | exit (pid status : Int32)
  /-- `wait` returns a child -/
  | ret (x : Return)

def noteAt (k : State) (p : Slot) (copyoutFails : Bool) : ProcPc → Note
  | .exitLast status => .exit (k.proc p).pid status
  | .waitScan _ (pp :: _) _ =>
    if (k.proc pp).parent = some p ∧ (k.proc pp).state = .zombie ∧ copyoutFails = false then
      .ret ⟨p, (k.proc pp).parent, (k.proc pp).pid, (k.proc pp).xstate⟩
    else .none
  | _ => .none

/-- What there is to note about an event. -/
def noteOf (s : ExitState) : ExitEvent → Note
  | .fork _ _ _ => .fork
  | .advance p copyoutFails => noteAt s.kernel p copyoutFails (s.pc p)
  | _ => .none

/-! ## Steps -/

/-- What a step of process `p` at `pc` does to parents, pids, exit statuses and stages. -/
inductive Does (b : Build) (k : State) (p : Slot) : ProcPc → Move → Note → Prop
  | quiet {pc : ProcPc} {m : Move} : Onward k p pc m.pc →
      (∀ i, Same (k.proc i) (m.kernel.proc i)) → m.kernel.nextpid = k.nextpid →
      m.kernel.initproc = k.initproc → Does b k p pc m .none
  | alloc {np : Slot} : (k.proc p).state = .running → (k.proc np).state = .unused →
      Does b k p .out { pc := .forkAllocated np, kernel := forkAllocAt b k p np .ok } .fork
  | allocFails {np : Slot} {outcome : AllocOutcome} : outcome ≠ .ok →
      (k.proc np).state = .unused →
      Does b k p .out { pc := .out, kernel := forkAllocAt b k p np outcome } .fork
  | link {np : Slot} : (k.proc p).state = .running →
      Does b k p (.forkLocked np)
        { pc := .forkLinked np, kernel := k.modify np (setParent (some p)) } .none
  | publish {np : Slot} :
      Does b k p (.forkUnlocked np) { pc := .out, kernel := publish k p np } .none
  | adopt {status : Int32} {pp : Slot} {rest : List Slot} : (k.proc pp).parent = some p →
      Does b k p (.exitReparent status (pp :: rest))
        { pc := .exitInit status rest table, kernel := k.modify pp (setParent k.initproc) } .none
  | die {status : Int32} : (k.proc p).state = .running →
      Does b k p (.exitLast status)
        { pc := .out, lock := .release .waitLock, kernel := k.modify p (exitState status k.ticks) }
        (.exit (k.proc p).pid status)
  | reap {x havekids : Bool} {pp : Slot} {rest : List Slot} : (k.proc p).state = .running →
      (k.proc pp).parent = some p → (k.proc pp).state = .zombie →
      Does b k p (.waitScan x (pp :: rest) havekids)
        { pc := .out, lock := .release .waitLock, kernel := reap b k p pp x false }
        (.ret ⟨p, (k.proc pp).parent, (k.proc pp).pid, (k.proc pp).xstate⟩)

theorem Does.unchanged {m : Move} (honward : Onward k p pc m.pc) (hkernel : m.kernel = k) :
    Does b k p pc m .none :=
  .quiet honward (fun i ↦ by rw [hkernel]; exact .refl _) (by rw [hkernel]) (by rw [hkernel])

/-- A step inside one call. -/
theorem Onward.within {pc' : ProcPc} (hrunning : (k.proc p).state = .running)
    (hchild : pc'.child = pc.child) (hlinked : pc'.linked = pc.linked)
    (hexiting : pc'.Exiting → pc.Exiting) (hparted : Parted k p pc → Parted k p pc')
    (hscanned : Scanned k p pc → Scanned k p pc') : Onward k p pc pc' where
  busy _ := .inr hrunning
  child _ h := hchild ▸ h
  linked _ h := hlinked ▸ h
  exiting h := .inl (hexiting h)
  parted := hparted
  scanned := hscanned

/-- Each section of the code is one of the steps of `Does`. -/
theorem does_advance {fails : Bool} (hrunning : (k.proc p).state = .running)
    (hm : advance b k p fails pc = some m) : Does b k p pc m (noteAt k p fails pc) := by
  have hlive : stage (k.proc p).state = .live := by rw [hrunning, stage]
  cases pc with
  | out => cases hm
  | forkAllocated np =>
    obtain rfl := Option.some.inj hm
    exact .unchanged (.within hrunning rfl rfl id id id) rfl
  | forkLocked np =>
    obtain rfl := Option.some.inj hm
    exact .link hrunning
  | forkLinked np =>
    obtain rfl := Option.some.inj hm
    exact .unchanged (.within hrunning rfl rfl id id id) rfl
  | forkUnlocked np =>
    obtain rfl := Option.some.inj hm
    exact .publish
  | exitEnter status =>
    obtain rfl := Option.some.inj hm
    refine .unchanged (.within hrunning rfl rfl id (fun _ i hi ↦ ?_) id) rfl
    exact absurd (List.mem_finRange i) hi
  | exitReparent status rest =>
    cases rest with
    | nil =>
      obtain rfl := Option.some.inj hm
      exact .unchanged (.within hrunning rfl rfl id (fun h i ↦ h i List.not_mem_nil) id) rfl
    | cons pp rest =>
      simp only [advance] at hm
      split at hm <;> obtain rfl := Option.some.inj hm
      · exact .adopt ‹_›
      · refine .unchanged (.within hrunning rfl rfl id (fun h i hi ↦ ?_) id) rfl
        by_cases hpp : i = pp
        · rwa [hpp]
        · exact h i (by simp [hpp, hi])
  | exitInit status rest scan =>
    cases scan with
    | nil =>
      obtain rfl := Option.some.inj hm
      exact .unchanged (.within hrunning rfl rfl id id id) rfl
    | cons q scan =>
      obtain rfl := Option.some.inj hm
      refine .quiet (.within hrunning rfl rfl id id id) (same_wakeupAt k p q _) ?_ ?_ <;>
        simp only [wakeupAt] <;> split <;> rfl
  | exitParent status chan scan =>
    cases scan with
    | nil =>
      obtain rfl := Option.some.inj hm
      exact .unchanged (.within hrunning rfl rfl id id id) rfl
    | cons q scan =>
      obtain rfl := Option.some.inj hm
      refine .quiet (.within hrunning rfl rfl id id id) (same_wakeupAt k p q _) ?_ ?_ <;>
        simp only [wakeupAt] <;> split <;> rfl
  | exitLast status =>
    obtain rfl := Option.some.inj hm
    exact .die hrunning
  | waitEnter x =>
    obtain rfl := Option.some.inj hm
    refine .unchanged (.within hrunning rfl rfl id id fun _ i hi ↦ ?_) rfl
    exact absurd (List.mem_finRange i) hi
  | waitScan x rest havekids =>
    cases rest with
    | nil =>
      simp only [advance] at hm
      split at hm <;> obtain rfl := Option.some.inj hm
      · exact .unchanged (.within hrunning rfl rfl id id fun h i ↦ h i List.not_mem_nil) rfl
      · exact .unchanged (.within hrunning rfl rfl id id fun _ ↦ trivial) rfl
    | cons pp rest =>
      simp only [advance] at hm
      split at hm
      · rename_i hparent
        split at hm <;> obtain rfl := Option.some.inj hm
        · rename_i hzombie
          cases fails <;> simp only [noteAt, hparent, hzombie, and_true, and_false, if_true,
            if_false, reduceCtorEq]
          · rw [← hparent]
            exact .reap hrunning hparent hzombie
          · exact .quiet (.within hrunning rfl rfl id id fun _ ↦ trivial)
              (same_reap_fails b k p pp x) (reap_nextpid b k p pp x true)
              (reap_initproc b k p pp x true)
        · rename_i hzombie
          simp only [noteAt, hzombie, and_false, false_and, if_false]
          refine .unchanged (.within hrunning rfl rfl id id fun h i hi ↦ ?_) rfl
          by_cases hpp : i = pp
          · rw [hpp]
            exact fun _ ↦ hzombie
          · exact h i (by simp [hpp, hi])
      · rename_i hparent
        obtain rfl := Option.some.inj hm
        simp only [noteAt, hparent, false_and, if_false]
        refine .unchanged (.within hrunning rfl rfl id id fun h i hi ↦ ?_) rfl
        by_cases hpp : i = pp
        · rw [hpp]
          exact fun h ↦ absurd h hparent
        · exact h i (by simp [hpp, hi])
  | waitKilled x =>
    simp only [advance] at hm
    split at hm <;> obtain rfl := Option.some.inj hm
    · exact .unchanged (.within hrunning rfl rfl id id fun _ ↦ trivial) rfl
    · exact .unchanged (.within hrunning rfl rfl id id id) rfl
  | waitSleep x =>
    obtain rfl := Option.some.inj hm
    exact .quiet (.within hrunning rfl rfl id id fun _ ↦ trivial)
      (same_modify ⟨hlive.symm, rfl, rfl, rfl⟩) rfl rfl
  | waitAsleep x =>
    obtain rfl := Option.some.inj hm
    exact .quiet (.within hrunning rfl rfl id id id) (same_modify ⟨rfl, rfl, rfl, rfl⟩) rfl rfl
  | killScan pid rest =>
    cases rest with
    | nil =>
      obtain rfl := Option.some.inj hm
      exact .unchanged (.within hrunning rfl rfl id id id) rfl
    | cons q rest =>
      simp only [advance] at hm
      split at hm <;> obtain rfl := Option.some.inj hm
      · exact .quiet (.within hrunning rfl rfl id id id) (same_modify (same_killProc _)) rfl rfl
      · exact .unchanged (.within hrunning rfl rfl id id id) rfl

/-- And so is every event. -/
theorem does_moveOf (hm : moveOf b s e = some m) :
    Does b s.kernel e.actor (s.pc e.actor) m (noteOf s e) := by
  cases e with
  | dispatch p =>
    simp only [moveOf] at hm
    split at hm <;> cases hm
    rename_i hrunnable
    exact .quiet (.refl _ _ _) (same_modify ⟨by rw [hrunnable]; rfl, rfl, rfl, rfl⟩) rfl rfl
  | preempt p =>
    simp only [moveOf] at hm
    split at hm <;> cases hm
    rename_i hguard
    exact .quiet (.refl _ _ _) (same_modify ⟨by rw [hguard.1]; rfl, rfl, rfl, rfl⟩) rfl rfl
  | sleep p chan =>
    simp only [moveOf] at hm
    split at hm <;> cases hm
    rename_i hguard
    exact .quiet (.refl _ _ _) (same_modify ⟨by rw [hguard.1]; rfl, rfl, rfl, rfl⟩) rfl rfl
  | wakeup p chan =>
    obtain rfl := Option.some.inj hm
    exact .quiet (.refl _ _ _) (same_modify (same_wakeupProc chan _)) rfl rfl
  | fork p np outcome =>
    simp only [moveOf] at hm
    split at hm <;> cases hm
    rename_i hguard
    obtain ⟨hrunning, hout, hunused⟩ := hguard
    simp only [ExitEvent.actor, hout]
    by_cases hok : outcome = .ok
    · simp only [hok, if_true]
      exact .alloc hrunning hunused
    · simp only [hok, if_false]
      exact .allocFails hok hunused
  | exit p status =>
    simp only [moveOf] at hm
    split at hm <;> cases hm
    rename_i hguard
    obtain ⟨hrunning, hout, hinit⟩ := hguard
    simp only [ExitEvent.actor, hout]
    refine .quiet ⟨fun _ ↦ .inr hrunning, fun np h ↦ ?_, fun np h ↦ ?_, fun _ ↦ .inr hinit, id, id⟩
      (same_modify ⟨rfl, rfl, rfl, rfl⟩) rfl rfl
    · cases h
    · cases h
  | wait p x =>
    simp only [moveOf] at hm
    split at hm <;> cases hm
    rename_i hguard
    simp only [ExitEvent.actor, hguard.2]
    exact .unchanged (.within hguard.1 rfl rfl id id id) rfl
  | kill p pid =>
    simp only [moveOf] at hm
    split at hm <;> cases hm
    rename_i hguard
    simp only [ExitEvent.actor, hguard.2]
    exact .unchanged (.within hguard.1 rfl rfl id id id) rfl
  | advance p fails =>
    simp only [moveOf] at hm
    split at hm
    · exact does_advance ‹_› hm
    · cases hm

theorem follows_advance {fails : Bool} (hm : advance b k p fails pc = some m) :
    m.lock.Follows (fun _ ↦ pc.Locked) fun _ ↦ m.pc.Locked := by
  have hlock : ∀ l : Lock, l = .waitLock := fun l ↦ by cases l; rfl
  unfold advance at hm
  split at hm <;> (try split at hm) <;> (try split at hm) <;> cases hm <;>
    simp [LockOp.Follows, ProcPc.Locked, hlock]

theorem follows_moveOf (hm : moveOf b s e = some m) :
    m.lock.Follows (fun _ ↦ (s.pc e.actor).Locked) fun _ ↦ m.pc.Locked := by
  cases e with
  | advance p fails =>
    simp only [moveOf] at hm
    split at hm
    · exact follows_advance hm
    · cases hm
  | fork p np outcome =>
    simp only [moveOf] at hm
    split at hm <;> cases hm
    cases outcome <;> simp [LockOp.Follows, ProcPc.Locked]
  | _ =>
    simp only [moveOf] at hm
    (try split at hm) <;> cases hm
    simp_all [LockOp.Follows, ExitEvent.actor, ProcPc.Locked]

end EnhancedXv6.ExitWait
